import AnnotatedCircuit.Proofs.SignalType.Numbering

/-!
# Look-ups where the numbers come to an end

A look-up counts on past every part that it leaves behind, also past the last one. If the parts of a
type can be counted, this stays within the words with one exception: in a bundle whose last part has
the last word for its number, a field that is not there is looked for one word too far
(`SignalType.lookups_exact`).
-/

namespace AnnotatedCircuit

variable {t sub : SignalType} {fs : Fields} {name : String} {a : Access} {p : List Access}
  {base last n : Nat} {o : Overflow}

/-- Behind the last word there is no field. -/
theorem Fields.named?_of_lastField_last (h : fs.lastField last = .ok n)
    (hlast : Word.limit ≤ last + 1) : fs.named? name = none := by
  cases fs with
  | nil => rfl
  | cons =>
    obtain ⟨k, -, hlt, -⟩ := lastField_cons_iff.mp h
    omega

/-- A look-up overflows just if it passes the last word, which it does behind the last field. -/
theorem Fields.find?_eq_error_iff (h : fs.lastField last = .ok n) (hlast : last < Word.limit) :
    fs.find? name (last + 1) = .error o ↔
      o = .add ∧ n + 1 = Word.limit ∧ last < n ∧ fs.named? name = none := by
  induction fs generalizing last with
  | nil =>
    obtain rfl := Except.ok.inj h
    refine iff_of_false (fun e => ?_) ?_
    · cases e
    · rintro ⟨-, -, hlt, -⟩
      exact Nat.lt_irrefl _ hlt
  | cons name' _ t rest ih =>
    obtain ⟨k, hk, hlt, h⟩ := lastField_cons_iff.mp h
    have hle := le_lastField rest h
    have hn := lastField_lt h hlt
    by_cases hname : name' = name
    · rw [find?, named?, if_pos hname, if_pos hname]
      simp
    · have hparts : Word.add 1 k = .ok (1 + k) := Word.add_eq_ok_iff.mpr ⟨rfl, by omega⟩
      rw [find?, named?, if_neg hname, if_neg hname, hk]
      simp only [hparts, bind, Except.bind]
      by_cases hnext : last + 1 + (1 + k) < Word.limit
      · rw [Word.add_eq_ok_iff.mpr ⟨rfl, hnext⟩, Nat.add_right_comm last 1 (1 + k)]
        refine (ih h hlt).trans ?_
        -- a field that ends before the last word leaves room for another one
        have room : n + 1 = Word.limit → (last + (1 + k) < n ↔ last < n) := by omega
        exact and_congr_right' (and_congr_right fun hn => and_congr_left' (room hn))
      · rw [Word.add, if_neg hnext]
        have missing : rest.named? name = none :=
          named?_of_lastField_last h (by omega)
        constructor
        · intro e
          exact ⟨(Except.error.inj e).symm, by omega, by omega, missing⟩
        · rintro ⟨rfl, -⟩
          rfl

namespace SignalType

theorem field?_eq_error_iff (h : t.lastField = .ok n) : t.field? name = .error o ↔
    o = .add ∧ n + 1 = Word.limit ∧ ∃ fs, t = .bundle fs ∧ fs.named? name = none := by
  cases t with
  | bundle fs =>
    have counted : fs.lastField 0 = .ok n := h
    refine (Fields.find?_eq_error_iff counted (by decide)).trans ?_
    have some_field : n + 1 = Word.limit → 0 < n := by
      intro hn
      rw [Word.limit] at hn
      omega
    constructor
    · rintro ⟨rfl, hn, -, missing⟩
      exact ⟨rfl, hn, fs, rfl, missing⟩
    · rintro ⟨rfl, hn, _, e, missing⟩
      obtain rfl := bundle.inj e
      exact ⟨rfl, hn, some_field hn, missing⟩
  | _ => exact ⟨nofun, nofun⟩

/-- Only a look-up of a field overflows. -/
theorem part?_eq_error_iff (h : t.lastField = .ok n) : t.part? a = .error o ↔
    o = .add ∧ n + 1 = Word.limit ∧ ∃ fs name, t = .bundle fs ∧ a = .field name ∧
      fs.named? name = none := by
  cases a with
  | field name =>
    rw [part?, field?_eq_error_iff h]
    simp
  | index i =>
    obtain ⟨r, hr, -⟩ := element?_ok h i
    rw [part?, hr]
    simp

/-- Only the first access can overflow: behind it there are fewer parts. -/
theorem fieldIdFrom_eq_error_iff (h : t.lastField = .ok n) (hbase : base + n < Word.limit) :
    t.fieldIdFrom base p = .error o ↔ o = .add ∧ n + 1 = Word.limit ∧
      ∃ fs name rest, t.deref = .bundle fs ∧ p = .field name :: rest ∧ fs.named? name = none := by
  induction p generalizing t base n with
  | nil => simp [fieldIdFrom]
  | cons a p ih =>
    have first := part?_eq_error_iff (a := a) (o := o) ((lastField_deref t).trans h)
    rw [fieldIdFrom]
    cases hpart : t.deref.part? a with
    | error o' =>
      rw [hpart, Except.error.injEq] at first
      simp only [bind, Except.bind, Except.error.injEq]
      refine first.trans (and_congr_right' (and_congr_right' ?_))
      constructor
      · rintro ⟨fs, name, ht, rfl, missing⟩
        exact ⟨fs, name, p, ht, rfl, missing⟩
      · rintro ⟨fs, name, _, ht, e, missing⟩
        exact ⟨fs, name, ht, (List.cons.inj e).1, missing⟩
    | ok r =>
      rw [hpart] at first
      have fine : ¬(o = .add ∧ n + 1 = Word.limit ∧ ∃ fs name rest, t.deref = .bundle fs ∧
          a :: p = .field name :: rest ∧ fs.named? name = none) := by
        rintro ⟨ho, hn, fs, name, _, ht, e, missing⟩
        cases first.mpr ⟨ho, hn, fs, name, ht, (List.cons.inj e).1, missing⟩
      refine iff_of_false (fun e => ?_) fine
      cases r with
      | none => cases e
      | some part =>
        obtain ⟨offset, sub⟩ := part
        have lands := lands_of_part? h hpart
        obtain ⟨k, hk, hle⟩ := lands.within.measured
        have behind := lands.behind
        have hadd : Word.add base offset = .ok (base + offset) :=
          Word.add_eq_ok_iff.mpr ⟨rfl, by omega⟩
        simp only [bind, Except.bind, hadd] at e
        obtain ⟨-, hfull, -⟩ := (ih hk (by omega)).mp e
        omega

/-- If the parts of a type can be counted, then no look-up of an element overflows. The look-up of a
field does just if the type is a bundle without that field whose parts use up all words, and the
numbering of accesses does just if this happens at the first of them. -/
theorem lookups_exact (h : t.lastField = .ok n) :
    (∀ i, ∃ r, t.element? i = .ok r) ∧
    (∀ name o, t.field? name = .error o ↔
      o = .add ∧ n + 1 = Word.limit ∧ ∃ fs, t = .bundle fs ∧ fs.named? name = none) ∧
    ∀ p o, t.fieldId? p = .error o ↔ o = .add ∧ n + 1 = Word.limit ∧
      ∃ fs name rest, t.deref = .bundle fs ∧ p = .field name :: rest ∧ fs.named? name = none := by
  refine ⟨fun i => ?_, fun _ _ => field?_eq_error_iff h, fun _ _ => ?_⟩
  · obtain ⟨r, hr, -⟩ := element?_ok h i
    exact ⟨r, hr⟩
  · exact fieldIdFrom_eq_error_iff h ((Nat.zero_add n).symm ▸ lastField_lt t h)

/-- A bundle of which every word is the number of a part. -/
def brimful : SignalType := .bundle (.cons "a" false (.vector .clock (Word.limit - 2)) .nil)

theorem lookups_exact_brimful : brimful.lastField = .ok (Word.limit - 1) ∧
    (∃ r, brimful.field? "a" = .ok r) ∧ brimful.field? "b" = .error .add ∧
    brimful.fieldId? [.field "a", .index (Word.limit - 3)] = .ok (some (Word.limit - 1)) ∧
    (ref brimful).fieldId? [.field "b", .index 0] = .error .add := by
  have h : brimful.lastField = .ok (Word.limit - 1) := by decide +kernel
  have h' : (ref brimful).lastField = .ok (Word.limit - 1) := h
  have full : Word.limit - 1 + 1 = Word.limit := by decide
  obtain ⟨-, fields, -⟩ := lookups_exact h
  obtain ⟨-, -, chains⟩ := lookups_exact h'
  refine ⟨h, ⟨_, rfl⟩, (fields "b" .add).mpr ⟨rfl, full, _, rfl, rfl⟩, by decide +kernel, ?_⟩
  exact (chains _ .add).mpr ⟨rfl, full, _, "b", _, rfl, rfl, rfl⟩

end SignalType

end AnnotatedCircuit
