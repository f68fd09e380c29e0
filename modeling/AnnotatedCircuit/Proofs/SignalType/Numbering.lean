import AnnotatedCircuit.Proofs.SignalType.FieldId

/-!
# Field numbers count the parts in pre-order

Accesses lead from a type to a part of it (`SignalType.reach?`). The part has its own number and, up
to its last one, those of its parts (`SignalType.Spans`). What one look-up says of this (`Lands`,
`part?_apart`, `exists_part?`) is carried along the accesses (`SignalType.Leads`): a part lies within
the type, parts of which none contains the other are apart, and where every part can be accessed each
number belongs to one (`SignalType.fieldId?_preorder`).
-/

namespace AnnotatedCircuit

variable {t sub sub' : SignalType} {fs : Fields} {name name' : String} {a b : Access}
  {p q : List Access} {base last n i j k k' next number offset offset' : Nat}

/-- Fields are a list, whatever their types are. -/
@[induction_eliminator]
theorem Fields.induction {P : Fields → Prop} (nil : P .nil)
    (cons : ∀ name flipped type rest, P rest → P (.cons name flipped type rest)) : ∀ fs, P fs
  | .nil => nil
  | .cons _ _ _ rest => cons _ _ _ rest (induction nil cons rest)

/-! ### Parts, numbers aside -/

def Fields.names : Fields → List String
  | .nil => []
  | .cons name _ _ rest => name :: rest.names

/-- The type of the first field called `name`. -/
def Fields.named? (name : String) : Fields → Option SignalType
  | .nil => none
  | .cons n _ type rest => if n = name then some type else rest.named? name

namespace SignalType

/-- The part that one access leads to. -/
def access? : SignalType → Access → Option SignalType
  | .bundle fs, .field name => fs.named? name
  | .vector element length, .index n => if n < length then some element else none
  | _, _ => none

/-- The part that a chain of accesses leads to. References on the way are passed through. -/
def reach? (t : SignalType) : List Access → Option SignalType
  | [] => some t
  | a :: rest => do (← t.deref.access? a).reach? rest

/-- A chain of accesses leads to a part that has the numbers from `first` up to `last`. -/
structure Spans (t : SignalType) (accesses : List Access) (first last : Nat) : Prop where
  number : t.fieldId? accesses = .ok (some first)
  parts : ∃ sub k, t.reach? accesses = some sub ∧ sub.lastField = .ok k ∧ last = first + k

end SignalType

mutual

/-- Every part of a type can be accessed: the fields of a bundle have different names, and what a
reference leads to is no reference. -/
def SignalType.Plain : SignalType → Prop
  | .bundle fs => fs.names.Nodup ∧ fs.Plain
  | .vector element _ => element.Plain
  | .ref target => target.isRef = false ∧ target.Plain
  | _ => True

def Fields.Plain : Fields → Prop
  | .nil => True
  | .cons _ _ type rest => type.Plain ∧ rest.Plain

end

/-! ### One look-up -/

/-- A look-up finds `sub` at `offset`, behind `before` and with all its parts up to `last`. -/
structure SignalType.Lands (sub : SignalType) (before offset last : Nat) : Prop where
  behind : before < offset
  within : sub.Within offset last

namespace Fields

theorem lastField_lt (h : fs.lastField last = .ok n) (hlast : last < Word.limit) :
    n < Word.limit := by
  induction fs generalizing last with
  | nil => exact Except.ok.inj h ▸ hlast
  | cons name _ t rest ih =>
    obtain ⟨k, -, hlt, h⟩ := lastField_cons_iff.mp h
    exact ih h hlt

/-- A field is looked for behind another one as soon as the parts of that one are counted. -/
theorem find?_cons_iff {flipped : Bool} {rest : Fields} {r : Option (Nat × SignalType)}
    (hname : name' ≠ name) : (Fields.cons name' flipped t rest).find? name next = .ok r ↔
      ∃ k, t.lastField = .ok k ∧ next + (1 + k) < Word.limit ∧
        rest.find? name (next + (1 + k)) = .ok r := by
  simp only [find?, if_neg hname, Checked.bind_eq_ok_iff, Word.add_eq_ok_iff]
  constructor
  · rintro ⟨k, hk, _, ⟨rfl, -⟩, _, ⟨rfl, hlt⟩, h⟩
    exact ⟨k, hk, hlt, h⟩
  · rintro ⟨k, hk, hlt, h⟩
    exact ⟨k, hk, _, ⟨rfl, by omega⟩, _, ⟨rfl, hlt⟩, h⟩

theorem find?_cons_self {flipped : Bool} {rest : Fields} :
    (Fields.cons name flipped t rest).find? name next = .ok (some (next, t)) := if_pos rfl

theorem named?_of_find? (h : fs.find? name next = .ok (some (offset, sub))) :
    fs.named? name = some sub ∧ next ≤ offset := by
  induction fs generalizing next with
  | nil => cases h
  | cons name' _ t rest ih =>
    by_cases hname : name' = name
    · subst hname
      cases find?_cons_self.symm.trans h
      exact ⟨if_pos rfl, Nat.le_refl _⟩
    · obtain ⟨k, -, -, h⟩ := (find?_cons_iff hname).mp h
      obtain ⟨found, hle⟩ := ih h
      exact ⟨(if_neg hname).trans found, by omega⟩

/-- A field that is there is found without overflow, and lies where the numbers of the bundle do. -/
theorem find?_of_named? (h : fs.lastField last = .ok n) (hlast : last < Word.limit)
    (found : fs.named? name = some sub) :
    ∃ offset, fs.find? name (last + 1) = .ok (some (offset, sub)) ∧ sub.Lands last offset n := by
  induction fs generalizing last with
  | nil => cases found
  | cons name' _ t rest ih =>
    obtain ⟨k, hk, hlt, h⟩ := lastField_cons_iff.mp h
    have hle := le_lastField rest h
    by_cases hname : name' = name
    · subst hname
      obtain rfl := Option.some.inj ((if_pos rfl).symm.trans found)
      exact ⟨last + 1, find?_cons_self, Nat.lt_succ_self _, ⟨k, hk, by omega⟩⟩
    · obtain ⟨offset, hfind, behind, within⟩ := ih h hlt ((if_neg hname).symm.trans found)
      obtain ⟨k', -, hk'⟩ := within.measured
      have hn := lastField_lt h hlt
      refine ⟨offset, (find?_cons_iff hname).mpr ⟨k, hk, by omega, ?_⟩, by omega, within⟩
      rwa [Nat.add_right_comm]

/-- Two fields have their numbers apart. -/
theorem find?_apart (ne : name ≠ name') (h : fs.find? name next = .ok (some (offset, sub)))
    (h' : fs.find? name' next = .ok (some (offset', sub'))) (hk : sub.lastField = .ok k)
    (hk' : sub'.lastField = .ok k') : offset + k < offset' ∨ offset' + k' < offset := by
  induction fs generalizing next with
  | nil => cases h
  | cons first _ t rest ih =>
    by_cases e : first = name
    · subst e
      cases find?_cons_self.symm.trans h
      obtain ⟨_, hk₁, -, h'⟩ := (find?_cons_iff ne).mp h'
      cases hk₁.symm.trans hk
      have := (named?_of_find? h').2
      omega
    · obtain ⟨_, hk₁, -, h⟩ := (find?_cons_iff e).mp h
      by_cases e' : first = name'
      · subst e'
        cases find?_cons_self.symm.trans h'
        cases hk₁.symm.trans hk'
        have := (named?_of_find? h).2
        omega
      · obtain ⟨_, hk₂, -, h'⟩ := (find?_cons_iff e').mp h'
        cases hk₁.symm.trans hk₂
        exact ih h h'

theorem mem_names_of_named? (h : fs.named? name = some sub) : name ∈ fs.names := by
  induction fs with
  | nil => cases h
  | cons name' _ t rest ih =>
    by_cases e : name' = name
    · exact e ▸ List.mem_cons_self
    · exact List.mem_cons_of_mem _ (ih ((if_neg e).symm.trans h))

theorem Plain.named? (P : fs.Plain) (h : fs.named? name = some sub) : sub.Plain := by
  induction fs with
  | nil => cases h
  | cons name' _ t rest ih =>
    rw [Fields.Plain] at P
    by_cases e : name' = name
    · exact Option.some.inj ((if_pos e).symm.trans h) ▸ P.1
    · exact ih P.2 ((if_neg e).symm.trans h)

/-- Each number of a bundle behind its own belongs to a field, if the fields have different names. -/
theorem exists_find? (nodup : fs.names.Nodup) (h : fs.lastField last = .ok n)
    (hlast : last < Word.limit) (hi : last < i) (hin : i ≤ n) :
    ∃ name offset sub k, fs.find? name (last + 1) = .ok (some (offset, sub)) ∧
      sub.lastField = .ok k ∧ offset ≤ i ∧ i ≤ offset + k := by
  induction fs generalizing last with
  | nil =>
    obtain rfl := Except.ok.inj h
    omega
  | cons name' _ t rest ih =>
    obtain ⟨k, hk, hlt, h⟩ := lastField_cons_iff.mp h
    obtain ⟨new, nodup⟩ := List.nodup_cons.mp nodup
    by_cases here : i ≤ last + (1 + k)
    · exact ⟨name', last + 1, t, k, find?_cons_self, hk, hi, by omega⟩
    · obtain ⟨name, offset, sub, k', hfind, hk', hle, hge⟩ := ih nodup h hlt (by omega)
      have found := (named?_of_find? hfind).1
      have hname : name' ≠ name := fun e => new (e ▸ mem_names_of_named? found)
      have hn := lastField_lt h hlt
      have := (named?_of_find? hfind).2
      refine ⟨name, offset, sub, k', (find?_cons_iff hname).mpr ⟨k, hk, by omega, ?_⟩, hk', hle, hge⟩
      rwa [Nat.add_right_comm]

end Fields

namespace SignalType

theorem lastField_lt : (t : SignalType) → {n : Nat} → t.lastField = .ok n → n < Word.limit
  | .bundle fs, _, h => fs.lastField_lt h (by decide)
  | .vector element length, _, h => by
    simp only [lastField, Checked.bind_eq_ok_iff, Word.mul_eq_ok_iff] at h
    obtain ⟨_, -, _, -, rfl, hlt⟩ := h
    exact hlt
  | .ref target, _, h => lastField_lt target h
  | .uint _, _, h | .sint _, _, h | .clock, _, h | .reset, _, h | .asyncReset, _, h =>
    Except.ok.inj h ▸ (by decide)

theorem element?_eq_some_iff {element : SignalType} {length : Nat} :
    (vector element length).element? i = .ok (some (offset, sub)) ↔
      i < length ∧ sub = element ∧ ∃ k, element.lastField = .ok k ∧ 1 + k < Word.limit ∧
        offset = 1 + i * (1 + k) ∧ offset < Word.limit := by
  rw [element?]
  split
  · rename_i hi
    simp only [Checked.bind_eq_ok_iff, Word.add_eq_ok_iff, Word.mul_eq_ok_iff]
    constructor
    · rintro ⟨k, hk, _, ⟨rfl, hparts⟩, _, ⟨rfl, -⟩, _, ⟨rfl, hlt⟩, e⟩
      cases e
      exact ⟨hi, rfl, k, hk, hparts, rfl, hlt⟩
    · rintro ⟨-, rfl, k, hk, hparts, rfl, hlt⟩
      exact ⟨k, hk, _, ⟨rfl, hparts⟩, _, ⟨rfl, by omega⟩, _, ⟨rfl, hlt⟩, rfl⟩
  · rename_i hi
    refine ⟨fun h => ?_, fun h => absurd h.1 hi⟩
    cases h

theorem lastField_vector_iff {element : SignalType} {length : Nat} :
    (vector element length).lastField = .ok n ↔ ∃ k, element.lastField = .ok k ∧
      1 + k < Word.limit ∧ n = length * (1 + k) ∧ n < Word.limit := by
  simp only [lastField, Checked.bind_eq_ok_iff, Word.add_eq_ok_iff, Word.mul_eq_ok_iff]
  constructor
  · rintro ⟨k, hk, _, ⟨rfl, hparts⟩, rfl, hlt⟩
    exact ⟨k, hk, hparts, rfl, hlt⟩
  · rintro ⟨k, hk, hparts, rfl, hlt⟩
    exact ⟨k, hk, _, ⟨rfl, hparts⟩, rfl, hlt⟩

theorem access?_of_part? (h : t.part? a = .ok (some (offset, sub))) : t.access? a = some sub := by
  cases a with
  | field name =>
    cases t with
    | bundle fs => exact (Fields.named?_of_find? h).1
    | _ => cases h
  | index i =>
    cases t with
    | vector element length =>
      obtain ⟨hi, rfl, -⟩ := element?_eq_some_iff.mp h
      exact if_pos hi
    | _ => cases h

/-- A part that is there is found without overflow, and lies where the numbers of the type do. -/
theorem part?_of_access? (h : t.lastField = .ok n) (found : t.access? a = some sub) :
    ∃ offset, t.part? a = .ok (some (offset, sub)) ∧ sub.Lands 0 offset n := by
  unfold access? at found
  split at found
  · rename_i fs name
    exact fs.find?_of_named? h (by decide) found
  · rename_i element length i
    split at found
    · rename_i hi
      obtain rfl := Option.some.inj found
      obtain ⟨k, hk, hparts, rfl, hlt⟩ := lastField_vector_iff.mp h
      have hle : (i + 1) * (1 + k) ≤ length * (1 + k) := Nat.mul_le_mul_right _ hi
      rw [Nat.succ_mul] at hle
      refine ⟨1 + i * (1 + k), ?_, by omega, ⟨k, hk, by omega⟩⟩
      exact element?_eq_some_iff.mpr ⟨hi, rfl, k, hk, hparts, rfl, by omega⟩
    · cases found
  · cases found

/-- Two parts that one access leads to have their numbers apart. -/
theorem part?_apart (ne : a ≠ b) (h : t.part? a = .ok (some (offset, sub)))
    (h' : t.part? b = .ok (some (offset', sub'))) (hk : sub.lastField = .ok k)
    (hk' : sub'.lastField = .ok k') : offset + k < offset' ∨ offset' + k' < offset := by
  cases t with
  | bundle fs =>
    cases a with
    | index => cases h
    | field name =>
      cases b with
      | index => cases h'
      | field name' => exact Fields.find?_apart (mt (congrArg Access.field) ne) h h' hk hk'
  | vector element length =>
    cases a with
    | field => cases h
    | index i =>
      cases b with
      | field => cases h'
      | index j =>
        obtain ⟨-, rfl, _, hk₁, -, rfl, -⟩ := element?_eq_some_iff.mp h
        obtain ⟨-, rfl, _, hk₂, -, rfl, -⟩ := element?_eq_some_iff.mp h'
        cases hk₁.symm.trans hk
        cases hk₂.symm.trans hk
        cases hk'.symm.trans hk
        have step : ∀ {i j : Nat}, i < j → 1 + i * (1 + k) + k < 1 + j * (1 + k) := by
          intro i j hij
          have := Nat.mul_le_mul_right (1 + k) hij
          rw [Nat.succ_mul] at this
          omega
        rcases Nat.lt_or_gt_of_ne (mt (congrArg Access.index) ne) with hij | hij
        · exact .inl (step hij)
        · exact .inr (step hij)
  | _ => cases a <;> cases h

theorem Plain.access? (P : t.Plain) (h : t.access? a = some sub) : sub.Plain := by
  unfold SignalType.access? at h
  split at h
  · rw [SignalType.Plain] at P
    exact P.2.named? h
  · split at h
    · rw [SignalType.Plain] at P
      exact Option.some.inj h ▸ P
    · cases h
  · cases h

/-- Behind a reference, all parts can be accessed as well. -/
theorem Plain.deref (P : t.Plain) : t.deref.Plain ∧ t.deref.isRef = false := by
  cases t with
  | ref target =>
    rw [SignalType.Plain] at P
    exact ⟨P.2, P.1⟩
  | _ => exact ⟨P, rfl⟩

/-- Each number of a type behind its own belongs to a part that one access leads to. -/
theorem exists_part? (P : t.Plain) (direct : t.isRef = false) (h : t.lastField = .ok n)
    (hi : 0 < i) (hin : i ≤ n) : ∃ a offset sub k, t.part? a = .ok (some (offset, sub)) ∧
      sub.lastField = .ok k ∧ offset ≤ i ∧ i ≤ offset + k := by
  cases t with
  | bundle fs =>
    rw [SignalType.Plain] at P
    obtain ⟨name, offset, sub, k, found⟩ := Fields.exists_find? P.1 h (by decide) hi hin
    exact ⟨.field name, offset, sub, k, found⟩
  | vector element length =>
    obtain ⟨k, hk, hparts, rfl, hlt⟩ := lastField_vector_iff.mp h
    -- the element is found by dividing, as all of them have as many parts
    have hdiv := Nat.div_add_mod (i - 1) (1 + k)
    have hmod := Nat.mod_lt (i - 1) (show 0 < 1 + k by omega)
    have hindex : (i - 1) / (1 + k) < length := Nat.div_lt_of_lt_mul (by
      rw [Nat.mul_comm]
      omega)
    rw [Nat.mul_comm] at hdiv
    refine ⟨.index ((i - 1) / (1 + k)), 1 + (i - 1) / (1 + k) * (1 + k), element, k, ?_, hk, ?_, ?_⟩
    · exact element?_eq_some_iff.mpr ⟨hindex, rfl, k, hk, hparts, rfl, by omega⟩
    · omega
    · omega
  | ref => cases direct
  | _ =>
    obtain rfl := Except.ok.inj h
    omega

/-! ### Chains of accesses -/

/-- Accesses lead from a type to a part that has the given number in the type. -/
inductive Leads : SignalType → List Access → Nat → SignalType → Prop
  | here (t : SignalType) : Leads t [] 0 t
  | step {t part sub : SignalType} {a : Access} {p : List Access} {offset i : Nat}
    (first : t.deref.part? a = .ok (some (offset, sub))) (rest : Leads sub p i part) :
    Leads t (a :: p) (offset + i) part

theorem lands_of_part? (h : t.lastField = .ok n) (first : t.deref.part? a = .ok (some (offset, sub))) :
    sub.Lands 0 offset n := by
  obtain ⟨_, first', lands⟩ :=
    part?_of_access? ((lastField_deref t).trans h) (access?_of_part? first)
  cases first.symm.trans first'
  exact lands

namespace Leads

theorem reach? (L : Leads t p i sub) : t.reach? p = some sub := by
  induction L with
  | here => rfl
  | step first _ ih =>
    rw [SignalType.reach?, access?_of_part? first]
    exact ih

/-- A part lies within the type. -/
theorem within (L : Leads t p i sub) (h : t.lastField = .ok n) : sub.Within i n := by
  induction L generalizing n with
  | here => exact ⟨n, h, Nat.le_of_eq (Nat.zero_add n)⟩
  | step first _ ih =>
    obtain ⟨k, hk, hle⟩ := (lands_of_part? h first).within.measured
    obtain ⟨k', hk', hle'⟩ := (ih hk).measured
    exact ⟨k', hk', by omega⟩

/-- The number of a part is found without overflow. -/
theorem fieldIdFrom (L : Leads t p i sub) (h : t.lastField = .ok n)
    (hn : base + n < Word.limit) : t.fieldIdFrom base p = .ok (some (base + i)) := by
  induction L generalizing base n with
  | here => rfl
  | @step t part sub a p offset i first _ ih =>
    obtain ⟨k, hk, hle⟩ := (lands_of_part? h first).within.measured
    have hadd : Word.add base offset = .ok (base + offset) :=
      Word.add_eq_ok_iff.mpr ⟨rfl, by omega⟩
    rw [SignalType.fieldIdFrom, first, ← Nat.add_assoc, ← ih hk (by omega)]
    simp only [hadd, bind, Except.bind]

/-- Only the type itself has the number 0. -/
theorem pos (L : Leads t (a :: p) i sub) (h : t.lastField = .ok n) : 0 < i := by
  cases L with
  | step first _ =>
    have := (lands_of_part? h first).behind
    omega

/-- A number belongs to one chain of accesses. -/
theorem unique (L : Leads t p i sub) (L' : Leads t q i sub') (h : t.lastField = .ok n) : p = q := by
  generalize hj : i = j at L'
  induction L generalizing q j n with
  | here =>
    cases q with
    | nil => rfl
    | cons => exact absurd hj (Nat.ne_of_lt (L'.pos h))
  | @step t part sub a p offset i first rest ih =>
    obtain ⟨k, hk, -⟩ := (lands_of_part? h first).within.measured
    have hi := (rest.within hk).measured
    cases L' with
    | here =>
      have := (lands_of_part? h first).behind
      omega
    | @step _ _ sub₂ b q offset₂ i₂ first₂ rest₂ =>
      obtain ⟨k₂, hk₂, -⟩ := (lands_of_part? h first₂).within.measured
      obtain ⟨m, -, hm⟩ := hi
      obtain ⟨m₂, -, hm₂⟩ := (rest₂.within hk₂).measured
      by_cases e : a = b
      · subst e
        cases first.symm.trans first₂
        obtain rfl := ih hk _ (by omega) rest₂
        rfl
      · have := part?_apart e first first₂ hk hk₂
        omega

/-- Parts of which none contains the other have their numbers apart. -/
theorem apart (L : Leads t p i sub) (L' : Leads t q j sub') (h : t.lastField = .ok n)
    (hk : sub.lastField = .ok k) (hk' : sub'.lastField = .ok k') :
    p <+: q ∨ q <+: p ∨ i + k < j ∨ j + k' < i := by
  induction L generalizing q j n with
  | here => exact .inl (List.nil_prefix)
  | @step t part sub a p offset i first rest ih =>
    cases L' with
    | here => exact .inr (.inl List.nil_prefix)
    | @step _ _ sub₂ b q offset₂ i₂ first₂ rest₂ =>
      obtain ⟨m, hm, -⟩ := (lands_of_part? h first).within.measured
      obtain ⟨m₂, hm₂, -⟩ := (lands_of_part? h first₂).within.measured
      by_cases e : a = b
      · subst e
        cases first.symm.trans first₂
        rcases ih rest₂ hm hk with H | H | H | H
        · exact .inl (List.cons_prefix_cons.mpr ⟨rfl, H⟩)
        · exact .inr (.inl (List.cons_prefix_cons.mpr ⟨rfl, H⟩))
        · omega
        · omega
      · obtain ⟨_, hk₁, hle⟩ := (rest.within hm).measured
        obtain ⟨_, hk₂, hle₂⟩ := (rest₂.within hm₂).measured
        cases hk₁.symm.trans hk
        cases hk₂.symm.trans hk'
        have := part?_apart e first first₂ hm hm₂
        omega

end Leads

theorem exists_leads_of_reach? (h : t.lastField = .ok n) (found : t.reach? p = some sub) :
    ∃ i, Leads t p i sub := by
  induction p generalizing t n with
  | nil => exact Option.some.inj found ▸ ⟨0, .here t⟩
  | cons a p ih =>
    obtain ⟨part, hpart, found⟩ := Option.bind_eq_some_iff.mp found
    obtain ⟨offset, first, lands⟩ := part?_of_access? ((lastField_deref t).trans h) hpart
    obtain ⟨k, hk, -⟩ := lands.within.measured
    obtain ⟨i, rest⟩ := ih hk found
    exact ⟨_, .step first rest⟩

theorem exists_leads_of_fieldIdFrom (h : t.fieldIdFrom base p = .ok (some n)) :
    ∃ i sub, Leads t p i sub ∧ n = base + i := by
  induction p generalizing t base with
  | nil =>
    cases h
    exact ⟨0, t, .here t, rfl⟩
  | cons a p ih =>
    obtain ⟨r, first, h⟩ := Checked.bind_eq_ok_iff.mp h
    cases r with
    | none => cases h
    | some part =>
      obtain ⟨offset, sub⟩ := part
      obtain ⟨_, hadd, h⟩ := Checked.bind_eq_ok_iff.mp h
      obtain ⟨rfl, -⟩ := Word.add_eq_ok_iff.mp hadd
      obtain ⟨i, sub', rest, rfl⟩ := ih h
      exact ⟨offset + i, sub', .step first rest, Nat.add_assoc ..⟩

/-- Each number of a type belongs to a part, if all parts can be accessed. -/
theorem exists_leads (P : t.Plain) (h : t.lastField = .ok n) (hin : i ≤ n) :
    ∃ p sub, Leads t p i sub := by
  induction i using Nat.strongRecOn generalizing t n with
  | ind i ih =>
    rcases Nat.eq_zero_or_pos i with rfl | hi
    · exact ⟨[], t, .here t⟩
    · obtain ⟨P', direct⟩ := P.deref
      have h' := (lastField_deref t).trans h
      obtain ⟨a, offset, sub, k, first, hk, hle, hge⟩ := exists_part? P' direct h' hi hin
      have := (lands_of_part? h first).behind
      obtain ⟨p, part, rest⟩ :=
        ih (i - offset) (by omega) (P'.access? (access?_of_part? first)) hk (by omega)
      exact ⟨a :: p, part, Nat.add_sub_of_le hle ▸ .step first rest⟩

theorem fieldId?_eq_some_iff (h : t.lastField = .ok n) :
    t.fieldId? p = .ok (some i) ↔ ∃ sub, Leads t p i sub := by
  constructor
  · intro hi
    obtain ⟨_, sub, L, rfl⟩ := exists_leads_of_fieldIdFrom hi
    exact ⟨sub, (Nat.zero_add _).symm ▸ L⟩
  · rintro ⟨sub, L⟩
    have hi : t.fieldIdFrom 0 p = .ok (some (0 + i)) :=
      L.fieldIdFrom h ((Nat.zero_add n).symm ▸ lastField_lt t h)
    rwa [Nat.zero_add] at hi

theorem spans_iff (h : t.lastField = .ok n) : t.Spans p i last ↔
    ∃ sub k, Leads t p i sub ∧ sub.lastField = .ok k ∧ last = i + k := by
  constructor
  · rintro ⟨hi, sub, k, found, hk, e⟩
    obtain ⟨_, L⟩ := (fieldId?_eq_some_iff h).mp hi
    cases L.reach?.symm.trans found
    exact ⟨_, k, L, hk, e⟩
  · rintro ⟨sub, k, L, hk, e⟩
    exact ⟨(fieldId?_eq_some_iff h).mpr ⟨sub, L⟩, sub, k, L.reach?, hk, e⟩

/-- The parts of a type whose size is a word are numbered in pre-order. The number of a part that
accesses lead to is found without overflow, and with its own parts it lies within the type.
Different accesses have different numbers, and parts of which none contains the other have theirs
apart. If all parts can be accessed, each number belongs to one of them. -/
theorem fieldId?_preorder (h : t.lastField = .ok n) :
    (∀ p, (t.reach? p).isSome → ∃ first last, t.Spans p first last) ∧
    (∀ p first, t.fieldId? p = .ok (some first) → ∃ last, t.Spans p first last ∧ last ≤ n) ∧
    (∀ p q first, t.fieldId? p = .ok (some first) → t.fieldId? q = .ok (some first) → p = q) ∧
    (∀ p q first last first' last', t.Spans p first last → t.Spans q first' last' →
      p <+: q ∨ q <+: p ∨ last < first' ∨ last' < first) ∧
    (t.Plain → ∀ i ≤ n, ∃! p, t.fieldId? p = .ok (some i)) := by
  have unique : ∀ p q first, t.fieldId? p = .ok (some first) → t.fieldId? q = .ok (some first) →
      p = q := by
    intro p q first hp hq
    obtain ⟨_, L⟩ := (fieldId?_eq_some_iff h).mp hp
    obtain ⟨_, L'⟩ := (fieldId?_eq_some_iff h).mp hq
    exact L.unique L' h
  refine ⟨fun p found => ?_, fun p first hp => ?_, unique, ?_, fun P i hi => ?_⟩
  · obtain ⟨sub, found⟩ := Option.isSome_iff_exists.mp found
    obtain ⟨i, L⟩ := exists_leads_of_reach? h found
    obtain ⟨k, hk, -⟩ := (L.within h).measured
    exact ⟨i, i + k, (spans_iff h).mpr ⟨sub, k, L, hk, rfl⟩⟩
  · obtain ⟨sub, L⟩ := (fieldId?_eq_some_iff h).mp hp
    obtain ⟨k, hk, hle⟩ := (L.within h).measured
    exact ⟨first + k, (spans_iff h).mpr ⟨sub, k, L, hk, rfl⟩, hle⟩
  · intro p q first last first' last' S S'
    obtain ⟨_, k, L, hk, rfl⟩ := (spans_iff h).mp S
    obtain ⟨_, k', L', hk', rfl⟩ := (spans_iff h).mp S'
    exact L.apart L' h hk hk'
  · obtain ⟨p, sub, L⟩ := exists_leads P h hi
    have hp := (fieldId?_eq_some_iff h).mpr ⟨sub, L⟩
    exact ⟨p, hp, fun q hq => unique q p i hq hp⟩

/-- A bundle of a vector without elements and of a reference to a vector of bundles. -/
def nested : SignalType :=
  .bundle (.cons "a" false (.vector (.uint (some 1)) 0) (.cons "b" true
    (.ref (.vector (.bundle (.cons "x" false .clock (.cons "y" false .reset .nil))) 2)) .nil))

theorem fieldId?_preorder_nested : nested.lastField = .ok 8 ∧ nested.Plain ∧
    nested.Spans [.field "a"] 1 1 ∧ nested.Spans [.field "b"] 2 8 ∧
    nested.Spans [.field "b", .index 1] 6 8 ∧
    ∃! p, nested.fieldId? p = .ok (some 8) := by
  have h : nested.lastField = .ok 8 := by decide +kernel
  have P : nested.Plain := by simp [nested, Plain, Fields.Plain, Fields.names, isRef]
  obtain ⟨-, -, -, -, onto⟩ := fieldId?_preorder h
  refine ⟨h, P, ?_, ?_, ?_, onto P 8 (Nat.le_refl 8)⟩
  · exact ⟨by decide +kernel, _, 0, rfl, by decide +kernel, rfl⟩
  · exact ⟨by decide +kernel, _, 6, rfl, by decide +kernel, rfl⟩
  · exact ⟨by decide +kernel, _, 2, rfl, by decide +kernel, rfl⟩

end SignalType

end AnnotatedCircuit
