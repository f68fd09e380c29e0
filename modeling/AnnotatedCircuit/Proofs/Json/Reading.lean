import AnnotatedCircuit.Json.Reader
import AnnotatedCircuit.Proofs.Binary64.Text
import AnnotatedCircuit.Proofs.Json.Rereading
import AnnotatedCircuit.Proofs.OrderedMap

/-!
# What is read from a text

Whatever value is found in a text, its numbers can be written down and read again
(`Json.Input.plain_of_parse?`): integers have 64 bits, and other numbers are in normal form.
-/

namespace AnnotatedCircuit.Json

namespace Input

mutual

/-- The numbers of all values that are found can be read back from their text. -/
def Plain : Input → Prop
  | .value v => v.Plain
  | .arr items => PlainItems items
  | .obj members => PlainMembers members
  | .unreadable => True

def PlainItems : List Input → Prop
  | [] => True
  | i :: is => i.Plain ∧ PlainItems is

def PlainMembers : List (String × Input) → Prop
  | [] => True
  | (_, i) :: ms => i.Plain ∧ PlainMembers ms

end

theorem plainItems_iff {is : List Input} : PlainItems is ↔ ∀ i ∈ is, i.Plain := by
  induction is with
  | nil => simp [PlainItems]
  | cons i is ih => rw [PlainItems, ih, List.forall_mem_cons]

theorem plainMembers_iff {ms : List (String × Input)} : PlainMembers ms ↔ ∀ m ∈ ms, m.2.Plain := by
  induction ms with
  | nil => simp [PlainMembers]
  | cons m ms ih => rw [PlainMembers, ih, List.forall_mem_cons]

mutual

theorem plain_of_value? : (i : Input) → i.Plain → ∀ {v}, i.value? = some v → v.Plain
  | .value v, P, _, h => by
    cases h
    exact P
  | .arr is, P, _, h => by
    obtain ⟨vs, hvs, rfl⟩ := Option.map_eq_some_iff.mp h
    exact plainItems_of_valueItems? is P hvs
  | .obj ms, P, _, h => by
    obtain ⟨vs, hvs, rfl⟩ := Option.map_eq_some_iff.mp h
    have plain := Json.plainMembers_iff.mp (plainMembers_of_valueMembers? ms P hvs)
    exact Json.plainMembers_iff.mpr fun m hm => plain m (OrderedMap.mem_of_mem_ofList hm)
  | .unreadable, _, _, h => by cases h

theorem plainItems_of_valueItems? : (is : List Input) → PlainItems is →
    ∀ {vs}, valueItems? is = some vs → Json.PlainItems vs
  | [], _, _, h => by
    cases h
    trivial
  | i :: is, P, _, h => by
    obtain ⟨v, hv, h⟩ := Option.bind_eq_some_iff.mp h
    obtain ⟨vs, hvs, h⟩ := Option.bind_eq_some_iff.mp h
    cases h
    exact ⟨plain_of_value? i P.1 hv, plainItems_of_valueItems? is P.2 hvs⟩

theorem plainMembers_of_valueMembers? : (ms : List (String × Input)) → PlainMembers ms →
    ∀ {vs}, valueMembers? ms = some vs → Json.PlainMembers vs
  | [], _, _, h => by
    cases h
    trivial
  | (k, i) :: ms, P, _, h => by
    obtain ⟨v, hv, h⟩ := Option.bind_eq_some_iff.mp h
    obtain ⟨vs, hvs, h⟩ := Option.bind_eq_some_iff.mp h
    cases h
    exact ⟨plain_of_value? i P.1 hv, plainMembers_of_valueMembers? ms P.2 hvs⟩

end

variable {i : Input}

theorem Plain.items {is : List Input} (P : i.Plain) (h : i.items? = some is) :
    ∀ j ∈ is, j.Plain := by
  unfold items? at h
  split at h
  · cases h
    exact List.forall_mem_map.mpr (Json.plainItems_iff.mp P)
  · cases h
    exact plainItems_iff.mp P
  · cases h

theorem Plain.members {ms : List (String × Input)} (P : i.Plain) (h : i.members? = some ms) :
    ∀ m ∈ ms, m.2.Plain := by
  unfold members? at h
  split at h
  · cases h
    exact List.forall_mem_map.mpr (Json.plainMembers_iff.mp P)
  · cases h
    exact plainMembers_iff.mp P
  · cases h

theorem Plain.fields {names : List String} {fields : List (Option Input)} (P : i.Plain)
    (h : i.fields? names = some fields) : ∀ j, some j ∈ fields → j.Plain := by
  intro j hj
  unfold fields? at h
  split at h
  · rename_i ms _ hms
    obtain ⟨name, -, found⟩ := Option.exists_of_mem_mapM h hj
    split at found
    · cases found
    · rename_i m hm
      cases found
      exact P.members hms m (List.mem_of_mem_filter (hm ▸ List.mem_singleton_self m))
    · cases found
  · rename_i is _ his
    split at h
    · cases h
      obtain ⟨k, -, hk⟩ := List.mem_map.mp hj
      exact P.items his j (List.mem_of_getElem? hk)
    · cases h
  · cases h

theorem Plain.allFields {names : List String} {is : List Input} (P : i.Plain)
    (h : i.allFields? names = some is) : ∀ j ∈ is, j.Plain := by
  intro j hj
  obtain ⟨fields, hfields, h⟩ := Option.bind_eq_some_iff.mp h
  obtain ⟨f, hf, rfl⟩ := Option.exists_of_mem_mapM h hj
  exact P.fields hfields j hf

end Input

/-! ### Numbers -/

variable {cs ds rest : List Char} {negative : Bool} {i : Input} {d d' : Decimal}

theorem Decimal.lt_of_push? {c : Char} (h : d.push? c = some d') :
    d'.significand < significandLimit := by
  unfold push? at h
  dsimp only at h
  split at h
  · cases h
    assumption
  · cases h

theorem Decimal.whole_lt (ds : List Char) : (whole ds).1.significand < significandLimit := by
  refine List.foldlRecOn ds _ (motive := fun s : Decimal × Bool => s.1.significand < significandLimit)
    (by decide) fun s hs c _ => ?_
  obtain ⟨d, exact⟩ := s
  dsimp only at hs ⊢
  split
  · rename_i e hpush
    exact lt_of_push? hpush
  · exact hs

theorem plain_of_real? (h : real? negative d rest = some i) : i.Plain := by
  obtain ⟨e, -, rfl⟩ := Option.map_eq_some_iff.mp h
  split
  · rename_i x hx
    have N := Binary64.normal_of_ofDecimal? hx
    exact Binary64.Normal.legible ⟨N.significand, N.low, N.high, N.full⟩
  · trivial

theorem plain_of_unsigned? (h : unsigned? negative cs = some i) : i.Plain := by
  have small := Decimal.whole_lt (cs.takeWhile Char.isDigit)
  unfold unsigned? at h
  dsimp only at h
  split at h
  · cases h
  · generalize Decimal.whole (cs.takeWhile Char.isDigit) = r at h small
    obtain ⟨d, exact⟩ := r
    dsimp only at h small
    rw [significandLimit] at small
    split at h
    · split at h
      · cases h
        show _ ∧ _
        omega
      · split at h
        · rename_i fits
          cases h
          have low : 2 * d.significand ≤ significandLimit :=
            of_decide_eq_true (Bool.and_eq_true_iff.mp fits).2
          rw [significandLimit] at low
          show _ ∧ _
          omega
        · exact plain_of_real? h
    · split at h
      · cases h
      · exact plain_of_real? h
    · exact plain_of_real? h

theorem plain_of_atom? (h : atom? cs = some i) : i.Plain := by
  unfold atom? at h
  split at h
  · cases h
    trivial
  · cases h
    trivial
  · cases h
    trivial
  · exact plain_of_unsigned? h
  · exact plain_of_unsigned? h

/-! ### Tokens -/

/-- The numbers of the tokens that are found can be read back. -/
def PlainTokens (ts : List Token) : Prop := ∀ i, .atom i ∈ ts → i.Plain

theorem plainTokens_cons {t : Token} {ts : List Token} (ht : ∀ i, t = .atom i → i.Plain)
    (h : PlainTokens ts) : PlainTokens (t :: ts) := by
  intro i hi
  rcases List.mem_cons.mp hi with e | hi
  · exact ht i e.symm
  · exact h i hi

namespace Scan

variable {s s' : Scan} {c : Char} {ts : List Token}

theorem plain_of_start? (h : PlainTokens ts) (hs : start? ts c = some s) : PlainTokens s.tokens := by
  have mark : ∀ t : Token, (∀ i, t ≠ .atom i) → PlainTokens (t :: ts) := fun t ht =>
    plainTokens_cons (fun i e => absurd e (ht i)) h
  unfold start? at hs
  repeat' split at hs
  all_goals cases hs
  all_goals first
    | exact h
    | exact mark _ (by simp)

theorem plain_of_step? (h : PlainTokens s.tokens) (hs : s.step? c = some s') :
    PlainTokens s'.tokens := by
  unfold step? at hs
  split at hs
  · exact plain_of_start? h hs
  · split at hs
    · cases hs
      exact h
    · obtain ⟨i, hi, hs⟩ := Option.bind_eq_some_iff.mp hs
      exact plain_of_start? (plainTokens_cons (by rintro _ ⟨⟩; exact plain_of_atom? hi) h) hs
  · split at hs
    · cases hs
      exact plainTokens_cons (by simp) h
    · split at hs
      · cases hs
        exact h
      · split at hs
        · cases hs
        · cases hs
          exact h
  · split at hs
    · cases hs
      exact h
    · obtain ⟨_, -, rfl⟩ := Option.map_eq_some_iff.mp hs
      exact h
  · obtain ⟨_, -, rfl⟩ := Option.map_eq_some_iff.mp hs
    exact h

theorem plain_of_finish? (h : PlainTokens s.tokens) (hs : s.finish? = some ts) : PlainTokens ts := by
  have rev : ∀ {ts}, PlainTokens ts → PlainTokens ts.reverse := fun h i hi =>
    h i (List.mem_reverse.mp hi)
  unfold finish? at hs
  split at hs
  · cases hs
    exact rev h
  · obtain ⟨i, hi, rfl⟩ := Option.map_eq_some_iff.mp hs
    exact rev (plainTokens_cons (by rintro _ ⟨⟩; exact plain_of_atom? hi) h)
  · cases hs

end Scan

theorem plain_of_scan? {ts : List Token} (h : Token.scan? cs = some ts) : PlainTokens ts := by
  obtain ⟨s, hs, hfinish⟩ := Option.bind_eq_some_iff.mp h
  refine Scan.plain_of_finish? ?_ hfinish
  exact Option.foldlM_keeps (P := fun s => PlainTokens s.tokens)
    (fun _ _ _ _ h => Scan.plain_of_step? h)
    (by simp [PlainTokens]) hs

/-! ### Values -/

/-- The numbers of the values in brackets that are still open can be read back. -/
def Frame.Plain : Frame → Prop
  | .array items => Input.PlainItems items
  | .object members | .entry members _ => ∀ ms, members = some ms → Input.PlainMembers ms

namespace Reader

/-- The numbers of what was read so far can be read back. -/
structure Plain (r : Reader) : Prop where
  stack : ∀ f ∈ r.stack, f.Plain
  value : ∀ i, r.phase = .finished i → i.Plain

variable {stack : List Frame} {f : Frame} {phase : Phase} {r r' : Reader} {t : Token}

theorem plain_cons (hf : f.Plain) (h : ∀ f ∈ stack, f.Plain) (going : ∀ i, phase ≠ .finished i) :
    Plain ⟨f :: stack, phase⟩ :=
  ⟨List.forall_mem_cons.mpr ⟨hf, h⟩, fun i e => absurd e (going i)⟩

theorem plain_of_accept? (hi : i.Plain) (h : ∀ f ∈ stack, f.Plain) (hr : accept? i stack = some r) :
    r.Plain := by
  unfold accept? at hr
  split at hr
  · cases hr
    exact ⟨h, by rintro _ ⟨⟩; exact hi⟩
  · rw [List.forall_mem_cons] at h
    cases hr
    exact plain_cons ⟨hi, h.1⟩ h.2 (by simp)
  · rw [List.forall_mem_cons] at h
    cases hr
    refine plain_cons (fun ms hms => ?_) h.2 (by simp)
    obtain ⟨k, -, hms⟩ := Option.bind_eq_some_iff.mp hms
    obtain ⟨members, hmembers, hms⟩ := Option.bind_eq_some_iff.mp hms
    cases hms
    exact ⟨hi, h.1 members hmembers⟩
  · cases hr

theorem plain_of_value? (ht : ∀ i, t = .atom i → i.Plain) (h : ∀ f ∈ stack, f.Plain)
    (hr : value? stack t = some r) : r.Plain := by
  unfold value? at hr
  split at hr
  · exact plain_of_accept? (show (Input.value (.str _)).Plain from trivial) h hr
  · exact plain_of_accept? (show Input.unreadable.Plain from trivial) h hr
  · exact plain_of_accept? (ht _ rfl) h hr
  · cases hr
    exact plain_cons trivial h (by simp)
  · cases hr
    exact plain_cons (by rintro _ ⟨⟩; trivial) h (by simp)
  · cases hr

theorem plain_nested (h : i.Plain) : (nested stack i).Plain := by
  unfold nested
  split
  · exact h
  · trivial

theorem plain_of_close? (h : ∀ f ∈ stack, f.Plain) (hr : close? stack t = some r) : r.Plain := by
  unfold close? at hr
  split at hr
  · rename_i items stack
    rw [List.forall_mem_cons] at h
    have items : (Input.arr items.reverse).Plain := Input.plainItems_iff.mpr fun i hi =>
      Input.plainItems_iff.mp h.1 i (List.mem_reverse.mp hi)
    exact plain_of_accept? (plain_nested items) h.2 hr
  · rename_i members stack
    rw [List.forall_mem_cons] at h
    have members : (Input.obj members.reverse).Plain := Input.plainMembers_iff.mpr fun m hm =>
      Input.plainMembers_iff.mp (h.1 _ rfl) m (List.mem_reverse.mp hm)
    exact plain_of_accept? (plain_nested members) h.2 hr
  · rw [List.forall_mem_cons] at h
    exact plain_of_accept? (show Input.unreadable.Plain from trivial) h.2 hr
  · cases hr

theorem plain_of_key? (h : ∀ f ∈ stack, f.Plain) (hr : key? stack t = some r) : r.Plain := by
  unfold key? at hr
  split at hr
  · rw [List.forall_mem_cons] at h
    cases hr
    exact plain_cons h.1 h.2 (by simp)
  · cases hr

theorem Plain.step? (P : r.Plain) (ht : ∀ i, t = .atom i → i.Plain) (hr : r.step? t = some r') :
    r'.Plain := by
  have on : ∀ {phase}, (∀ i, phase ≠ .finished i) → Plain { r with phase } := fun going =>
    ⟨P.stack, fun i e => absurd e (going i)⟩
  unfold Reader.step? at hr
  split at hr
  · exact plain_of_value? ht P.stack hr
  · exact plain_of_close? P.stack hr
  · exact plain_of_value? ht P.stack hr
  · exact plain_of_close? P.stack hr
  · exact plain_of_key? P.stack hr
  · exact plain_of_key? P.stack hr
  · cases hr
    exact on (by simp)
  · cases hr
  · split at hr
    · cases hr
      exact on (by simp)
    · cases hr
      exact on (by simp)
    · cases hr
  · exact plain_of_close? P.stack hr
  · cases hr

end Reader

theorem Input.plain_of_ofTokens? {ts : List Token} (P : PlainTokens ts)
    (h : ofTokens? ts = some i) : i.Plain := by
  obtain ⟨r, hr, hfinish⟩ := Option.bind_eq_some_iff.mp h
  have plain : r.Plain := by
    refine Option.foldlM_keeps (fun t ht r r' R hr => R.step? (fun i e => P i (e ▸ ht)) hr) ?_ hr
    exact ⟨fun _ h => absurd h List.not_mem_nil, by simp⟩
  unfold Reader.finish? at hfinish
  split at hfinish
  · rename_i value hphase
    cases hfinish
    exact plain.value _ hphase
  · cases hfinish

/-- What is found in a text can be written down and read again. -/
theorem Input.plain_of_parse? {text : String} (h : parse? text = some i) : i.Plain := by
  obtain ⟨ts, hts, hi⟩ := Option.bind_eq_some_iff.mp h
  exact plain_of_ofTokens? (plain_of_scan? hts) hi

end AnnotatedCircuit.Json
