import AnnotatedCircuit.Proofs.Outcome
import AnnotatedCircuit.SignalType.FieldId

/-!
# Field numbers without overflow

The parts of a type are numbered within the type: those of a field or an element come to an end
where those of the type do (`Fields.find?_ok`, `SignalType.element?_ok`). So if the number of all
parts is a word, no look-up overflows, whatever is accessed (`SignalType.fieldId?_ok`).
-/

namespace AnnotatedCircuit

variable {t sub : SignalType} {fs : Fields} {name : String} {last n number offset : Nat}

/-- The number of the parts of a type is a word. -/
def SignalType.Sized (t : SignalType) : Prop := ∃ n, t.lastField = .ok n ∧ n + 1 < Word.limit

theorem Fields.lastField_cons_iff {flipped : Bool} {rest : Fields} :
    (Fields.cons name flipped t rest).lastField last = .ok n ↔
      ∃ k, t.lastField = .ok k ∧ last + (1 + k) < Word.limit ∧
        rest.lastField (last + (1 + k)) = .ok n := by
  simp only [Fields.lastField, Checked.bind_eq_ok_iff, Word.add_eq_ok_iff]
  constructor
  · rintro ⟨k, hk, _, ⟨rfl, -⟩, _, ⟨rfl, hlt⟩, h⟩
    exact ⟨k, hk, hlt, h⟩
  · rintro ⟨k, hk, hlt, h⟩
    exact ⟨k, hk, _, ⟨rfl, by omega⟩, _, ⟨rfl, hlt⟩, h⟩

theorem Fields.le_lastField : (fs : Fields) → {last : Nat} → fs.lastField last = .ok n → last ≤ n
  | .nil, _, h => Nat.le_of_eq (Except.ok.inj h)
  | .cons .., _, h => by
    obtain ⟨k, -, -, h⟩ := lastField_cons_iff.mp h
    have := le_lastField _ h
    omega

/-- A part of a type: its own parts are numbered behind it, up to `last` at most. -/
structure SignalType.Within (sub : SignalType) (offset last : Nat) : Prop where
  measured : ∃ n, sub.lastField = .ok n ∧ offset + n ≤ last

/-- A look-up among fields that are numbered on from `last`. -/
theorem Fields.find?_ok (name : String) : (fs : Fields) → {last : Nat} →
    fs.lastField last = .ok n → n + 1 < Word.limit →
    ∃ r, fs.find? name (last + 1) = .ok r ∧
      ∀ offset sub, r = some (offset, sub) → sub.Within offset n
  | .nil, _, _, _ => ⟨none, rfl, nofun⟩
  | .cons name' _ t rest, last, h, hn => by
    obtain ⟨k, hk, hlt, h⟩ := lastField_cons_iff.mp h
    have hle := le_lastField rest h
    unfold find?
    split
    · refine ⟨_, rfl, fun offset sub e => ?_⟩
      obtain ⟨rfl, rfl⟩ := Prod.mk.inj (Option.some.inj e)
      exact ⟨k, hk, by omega⟩
    · obtain ⟨r, hr, within⟩ := find?_ok name rest h hn
      refine ⟨r, ?_, within⟩
      have hparts : Word.add 1 k = .ok (1 + k) := Word.add_eq_ok_iff.mpr ⟨rfl, by omega⟩
      have hnext : Word.add (last + 1) (1 + k) = .ok (last + (1 + k) + 1) :=
        Word.add_eq_ok_iff.mpr ⟨by omega, by omega⟩
      simp only [hk, hparts, hnext, bind, Except.bind]
      exact hr

namespace SignalType

theorem lastField_deref (t : SignalType) : t.deref.lastField = t.lastField := by
  cases t <;> simp [deref, lastField]

/-- A look-up of an element. -/
theorem element?_ok (h : t.lastField = .ok last) (i : Nat) :
    ∃ r, t.element? i = .ok r ∧ ∀ offset sub, r = some (offset, sub) → sub.Within offset last := by
  unfold element?
  split
  · rename_i element length
    split
    · rename_i hi
      simp only [lastField, Checked.bind_eq_ok_iff, Word.add_eq_ok_iff, Word.mul_eq_ok_iff] at h
      obtain ⟨k, hk, _, ⟨rfl, hparts⟩, rfl, hlt⟩ := h
      have hle : i * (1 + k) + (1 + k) ≤ length * (1 + k) := by
        rw [← Nat.succ_mul]
        exact Nat.mul_le_mul_right _ hi
      have hadd : Word.add 1 k = .ok (1 + k) := Word.add_eq_ok_iff.mpr ⟨rfl, hparts⟩
      have hmul : Word.mul i (1 + k) = .ok (i * (1 + k)) :=
        Word.mul_eq_ok_iff.mpr ⟨rfl, by omega⟩
      have hnext : Word.add 1 (i * (1 + k)) = .ok (1 + i * (1 + k)) :=
        Word.add_eq_ok_iff.mpr ⟨rfl, by omega⟩
      refine ⟨some (1 + i * (1 + k), element), ?_, fun offset sub e => ?_⟩
      · simp only [hk, hadd, hmul, hnext, bind, Except.bind]
        rfl
      · obtain ⟨rfl, rfl⟩ := Prod.mk.inj (Option.some.inj e)
        exact ⟨k, hk, by omega⟩
    · exact ⟨none, rfl, fun _ _ e => absurd e (Option.some_ne_none _).symm⟩
  · exact ⟨none, rfl, fun _ _ e => absurd e (Option.some_ne_none _).symm⟩

theorem part?_ok (h : t.lastField = .ok last) (hlast : last + 1 < Word.limit) (a : Access) :
    ∃ r, t.part? a = .ok r ∧ ∀ offset sub, r = some (offset, sub) → sub.Within offset last := by
  cases a with
  | index i => exact element?_ok h i
  | field name =>
    cases t with
    | bundle fs => exact fs.find?_ok name h hlast
    | _ => exact ⟨none, rfl, nofun⟩

/-- Accesses lead to parts that lie within the type, so their numbers are words. -/
theorem fieldIdFrom_ok (h : t.lastField = .ok last) (hlast : number + last + 1 < Word.limit)
    (accesses : List Access) : ∃ r, t.fieldIdFrom number accesses = .ok r := by
  induction accesses generalizing t number last with
  | nil => exact ⟨some number, rfl⟩
  | cons a accesses ih =>
    obtain ⟨r, hr, within⟩ := part?_ok ((lastField_deref t).trans h) (by omega) a
    unfold fieldIdFrom
    rw [hr]
    cases r with
    | none => exact ⟨none, rfl⟩
    | some part =>
      obtain ⟨offset, sub⟩ := part
      obtain ⟨n, hn, hle⟩ := (within offset sub rfl).measured
      have hadd : Word.add number offset = .ok (number + offset) :=
        Word.add_eq_ok_iff.mpr ⟨rfl, by omega⟩
      obtain ⟨r, hr⟩ := ih hn (by omega : number + offset + n + 1 < Word.limit)
      refine ⟨r, ?_⟩
      simp only [hadd, bind, Except.bind]
      exact hr

theorem fieldId?_ok (H : t.Sized) (accesses : List Access) : ∃ r, t.fieldId? accesses = .ok r := by
  obtain ⟨n, hn, hlt⟩ := H
  exact fieldIdFrom_ok hn (by omega) accesses

end SignalType

end AnnotatedCircuit
