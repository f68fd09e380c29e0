import AnnotatedCircuit.Proofs.Binary64.Shortest
import AnnotatedCircuit.Proofs.Json.Scanning

/-!
# The text of a number

However the digits of a number are laid out, a reader takes them in again with the same places
(`Binary64.Readable.spells_layout`). So the text of every number in normal form can be read
(`Binary64.Normal.legible`).
-/

namespace AnnotatedCircuit.Binary64

open Json

variable {ds cs : List Char} {place : Int} {negative : Bool} {x : Binary64}

/-- A text without a sign that is read as a floating-point number. -/
structure Spells (cs : List Char) : Prop where
  head : ∃ c rest, cs = c :: rest ∧ c.isDigit = true
  word : ∀ c ∈ cs, isWordChar c = true
  read : ∀ negative, ∃ y, unsigned? negative cs = some (.value (.double y))

/-! ### Parts of a text -/

theorem wholePart_cons {c : Char} {rest : List Char} (hc : c ≠ '0')
    (digit : ∀ c' ∈ c :: rest, c'.isDigit = true) : WholePart (c :: rest) where
  digit := digit
  ne_nil := List.cons_ne_nil c rest
  head _ _ e := hc (List.cons.inj e).1

theorem wholePart_zero : WholePart ['0'] where
  digit := List.all_eq_true.mp (by decide)
  ne_nil := List.cons_ne_nil _ _
  head _ _ e := List.cons_ne_nil _ _ (List.cons.inj e).2.symm

/-- An exponent as it is written after the digits. -/
def exponentChars (point : Int) : List Char :=
  'e' :: (if point < 1 then '-' else '+') :: digits (point - 1).natAbs

theorem exponentPart?_exponentChars (point : Int) :
    exponentPart? (exponentChars point) = some (point - 1) := by
  have W := wholePart_toDigits (point - 1).natAbs
  have all : (digits (point - 1).natAbs).all Char.isDigit = true := List.all_eq_true.mpr W.digit
  have value : natOfDigits (digits (point - 1).natAbs) = (point - 1).natAbs :=
    (natOfDigits_eq _).trans (ofDigitChars_toDigits _)
  have ne : digits (point - 1).natAbs ≠ [] := W.ne_nil
  rw [exponentChars]
  generalize digits (point - 1).natAbs = ds at *
  by_cases small : point < 1
  · simp only [exponentPart?, small, if_true, true_or, ne, ne_eq, not_false_eq_true, all, and_self,
      value]
    congr 1
    omega
  · simp only [exponentPart?, small, if_false, if_true, true_or, ne, ne_eq, not_false_eq_true, all,
      and_self, value, Bool.false_eq_true]
    congr 1
    omega

theorem isWordChar_exponentChars (point : Int) : ∀ c ∈ exponentChars point, isWordChar c = true := by
  rw [exponentChars]
  refine List.forall_mem_cons.mpr ⟨rfl, List.forall_mem_cons.mpr ⟨by split <;> rfl, fun c hc => ?_⟩⟩
  exact isWordChar_of_isDigit ((wholePart_toDigits _).digit c hc)

theorem ofDigitChars_lt (digit : ∀ c ∈ ds, c.isDigit = true) (n : Nat) :
    Nat.ofDigitChars 10 ds n < (n + 1) * 10 ^ ds.length := by
  induction ds generalizing n with
  | nil => simp
  | cons c ds ih =>
    obtain ⟨hc, digit⟩ := List.forall_mem_cons.mp digit
    have hc := Char.isDigit_iff_toNat.mp hc
    have zero : '0'.toNat = 48 := rfl
    have nine : '9'.toNat = 57 := rfl
    rw [Nat.ofDigitChars_cons, List.length_cons, Nat.pow_succ, Nat.mul_comm (10 ^ _) 10,
      ← Nat.mul_assoc]
    refine lt_of_lt_of_le (ih digit _) (Nat.mul_le_mul_right _ ?_)
    omega

/-! ### Layouts -/

/-- Digits, a point and further digits. -/
theorem spells_point {fs : List Char} (W : WholePart ds) (digit : ∀ c ∈ fs, c.isDigit = true)
    (ne : fs ≠ []) (small : Nat.ofDigitChars 10 (ds ++ fs) 0 < significandLimit) :
    Spells (ds ++ '.' :: fs) where
  head := by
    obtain ⟨c, rest, rfl⟩ := List.exists_cons_of_ne_nil W.ne_nil
    exact ⟨c, _, rfl, W.digit c List.mem_cons_self⟩
  word c hc := by
    rcases List.mem_append.mp hc with hc | hc
    · exact isWordChar_of_isDigit (W.digit c hc)
    · rcases List.mem_cons.mp hc with rfl | hc
      · rfl
      · exact isWordChar_of_isDigit (digit c hc)
  read negative := by
    have behind : 0 < fs.length := List.length_pos_iff.mpr ne
    obtain ⟨y, hy⟩ := ofDecimal?_of_places small (e := 0 - fs.length) (by omega)
    have read : unsigned? negative (ds ++ '.' :: (fs ++ [])) = _ :=
      unsigned?_point W digit ne noDigit_nil rfl small hy
    rw [List.append_nil] at read
    exact ⟨_, read⟩

namespace Readable

variable (R : Readable ds place)
include R

theorem ne_nil : ds ≠ [] := by
  obtain ⟨c, rest, rfl, -⟩ := R.head
  exact List.cons_ne_nil c rest

theorem small : Nat.ofDigitChars 10 ds 0 < significandLimit :=
  lt_of_le_of_lt R.few (by decide)

/-- Digits with zeros behind them. -/
theorem spells_zeros (whole : 0 ≤ place) (short : ds.length + place ≤ 16) :
    Spells (ds ++ List.replicate place.toNat '0' ++ ['.', '0']) := by
  obtain ⟨c, rest, rfl, hc⟩ := R.head
  have digit : ∀ c' ∈ c :: rest ++ List.replicate place.toNat '0', c'.isDigit = true := by
    intro c' hc'
    rcases List.mem_append.mp hc' with hc' | hc'
    · exact R.digit c' hc'
    · rw [List.eq_of_mem_replicate hc']
      rfl
  refine spells_point (wholePart_cons hc digit) (List.all_eq_true.mp (by decide))
    (List.cons_ne_nil _ _) ?_
  refine lt_of_lt_of_le (ofDigitChars_lt (fun c' hc' => ?_) 0) ?_
  · rcases List.mem_append.mp hc' with hc' | hc'
    · exact digit c' hc'
    · rw [List.mem_singleton.mp hc']
      rfl
  · have length : (c :: rest ++ List.replicate place.toNat '0' ++ ['0']).length ≤ 17 := by
      simp only [List.length_append, List.length_cons, List.length_replicate, List.length_nil] at *
      omega
    rw [Nat.zero_add, Nat.one_mul]
    exact le_trans (Nat.pow_le_pow_right (by decide) length) (by decide)

/-- Digits with a point among them. -/
theorem spells_among (low : 0 < ds.length + place) (part : place < 0) :
    Spells (ds.take (ds.length + place).toNat ++ '.' :: ds.drop (ds.length + place).toNat) := by
  have W : WholePart (ds.take (ds.length + place).toNat) := by
    obtain ⟨c, rest, rfl, hc⟩ := R.head
    obtain ⟨n, hn⟩ : ∃ n, ((c :: rest).length + place).toNat = n + 1 :=
      ⟨((c :: rest).length + place).toNat - 1, by omega⟩
    rw [hn, List.take_succ_cons]
    exact wholePart_cons hc fun c' hc' =>
      R.digit c' ((List.take_sublist (n + 1) (c :: rest)).subset hc')
  refine spells_point W (fun c hc => R.digit c ((List.drop_sublist ..).subset hc)) ?_ ?_
  · rw [← List.length_pos_iff, List.length_drop]
    omega
  · rw [List.take_append_drop]
    exact R.small

/-- Digits behind the point, with zeros in front of them. -/
theorem spells_behind (k : Nat) : Spells ('0' :: '.' :: (List.replicate k '0' ++ ds)) := by
  refine spells_point wholePart_zero (fun c hc => ?_) (by simp [R.ne_nil]) ?_
  · rcases List.mem_append.mp hc with hc | hc
    · rw [List.eq_of_mem_replicate hc]
      rfl
    · exact R.digit c hc
  · have zeros : Nat.ofDigitChars 10 (['0'] ++ (List.replicate k '0' ++ ds)) 0 =
        Nat.ofDigitChars 10 ds 0 := by
      rw [Nat.ofDigitChars_append, Nat.ofDigitChars_append, Nat.ofDigitChars_replicate_zero]
      rfl
    rw [zeros]
    exact R.small

omit R in
/-- One digit with an exponent. -/
theorem spells_exponent {c : Char} (R : Readable [c] place) :
    Spells ([c] ++ exponentChars ([c].length + place)) := by
  obtain ⟨_, _, e, hc⟩ := R.head
  cases e
  have W : WholePart [c] := wholePart_cons hc R.digit
  refine ⟨⟨c, _, rfl, R.digit c List.mem_cons_self⟩, List.forall_mem_cons.mpr
    ⟨isWordChar_of_isDigit (R.digit c List.mem_cons_self), isWordChar_exponentChars _⟩,
    fun negative => ?_⟩
  have he := exponentPart?_exponentChars (([c].length : Int) + place)
  have same : (([c].length : Int) + place) - 1 = place := by
    rw [List.length_singleton]
    omega
  rw [same] at he
  obtain ⟨y, hy⟩ := R.read
  exact ⟨_, unsigned?_exponent W he R.small hy⟩

omit R in
/-- A digit, a point, further digits and an exponent. -/
theorem spells_point_exponent {c c' : Char} {rest : List Char}
    (R : Readable (c :: c' :: rest) place) :
    Spells (c :: '.' :: (c' :: rest ++ exponentChars ((c :: c' :: rest).length + place))) := by
  obtain ⟨_, _, e, hc⟩ := R.head
  cases e
  obtain ⟨first, behind⟩ := List.forall_mem_cons.mp R.digit
  have W : WholePart [c] := wholePart_cons hc (List.forall_mem_singleton.mpr first)
  have he := exponentPart?_exponentChars ((c :: c' :: rest).length + place)
  have same : ((c :: c' :: rest).length + place : Int) - 1 - (c' :: rest).length = place := by
    simp only [List.length_cons]
    omega
  refine ⟨⟨c, _, rfl, first⟩, List.forall_mem_cons.mpr ⟨isWordChar_of_isDigit first,
    List.forall_mem_cons.mpr ⟨rfl, fun c'' h => ?_⟩⟩, fun negative => ?_⟩
  · rcases List.mem_append.mp h with h | h
    · exact isWordChar_of_isDigit (behind c'' h)
    · exact isWordChar_exponentChars _ c'' h
  · obtain ⟨y, hy⟩ := R.read
    rw [← same] at hy
    exact ⟨_, unsigned?_point W behind (List.cons_ne_nil c' rest) (noDigit_cons rfl) he R.small hy⟩

/-- However the digits are laid out, they are read again. -/
theorem spells_layout : Spells (layout ds place) := by
  unfold layout
  extract_lets point mantissa
  split
  · rename_i h
    exact R.spells_zeros h.1 h.2
  · split
    · exact R.spells_among (by omega) (by omega)
    · split
      · exact R.spells_behind _
      · obtain ⟨c, rest, rfl, -⟩ := R.head
        cases rest with
        | nil => exact R.spells_exponent
        | cons c' rest => exact R.spells_point_exponent

end Readable

/-! ### The text of a number -/

theorem spells_zero : Spells ['0', '.', '0'] :=
  spells_point wholePart_zero (List.all_eq_true.mp (by decide)) (List.cons_ne_nil _ _) (by decide)

theorem Normal.spells (N : x.Normal) :
    ∃ cs, Spells cs ∧ x.text = if x.negative then '-' :: cs else cs := by
  by_cases zero : x.significand = 0
  · exact ⟨_, spells_zero, by rw [text, if_pos zero]⟩
  · exact ⟨_, (shortest_readable N (Nat.pos_of_ne_zero zero)).spells_layout, by
      rw [text, if_neg zero]⟩

/-- The text of a number in normal form is read as a number. -/
theorem Normal.legible (N : x.Normal) : x.Legible := by
  obtain ⟨cs, S, e⟩ := N.spells
  obtain ⟨y, hy⟩ := S.read x.negative
  constructor
  · rw [e]
    split
    · exact List.forall_mem_cons.mpr ⟨rfl, S.word⟩
    · exact S.word
  · refine ⟨y, ?_⟩
    rw [e]
    split
    · rename_i negative
      rw [negative] at hy
      exact hy
    · rename_i positive
      rw [Bool.not_eq_true] at positive
      rw [positive] at hy
      obtain ⟨c, rest, rfl, hc⟩ := S.head
      exact (atom?_of_digit hc rest).trans hy

end AnnotatedCircuit.Binary64
