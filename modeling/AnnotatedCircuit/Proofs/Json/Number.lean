import AnnotatedCircuit.Json.Token
import Mathlib.Tactic

/-!
# Reading numbers back

`Decimal.whole` and `Decimal.places` collect digits exactly as long as the number they spell stays
below `significandLimit`. An integer of 64 bits is read back from its digits (`atom?_int`).
-/

namespace AnnotatedCircuit.Json

/-- The digits before the point of a number: there is no needless zero in front. -/
structure WholePart (ds : List Char) : Prop where
  digit : ∀ c ∈ ds, c.isDigit = true
  ne_nil : ds ≠ []
  head : ∀ c rest, ds = '0' :: c :: rest → False

/-- What follows the digits does not begin with a digit. -/
def NoDigit (cs : List Char) : Prop := ∀ c rest, cs = c :: rest → c.isDigit = false

variable {ds rest : List Char} {n : Nat}

theorem noDigit_nil : NoDigit [] := fun _ _ h => nomatch h

theorem noDigit_cons {c : Char} (h : c.isDigit = false) : NoDigit (c :: rest) := by
  intro c' rest' e
  cases e
  exact h

/-! ### Digits as a number -/

theorem le_ofDigitChars (ds : List Char) (n : Nat) : n ≤ Nat.ofDigitChars 10 ds n := by
  induction ds generalizing n with
  | nil => exact Nat.le_refl n
  | cons c ds ih =>
    rw [Nat.ofDigitChars_cons]
    exact Nat.le_trans (by omega) (ih _)

theorem natOfDigits_eq (ds : List Char) : natOfDigits ds = Nat.ofDigitChars 10 ds 0 := by
  simp only [natOfDigits, Nat.ofDigitChars_eq_foldl, Nat.mul_comm 10]

theorem Decimal.push?_eq {d : Decimal} {c : Char}
    (h : Nat.ofDigitChars 10 (c :: ds) d.significand < significandLimit) :
    d.push? c = some { d with significand := Nat.ofDigitChars 10 [c] d.significand } := by
  rw [Nat.ofDigitChars_cons] at h
  have := Nat.lt_of_le_of_lt (le_ofDigitChars ..) h
  simp only [push?, Nat.ofDigitChars_cons, Nat.ofDigitChars_nil, Nat.mul_comm _ 10, this, if_true]

theorem Decimal.whole_eq (h : Nat.ofDigitChars 10 ds 0 < significandLimit) :
    whole ds = (⟨Nat.ofDigitChars 10 ds 0, 0⟩, true) := by
  obtain ⟨step, run, pushed⟩ : ∃ step : Decimal × Bool → Char → Decimal × Bool,
      whole ds = ds.foldl step (⟨0, 0⟩, true) ∧
      ∀ {d c e}, push? d c = some e → step (d, true) c = (e, true) :=
    ⟨_, rfl, fun h => by simp only [h]⟩
  rw [run]
  clear run
  generalize (0 : Nat) = n at h ⊢
  induction ds generalizing n with
  | nil => rfl
  | cons c ds ih =>
    rw [List.foldl_cons, pushed (push?_eq (d := ⟨n, 0⟩) h)]
    exact ih _ (by simpa [Nat.ofDigitChars_cons] using h)

section

-- Unfolding the test against the limit would count up to it.
attribute [local irreducible] Decimal.push?

theorem Decimal.places_cons (d : Decimal) (c : Char) (cs : List Char) : d.places (c :: cs) =
    match d.push? c with
    | some e => places { e with exponent := e.exponent - 1 } cs
    | none => d :=
  rfl

theorem Decimal.places_eq (ds : List Char) (n : Nat) (e : Int)
    (h : Nat.ofDigitChars 10 ds n < significandLimit) :
    places ⟨n, e⟩ ds = ⟨Nat.ofDigitChars 10 ds n, e - ds.length⟩ := by
  revert n e
  induction ds with
  | nil => exact fun n e _ => congrArg (Decimal.mk n) (Int.sub_zero e).symm
  | cons c ds ih =>
    intro n e h
    rw [places_cons, push?_eq h]
    refine (ih _ _ (by simpa [Nat.ofDigitChars_cons] using h)).trans ?_
    simp only [Nat.ofDigitChars_cons, Nat.ofDigitChars_nil, List.length_cons, mk.injEq, true_and]
    omega

end

theorem ofDigitChars_toDigits (n : Nat) : Nat.ofDigitChars 10 (Nat.toDigits 10 n) 0 = n :=
  Nat.ofDigitChars_toDigits (by decide) (by decide)

theorem wholePart_toDigits (n : Nat) : WholePart (Nat.toDigits 10 n) where
  digit _ := Nat.isDigit_of_mem_toDigits (by decide) (by decide)
  ne_nil := Nat.toDigits_ne_nil
  head := by
    induction n using Nat.strongRecOn with
    | ind n ih =>
      intro c rest e
      by_cases small : n < 10
      · rw [Nat.toDigits_of_lt_base small] at e
        exact absurd (congrArg List.length e) (by simp)
      · rw [Nat.toDigits_of_base_le (by decide) (by omega)] at e
        cases hds : Nat.toDigits 10 (n / 10) with
        | nil => exact Nat.toDigits_ne_nil hds
        | cons z ds =>
          rw [hds] at e
          obtain ⟨hz, e⟩ := List.cons.inj e
          cases ds with
          | nil =>
            have value : n / 10 = Nat.ofDigitChars 10 [z] 0 := by
              rw [← hds, ofDigitChars_toDigits]
            rw [hz] at value
            have : n / 10 = 0 := value
            omega
          | cons z' ds => exact ih (n / 10) (by omega) z' ds (by rw [hds, hz])

/-! ### The parts of a number -/

theorem takeWhile_isDigit (hds : ∀ c ∈ ds, c.isDigit = true) (hrest : NoDigit rest) :
    (ds ++ rest).takeWhile Char.isDigit = ds := by
  rw [List.takeWhile_append_of_pos hds]
  cases rest with
  | nil => simp
  | cons c rest => simp [hrest c rest rfl]

theorem dropWhile_isDigit (hds : ∀ c ∈ ds, c.isDigit = true) (hrest : NoDigit rest) :
    (ds ++ rest).dropWhile Char.isDigit = rest := by
  rw [List.dropWhile_append_of_pos hds]
  cases rest with
  | nil => simp
  | cons c rest => simp [hrest c rest rfl]

section

variable (W : WholePart ds)
include W

theorem WholePart.isWholePart : isWholePart ds = true := by
  unfold Json.isWholePart
  split
  · exact absurd rfl W.ne_nil
  · exact (W.head _ _ rfl).elim
  · rfl

theorem unsigned?_whole (h : Nat.ofDigitChars 10 ds 0 < significandLimit) :
    unsigned? false ds = some (.value (.int (Nat.ofDigitChars 10 ds 0))) := by
  have digits := takeWhile_isDigit W.digit noDigit_nil
  have rest := dropWhile_isDigit W.digit noDigit_nil
  rw [List.append_nil] at digits rest
  simp [unsigned?, digits, rest, W.isWholePart, Decimal.whole_eq h]

theorem unsigned?_negative (hpos : 0 < Nat.ofDigitChars 10 ds 0)
    (h : 2 * Nat.ofDigitChars 10 ds 0 ≤ significandLimit) :
    unsigned? true ds = some (.value (.int (-(Nat.ofDigitChars 10 ds 0 : Nat)))) := by
  have digits := takeWhile_isDigit W.digit noDigit_nil
  have rest := dropWhile_isDigit W.digit noDigit_nil
  rw [List.append_nil] at digits rest
  have limit : Nat.ofDigitChars 10 ds 0 < significandLimit := by omega
  simp [unsigned?, digits, rest, W.isWholePart, Decimal.whole_eq limit, hpos, h]

variable {x : Binary64} {e : Int} {fs tail : List Char} {negative : Bool}

omit W in
theorem real?_eq {d : Decimal} (he : exponentPart? tail = some e)
    (hx : Binary64.ofDecimal? d.significand (d.exponent + e) = some x) :
    real? negative d tail = some (.value (.double { x with negative })) := by
  rw [real?, he, Option.map_some, hx]

theorem unsigned?_exponent (he : exponentPart? ('e' :: tail) = some e)
    (h : Nat.ofDigitChars 10 ds 0 < significandLimit)
    (hx : Binary64.ofDecimal? (Nat.ofDigitChars 10 ds 0) e = some x) :
    unsigned? negative (ds ++ 'e' :: tail) = some (.value (.double { x with negative })) := by
  have next : NoDigit ('e' :: tail) := noDigit_cons rfl
  simp only [unsigned?, takeWhile_isDigit W.digit next, dropWhile_isDigit W.digit next,
    W.isWholePart, Decimal.whole_eq h]
  exact real?_eq he (by rwa [Int.zero_add])

theorem unsigned?_point (hfs : ∀ c ∈ fs, c.isDigit = true) (ne : fs ≠ []) (ht : NoDigit tail)
    (he : exponentPart? tail = some e) (h : Nat.ofDigitChars 10 (ds ++ fs) 0 < significandLimit)
    (hx : Binary64.ofDecimal? (Nat.ofDigitChars 10 (ds ++ fs) 0) (e - fs.length) = some x) :
    unsigned? negative (ds ++ '.' :: (fs ++ tail)) = some (.value (.double { x with negative })) := by
  have next : NoDigit ('.' :: (fs ++ tail)) := noDigit_cons rfl
  rw [Nat.ofDigitChars_append] at h hx
  have whole := Decimal.whole_eq (Nat.lt_of_le_of_lt (le_ofDigitChars fs _) h)
  have shifted : (0 : Int) - fs.length + e = e - fs.length := by omega
  simp only [unsigned?, takeWhile_isDigit W.digit next, dropWhile_isDigit W.digit next,
    W.isWholePart, whole, takeWhile_isDigit hfs ht, dropWhile_isDigit hfs ht,
    Decimal.places_eq fs _ _ h, List.isEmpty_iff, ne]
  exact real?_eq he (by rwa [shifted])

end

/-! ### Integers -/

theorem isWordChar_of_isDigit {c : Char} (h : c.isDigit = true) : isWordChar c = true := by
  simp [isWordChar, Char.isAlphanum, h]

theorem isWordChar_toString (n : Int) : ∀ c ∈ (toString n).toList, isWordChar c = true := by
  intro c hc
  rw [Int.toString_eq_repr, Int.repr_eq_if] at hc
  split at hc
  · rw [Nat.toList_repr] at hc
    exact isWordChar_of_isDigit ((wholePart_toDigits _).digit c hc)
  · rw [String.toList_append, Nat.toList_repr] at hc
    rcases List.mem_append.mp hc with hc | hc
    · cases List.mem_singleton.mp hc
      rfl
    · exact isWordChar_of_isDigit ((wholePart_toDigits _).digit c hc)

/-- What begins with a digit is read as a number. -/
theorem atom?_of_digit {c : Char} (hc : c.isDigit = true) (rest : List Char) :
    atom? (c :: rest) = unsigned? false (c :: rest) := by
  unfold atom?
  split
  case h_5 => rfl
  all_goals
    rename_i e
    obtain ⟨rfl, -⟩ := List.cons.inj e
    cases hc

theorem WholePart.atom?_eq (W : WholePart ds) : atom? ds = unsigned? false ds := by
  obtain ⟨c, rest, rfl⟩ := List.exists_cons_of_ne_nil W.ne_nil
  exact atom?_of_digit (W.digit c List.mem_cons_self) rest

/-- An integer of 64 bits is read back from its digits. -/
theorem atom?_int {n : Int} (low : -0x8000000000000000 ≤ n) (high : n < 0x10000000000000000) :
    atom? (toString n).toList = some (.value (.int n)) := by
  rw [Int.toString_eq_repr, Int.repr_eq_if]
  split
  · next h =>
    rw [Nat.toList_repr, (wholePart_toDigits _).atom?_eq,
      unsigned?_whole (wholePart_toDigits _)] <;> rw [ofDigitChars_toDigits]
    · rw [Int.toNat_of_nonneg h]
    · rw [significandLimit]
      omega
  · next h =>
    rw [String.toList_append, Nat.toList_repr]
    refine (unsigned?_negative (wholePart_toDigits _) ?_ ?_).trans ?_ <;> rw [ofDigitChars_toDigits]
    · omega
    · rw [significandLimit]
      omega
    · rw [Int.toNat_of_nonneg (by omega), Int.neg_neg]

end AnnotatedCircuit.Json
