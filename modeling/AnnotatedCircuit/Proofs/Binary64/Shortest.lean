import AnnotatedCircuit.Binary64.Shortest
import AnnotatedCircuit.Proofs.Binary64.Decimal
import AnnotatedCircuit.Proofs.Json.Number

/-!
# The digits that identify a number

Seventeen digits always identify a number (`Binary64.exists_withDigits?`), so `Binary64.shortest`
finds some. What they spell lies below the bound of the finite range and can be read again
(`Binary64.shortest_readable`).
-/

namespace AnnotatedCircuit.Binary64

open Json

variable {num den t count : Nat} {place : Int} {x : Binary64}

theorem ten_zpow (e : Int) : (10 : ℚ) ^ e = 10 ^ e.toNat / 10 ^ (-e).toNat := by
  obtain ⟨n, rfl | rfl⟩ := e.eq_nat_or_neg
  · simp
  · simp

/-! ### The leading place -/

theorem le_digits_length (hn : 0 < num) : 10 ^ ((digits num).length - 1) ≤ num ∧
    num < 10 ^ (digits num).length := by
  have hlen : 0 < (digits num).length := Nat.length_toDigits_pos
  refine ⟨?_, (Nat.length_toDigits_le_iff (by decide) hlen).mp le_rfl⟩
  cases h : (digits num).length - 1 with
  | zero => exact hn
  | succ k =>
    by_contra below
    have := (Nat.length_toDigits_le_iff (b := 10) (by decide) (Nat.succ_pos k)).mpr (not_le.mp below)
    rw [digits] at h
    omega

/-- A positive quotient lies between the power of ten at its leading place and the next one. -/
theorem leadingPlace_spec (hd : 0 < den) (small : ∃ j < 400, den ≤ num * 10 ^ (j + 1)) :
    (10 : ℚ) ^ leadingPlace num den ≤ num / den ∧
      (num / den : ℚ) < 10 ^ (leadingPlace num den + 1) := by
  have hd' : (0 : ℚ) < den := by exact_mod_cast hd
  unfold leadingPlace
  split
  · rename_i hle
    obtain ⟨low, high⟩ := le_digits_length (Nat.div_pos hle hd)
    have hlen : 0 < (digits (num / den)).length := Nat.length_toDigits_pos
    generalize (digits (num / den)).length = l at low high hlen
    obtain ⟨k, rfl⟩ := Nat.exists_eq_succ_of_ne_zero hlen.ne'
    have hk : ((k + 1 : Nat) : Int) - 1 = k := by omega
    rw [Nat.succ_eq_add_one, hk, ← Nat.cast_succ, zpow_natCast, zpow_natCast, le_div_iff₀ hd',
      div_lt_iff₀ hd']
    constructor
    · exact_mod_cast (Nat.le_div_iff_mul_le hd).mp low
    · exact_mod_cast (Nat.div_lt_iff_lt_mul hd).mp high
  · rename_i hlt
    have found : ((List.range 400).find? fun j => decide (den ≤ num * Nat.pow 10 (j + 1))).isSome := by
      obtain ⟨j, hj, small⟩ := small
      exact List.find?_isSome.mpr ⟨j, List.mem_range.mpr hj, decide_eq_true small⟩
    obtain ⟨j, hj⟩ := Option.isSome_iff_exists.mp found
    rw [hj]
    obtain ⟨hp, -, below⟩ := List.find?_range_eq_some.mp hj
    have hp : den ≤ num * 10 ^ (j + 1) := of_decide_eq_true hp
    have above : num * 10 ^ j < den := by
      cases j with
      | zero => simpa using hlt
      | succ j =>
        have := below j (Nat.lt_succ_self j)
        simpa using this
    have hj' : (-((j + 1 : Nat) : Int)) + 1 = -(j : Int) := by omega
    dsimp only
    rw [hj', zpow_neg, zpow_neg, zpow_natCast, zpow_natCast, le_div_iff₀ hd', div_lt_iff₀ hd']
    constructor
    · rw [inv_mul_le_iff₀ (by positivity), mul_comm]
      exact_mod_cast hp
    · rw [← div_eq_inv_mul, lt_div_iff₀ (by positivity)]
      exact_mod_cast above

/-! ### The interval of a number -/

theorem holds_iff (i : Interval) (hd : 0 < i.den) (t : Nat) (place : Int) : i.holds t place = true ↔
    if i.closed then (i.low / i.den : ℚ) ≤ t * 10 ^ place ∧ t * 10 ^ place ≤ (i.high / i.den : ℚ)
    else (i.low / i.den : ℚ) < t * 10 ^ place ∧ t * 10 ^ place < (i.high / i.den : ℚ) := by
  have hd' : (0 : ℚ) < i.den := by exact_mod_cast hd
  have hq : (0 : ℚ) < 10 ^ (-place).toNat := by positivity
  unfold Interval.holds
  rw [ten_zpow, ← mul_div_assoc, div_le_div_iff₀ hd' hq, div_le_div_iff₀ hq hd',
    div_lt_div_iff₀ hd' hq, div_lt_div_iff₀ hq hd']
  dsimp only
  cases i.closed
  · simp only [Bool.false_eq_true, if_false, decide_eq_true_eq, ← Nat.cast_ofNat (R := ℚ) (n := 10)]
    norm_cast
  · simp only [if_true, decide_eq_true_eq, ← Nat.cast_ofNat (R := ℚ) (n := 10)]
    norm_cast

theorem interval_den_pos (x : Binary64) : 0 < x.interval.den :=
  scale_snd_pos (by decide) 1 x.exponent

theorem interval_unit (x : Binary64) :
    ((scale 1 4 x.exponent).1 : ℚ) / x.interval.den = 1 / 4 * 2 ^ x.exponent := by
  rw [interval, scale_div]
  norm_num

theorem interval_high (x : Binary64) :
    (x.interval.high : ℚ) / x.interval.den = x.abs + 1 / 2 * 2 ^ x.exponent := by
  have unit := x.interval_unit
  have high : x.interval.high = (4 * x.significand + 2) * (scale 1 4 x.exponent).1 := rfl
  rw [high, Nat.cast_mul, mul_div_assoc, unit, abs]
  push_cast
  ring

/-- The gap below a number is a quarter of its unit at least, and half of it within a range of
numbers with the same exponent. -/
theorem interval_low (pos : 0 < x.significand) : (x.interval.low : ℚ) / x.interval.den ≤
    x.abs - (if x.significand = 2 ^ 52 then 1 / 4 else 1 / 2) * 2 ^ x.exponent := by
  have unit := x.interval_unit
  have low : x.interval.low = (if x.significand = leastFull ∧ minExponent < x.exponent
      then 4 * x.significand - 1 else 4 * x.significand - 2) * (scale 1 4 x.exponent).1 := rfl
  have le_pow : (0 : ℚ) < 2 ^ x.exponent := by positivity
  have below : ((if x.significand = leastFull ∧ minExponent < x.exponent
      then 4 * x.significand - 1 else 4 * x.significand - 2 : Nat) : ℚ) ≤
      4 * x.significand - (if x.significand = 2 ^ 52 then 1 else 2) := by
    split
    · rename_i h
      rw [if_pos (show x.significand = 2 ^ 52 from h.1), Nat.cast_sub (by omega)]
      push_cast
      rfl
    · rw [Nat.cast_sub (by omega)]
      push_cast
      split <;> linarith
  rw [low, Nat.cast_mul, mul_div_assoc, unit, abs]
  refine (mul_le_mul_of_nonneg_right below (by positivity)).trans (le_of_eq ?_)
  split <;> ring

/-! ### The digits of a number -/

/-- The place of the last of a number of digits. -/
def lastPlace (x : Binary64) (count : Nat) : Int :=
  leadingPlace x.toQuotient.1 x.toQuotient.2 - (count - 1 : Nat)

/-- The digits of a number are those before or behind it, if these lie in its interval. -/
theorem withDigits?_cases (x : Binary64) (count : Nat) : ∃ t : Nat,
    (t : ℚ) * 10 ^ x.lastPlace count ≤ x.abs ∧ x.abs < (t + 1) * 10 ^ x.lastPlace count ∧
    ((∃ u, (u = t ∨ u = t + 1) ∧ x.interval.holds u (x.lastPlace count) = true ∧
        x.withDigits? count = some (u, x.lastPlace count)) ∨
      x.interval.holds t (x.lastPlace count) = false ∧
        x.interval.holds (t + 1) (x.lastPlace count) = false ∧ x.withDigits? count = none) := by
  generalize hplace : x.lastPlace count = place
  have hd : 0 < x.toQuotient.2 * 10 ^ place.toNat :=
    Nat.mul_pos x.toQuotient_snd_pos (Nat.pow_pos (by decide))
  have hd' : (0 : ℚ) < (x.toQuotient.2 * 10 ^ place.toNat : Nat) := by exact_mod_cast hd
  have quotient : ((x.toQuotient.1 * 10 ^ (-place).toNat : Nat) : ℚ) /
      (x.toQuotient.2 * 10 ^ place.toNat : Nat) = x.abs / 10 ^ place := by
    rw [ten_zpow, ← toQuotient_div, div_div_div_eq]
    push_cast
    rfl
  have pow_pos : (0 : ℚ) < 10 ^ place := by positivity
  have run : x.withDigits? count =
      let t := x.toQuotient.1 * 10 ^ (-place).toNat / (x.toQuotient.2 * 10 ^ place.toNat)
      if x.interval.holds t place then
        if x.interval.holds (t + 1) place then
          some (nearest (x.toQuotient.1 * 10 ^ (-place).toNat)
            (x.toQuotient.2 * 10 ^ place.toNat), place)
        else some (t, place)
      else if x.interval.holds (t + 1) place then some (t + 1, place) else none := by
    rw [← hplace]
    unfold withDigits? lastPlace
    simp only [Nat.pow_eq]
    split <;> rename_i h₁ h₂ <;> rw [h₁, h₂] <;> rfl
  generalize x.toQuotient.1 * 10 ^ (-place).toNat = n at run quotient
  generalize x.toQuotient.2 * 10 ^ place.toNat = d at run quotient hd hd'
  refine ⟨n / d, ?_, ?_, ?_⟩
  · rw [← le_div_iff₀ pow_pos, ← quotient]
    exact Nat.cast_div_le
  · rw [← div_lt_iff₀ pow_pos, ← quotient, div_lt_iff₀ hd']
    exact_mod_cast Nat.lt_mul_of_div_lt (Nat.lt_succ_self _) hd
  · rw [run]
    dsimp only
    have near : nearest n d = n / d ∨ nearest n d = n / d + 1 := by
      unfold nearest
      dsimp only
      split
      · exact .inr rfl
      · exact .inl rfl
    cases h₁ : x.interval.holds (n / d) place <;> cases h₂ : x.interval.holds (n / d + 1) place
    · exact .inr ⟨rfl, rfl, rfl⟩
    · exact .inl ⟨_, .inr rfl, h₂, rfl⟩
    · exact .inl ⟨_, .inl rfl, h₁, rfl⟩
    · refine .inl ⟨_, near, ?_, rfl⟩
      rcases near with e | e <;> rw [e] <;> assumption

theorem holds_of_lt {t : Nat} {place : Int}
    (low : (x.interval.low / x.interval.den : ℚ) < t * 10 ^ place)
    (high : t * 10 ^ place < (x.interval.high / x.interval.den : ℚ)) :
    x.interval.holds t place = true := by
  rw [holds_iff _ x.interval_den_pos]
  split
  · exact ⟨low.le, high.le⟩
  · exact ⟨low, high⟩

section

variable (N : x.Normal) (pos : 0 < x.significand)
include N pos

theorem leadingPlace_abs (count : Nat) : (10 : ℚ) ^ x.lastPlace count * 10 ^ (count - 1) ≤ x.abs ∧
    x.abs < 10 ^ x.lastPlace count * 10 ^ (count - 1) * 10 := by
  have small : ∃ j < 400, x.toQuotient.2 ≤ x.toQuotient.1 * 10 ^ (j + 1) := by
    refine ⟨399, by decide, ?_⟩
    have low := N.low
    have den : x.toQuotient.2 = 2 ^ (-x.exponent).toNat := Nat.one_mul _
    have num : 1 ≤ x.toQuotient.1 := Nat.mul_pos pos (Nat.pow_pos (by decide))
    calc x.toQuotient.2 = 2 ^ (-x.exponent).toNat := den
      _ ≤ 2 ^ (3 * (399 + 1)) := pow_le_pow_right₀ one_le_two (by omega)
      _ = (2 ^ 3) ^ (399 + 1) := pow_mul ..
      _ ≤ 10 ^ (399 + 1) := pow_le_pow_left₀ (Nat.zero_le _) (by decide) _
      _ ≤ x.toQuotient.1 * 10 ^ (399 + 1) := Nat.le_mul_of_pos_left _ num
  obtain ⟨low, high⟩ := leadingPlace_spec x.toQuotient_snd_pos small
  rw [toQuotient_div] at low high
  have split : (10 : ℚ) ^ x.lastPlace count * 10 ^ (count - 1) =
      10 ^ leadingPlace x.toQuotient.1 x.toQuotient.2 := by
    rw [lastPlace, ← zpow_natCast, ← zpow_add₀ (by norm_num), sub_add_cancel]
  rw [zpow_add_one₀ (by norm_num)] at high
  rw [split]
  exact ⟨low, high⟩

/-- Seventeen digits identify every number. -/
theorem exists_withDigits? : ∃ u, x.withDigits? 17 = some (u, x.lastPlace 17) := by
  obtain ⟨t, before, behind, ⟨u, -, -, h⟩ | ⟨h₁, h₂, -⟩⟩ := x.withDigits?_cases 17
  · exact ⟨u, h⟩
  · exfalso
    have leading := (leadingPlace_abs N pos 17).1
    have low := interval_low pos
    have high := x.interval_high
    have width : (0 : ℚ) < 2 ^ x.exponent := by positivity
    have place : (0 : ℚ) < 10 ^ x.lastPlace 17 := by positivity
    -- Decimals are closer to each other than the gaps around the number are wide.
    have close : (10 : ℚ) ^ x.lastPlace 17 / 2 <
        (if x.significand = 2 ^ 52 then 1 / 4 else 1 / 2) * 2 ^ x.exponent := by
      rw [abs] at leading
      split
      · rename_i h
        rw [h] at leading
        norm_num at leading
        linarith
      · have bits : (x.significand : ℚ) < 2 ^ 53 := by exact_mod_cast N.significand
        have : (x.significand : ℚ) * 2 ^ x.exponent < 2 ^ 53 * 2 ^ x.exponent := by gcongr
        norm_num at leading this
        linarith
    have narrow : (if x.significand = 2 ^ 52 then 1 / 4 else 1 / 2 : ℚ) * 2 ^ x.exponent ≤
        1 / 2 * 2 ^ x.exponent := by
      gcongr
      split <;> norm_num
    generalize (if x.significand = 2 ^ 52 then 1 / 4 else 1 / 2 : ℚ) * 2 ^ x.exponent = gap at *
    rcases le_total (x.abs - t * 10 ^ x.lastPlace 17) (10 ^ x.lastPlace 17 / 2) with near | near
    · have : x.interval.holds t (x.lastPlace 17) = true :=
        holds_of_lt (by linarith) (by linarith)
      rw [h₁] at this
      cases this
    · have : x.interval.holds (t + 1) (x.lastPlace 17) = true :=
        holds_of_lt (by push_cast; linarith) (by push_cast; linarith)
      rw [h₂] at this
      cases this

end

section

variable (N : x.Normal)
include N

/-- What identifies a number lies below the bound of the finite range. -/
theorem lt_bound_of_holds {t : Nat} {place : Int} (h : x.interval.holds t place = true) :
    (t : ℚ) * 10 ^ place < bound := by
  have pow_pos : (0 : ℚ) < 2 ^ x.exponent := by positivity
  have pow_le : (2 : ℚ) ^ x.exponent ≤ 2 * 2 ^ (970 : Int) := by
    rw [← zpow_one_add₀ two_ne_zero]
    exact zpow_le_zpow_right₀ one_le_two N.high
  have bits := N.significand
  have closed : x.interval.closed = (x.significand % 2 == 0) := rfl
  have inside := (holds_iff _ x.interval_den_pos t place).mp h
  rw [x.interval_high, abs] at inside
  rw [bound_cast]
  generalize (2 : ℚ) ^ (970 : Int) = u at pow_le
  generalize (2 : ℚ) ^ x.exponent = v at pow_le pow_pos inside
  -- The greatest significand is odd, so the upper end of its interval is not in it.
  by_cases even : x.significand % 2 = 0
  · rw [closed, even, if_pos (beq_self_eq_true 0)] at inside
    have bits : (x.significand : ℚ) ≤ 0x1ffffffffffffe := by exact_mod_cast (by omega)
    nlinarith [inside.2]
  · rw [closed, beq_eq_false_iff_ne.mpr even, if_neg Bool.false_ne_true] at inside
    have bits : (x.significand : ℚ) ≤ 0x1fffffffffffff := by exact_mod_cast (by omega)
    nlinarith [inside.2]

/-- The decimal that is rounded beyond the finite range is not chosen for the greatest number. -/
theorem withDigits?_ne_exceptional (h : ((exceptional - 1 : Nat) : ℚ) * 10 ^ (292 : Int) ≤ x.abs) :
    x.withDigits? 17 ≠ some (exceptional, 292) := by
  have pow_pos : (0 : ℚ) < 2 ^ x.exponent := by positivity
  have far : (0x1ffffffffffffe : ℚ) * 2 ^ (971 : Int) < x.significand * 2 ^ x.exponent := by
    have far : 0x1ffffffffffffe * 2 ^ 971 < (exceptional - 1) * 10 ^ 292 := by decide +kernel
    have far := (Nat.cast_lt (α := ℚ)).mpr far
    rw [Nat.cast_mul, Nat.cast_mul, Nat.cast_pow, Nat.cast_pow] at far
    exact lt_of_lt_of_le far h
  have significand : x.significand = 0x1fffffffffffff := by
    have pow_le : (2 : ℚ) ^ x.exponent ≤ 2 ^ (971 : Int) := zpow_le_zpow_right₀ one_le_two N.high
    have : 0x1ffffffffffffe < x.significand := by
      by_contra small
      have : (x.significand : ℚ) ≤ 0x1ffffffffffffe := by exact_mod_cast not_lt.mp small
      generalize (2 : ℚ) ^ (971 : Int) = w at far pow_le
      nlinarith
    have := N.significand
    omega
  have exponent : x.exponent = 971 := by
    by_contra other
    have := N.high
    have pow_le : (2 : ℚ) ^ x.exponent ≤ 2 ^ (970 : Int) :=
      zpow_le_zpow_right₀ one_le_two (by omega)
    have double : (2 : ℚ) ^ (971 : Int) = 2 * 2 ^ (970 : Int) := by
      rw [← zpow_one_add₀ two_ne_zero]
      rfl
    rw [significand, double] at far
    generalize (2 : ℚ) ^ (970 : Int) = u at far pow_le
    push_cast at far
    nlinarith
  have all : ∀ negative,
      withDigits? ⟨negative, 0x1fffffffffffff, 971⟩ 17 ≠ some (exceptional, 292) := by
    decide +kernel
  obtain ⟨negative, m, e⟩ := x
  cases significand
  cases exponent
  exact all negative

end

/-! ### Zeros at the end -/

/-- The digits that are dropped are zeros. -/
theorem dropZeros_spec (ds : List Char) (place : Int) : ∃ kept k,
    ds = kept ++ List.replicate k '0' ∧ dropZeros ds place = (kept, place + (k : Nat)) := by
  have zeros : ∀ c ∈ ds.reverse.takeWhile (· == '0'), c = '0' := fun c hc =>
    eq_of_beq (List.all_eq_true.mp List.all_takeWhile c hc)
  have split : ds.reverse = List.replicate (ds.reverse.takeWhile (· == '0')).length '0' ++
      ds.reverse.dropWhile (· == '0') := by
    rw [← List.eq_replicate_iff.mpr ⟨rfl, zeros⟩, List.takeWhile_append_dropWhile]
  have split : ds = (ds.reverse.dropWhile (· == '0')).reverse ++
      List.replicate (ds.reverse.takeWhile (· == '0')).length '0' := by
    rw [← List.reverse_replicate, ← List.reverse_append, ← split, List.reverse_reverse]
  refine ⟨_, _, split, ?_⟩
  have lengths := congrArg List.length split
  rw [List.length_append, List.length_replicate] at lengths
  have dropped : ds.length - (ds.reverse.dropWhile (· == '0')).reverse.length =
      (ds.reverse.takeWhile (· == '0')).length := by omega
  rw [dropZeros, dropped]

/-! ### The digits found -/

/-- Digits that are read when the last one stands at a place. -/
structure Readable (ds : List Char) (place : Int) : Prop where
  digit : ∀ c ∈ ds, c.isDigit = true
  head : ∃ c rest, ds = c :: rest ∧ c ≠ '0'
  few : Nat.ofDigitChars 10 ds 0 ≤ 10 ^ 17
  below : ∀ n : Nat, place = n → Nat.ofDigitChars 10 ds 0 * 10 ^ n < bound
  other : place = 292 → Nat.ofDigitChars 10 ds 0 ≠ exceptional

theorem Readable.pos {ds : List Char} (R : Readable ds place) : 0 < Nat.ofDigitChars 10 ds 0 := by
  obtain ⟨c, rest, rfl, hc⟩ := R.head
  have digit := Char.isDigit_iff_toNat.mp (R.digit c List.mem_cons_self)
  have other : c.toNat ≠ '0'.toNat := fun e => hc (Char.toNat_inj.mp e)
  rw [Nat.ofDigitChars_cons]
  refine lt_of_lt_of_le ?_ (le_ofDigitChars rest _)
  have : '0'.toNat = 48 := rfl
  omega

theorem Readable.read {ds : List Char} (R : Readable ds place) :
    ∃ y, ofDecimal? (Nat.ofDigitChars 10 ds 0) place = some y := by
  obtain ⟨n, rfl | rfl⟩ := place.eq_nat_or_neg
  · exact ofDecimal?_of_lt R.pos R.few (R.below n rfl) fun e => R.other (by rw [e]; rfl)
  · rcases Nat.eq_zero_or_pos n with rfl | hn
    · exact ofDecimal?_of_lt R.pos R.few (R.below 0 rfl) fun e => nomatch e
    · have few := R.few
      exact ofDecimal?_of_places (by omega) (by omega)

/-- Without zeros at their end the digits of a number can be read. -/
theorem readable_dropZeros {u : Nat} (pos : 0 < u) (few : u ≤ 10 ^ 17)
    (below : (u : ℚ) * 10 ^ place < bound) (other : u = exceptional → place ≠ 292) :
    Readable (dropZeros (digits u) place).1 (dropZeros (digits u) place).2 := by
  obtain ⟨kept, k, split, dropped⟩ := dropZeros_spec (digits u) place
  have W := wholePart_toDigits u
  rw [digits] at split
  have value : Nat.ofDigitChars 10 kept 0 * 10 ^ k = u := by
    rw [← ofDigitChars_toDigits u, split, Nat.ofDigitChars_append, Nat.ofDigitChars_replicate_zero,
      Nat.mul_comm]
  rw [dropped]
  refine ⟨fun c hc => W.digit c (split ▸ List.mem_append_left _ hc), ?_, ?_, fun n hn => ?_,
    fun hplace e => ?_⟩
  · cases kept with
    | nil =>
      rw [Nat.ofDigitChars_nil, Nat.zero_mul] at value
      omega
    | cons c rest =>
      refine ⟨c, rest, rfl, ?_⟩
      rintro rfl
      cases tail : rest ++ List.replicate k '0' with
      | nil =>
        obtain ⟨rfl, -⟩ := List.append_eq_nil_iff.mp tail
        have zero : Nat.ofDigitChars 10 ['0'] 0 = 0 := rfl
        rw [zero, Nat.zero_mul] at value
        omega
      | cons c' rest' => exact W.head c' rest' (by rw [split, List.cons_append, tail])
  · exact le_trans (Nat.le_mul_of_pos_right _ (Nat.pow_pos (by decide))) (value ▸ few)
  · have same : (Nat.ofDigitChars 10 kept 0 * 10 ^ n : ℚ) = u * 10 ^ place := by
      rw [← value, ← zpow_natCast, ← hn, add_comm place, zpow_add₀ (by norm_num), zpow_natCast]
      push_cast
      ring
    rw [← same] at below
    exact_mod_cast below
  · rw [e, exceptional] at value
    cases k with
    | zero =>
      refine other ?_ (by simpa using hplace)
      rw [← value, exceptional, Nat.pow_zero, Nat.mul_one]
    | succ k =>
      have := Nat.one_le_pow k 10 (by decide)
      rw [Nat.pow_succ] at value
      omega

section

variable (N : x.Normal) (pos : 0 < x.significand)
include N pos

/-- Digits that identify a number can be read. -/
theorem readable_withDigits? {u : Nat} (hcount : count ≤ 17) (hpos : 0 < count)
    (h : x.withDigits? count = some (u, place)) :
    Readable (dropZeros (digits u) place).1 (dropZeros (digits u) place).2 := by
  obtain ⟨t, before, behind, ⟨u', hu', holds, h'⟩ | ⟨-, -, h'⟩⟩ := x.withDigits?_cases count
  case inr => cases h.symm.trans h'
  cases h.symm.trans h'
  obtain ⟨low, high⟩ := leadingPlace_abs N pos count
  have unit : (0 : ℚ) < 10 ^ x.lastPlace count := by positivity
  have least : 10 ^ (count - 1) < t + 1 := by
    have := lt_of_le_of_lt low behind
    rw [mul_comm] at this
    exact_mod_cast lt_of_mul_lt_mul_right this unit.le
  have greatest : t < 10 ^ (count - 1) * 10 := by
    have := lt_of_le_of_lt before high
    rw [mul_comm, mul_assoc] at this
    exact_mod_cast lt_of_mul_lt_mul_left this unit.le
  have power : 10 ^ (count - 1) * 10 ≤ 10 ^ 17 := by
    rw [← Nat.pow_succ]
    exact Nat.pow_le_pow_right (by decide) (by omega)
  have one : 1 ≤ 10 ^ (count - 1) := Nat.one_le_pow _ 10 (by decide)
  refine readable_dropZeros (by omega) (by omega) (lt_bound_of_holds N holds) ?_
  rintro rfl hplace
  have near : ((exceptional - 1 : Nat) : ℚ) ≤ t := by
    have : exceptional - 1 ≤ t := by omega
    exact_mod_cast this
  have all : count = 17 := by
    by_contra fewer
    have : 10 ^ (count - 1) * 10 ≤ 10 ^ 16 := by
      rw [← Nat.pow_succ]
      exact Nat.pow_le_pow_right (by decide) (by omega)
    rw [exceptional] at hu'
    omega
  subst all
  rw [hplace] at before h
  exact withDigits?_ne_exceptional N (le_trans (by gcongr) before) h

/-- The digits of a positive number can be read. -/
theorem shortest_readable : Readable x.shortest.1 x.shortest.2 := by
  have found : ((List.range 17).findSome? fun k => x.withDigits? (k + 1)).isSome := by
    obtain ⟨u, hu⟩ := exists_withDigits? N pos
    exact List.findSome?_isSome_iff.mpr ⟨16, by decide, by rw [hu]; rfl⟩
  obtain ⟨⟨u, place⟩, hu⟩ := Option.isSome_iff_exists.mp found
  rw [shortest, hu]
  obtain ⟨k, hk, hu⟩ := List.exists_of_findSome?_eq_some hu
  exact readable_withDigits? N pos (List.mem_range.mp hk) (Nat.succ_pos k) hu

end

end AnnotatedCircuit.Binary64
