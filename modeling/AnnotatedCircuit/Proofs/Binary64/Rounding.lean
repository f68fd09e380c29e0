import Mathlib.Algebra.Order.Field.Power
import Mathlib.Tactic
import AnnotatedCircuit.Binary64.Basic

/-!
# Rounding quotients

A quotient is rounded at the exponent at which it has 53 bits (`Binary64.exponentOf_spec`), with an
error of half a unit at most. So a quotient is rounded to a number if it lies below the middle
between the greatest finite number and the next power of two (`Binary64.Rounded.finite`).
-/

namespace AnnotatedCircuit.Binary64

variable {num den k : Nat} {e : Int} {v : ℚ} {negative : Bool} {x y : Binary64}

/-- The absolute value. -/
def abs (x : Binary64) : ℚ := x.significand * 2 ^ x.exponent

/-- The form of all numbers that are produced. -/
structure Normal (x : Binary64) : Prop where
  significand : x.significand < 2 ^ 53
  low : -1074 ≤ x.exponent
  high : x.exponent ≤ 971
  full : 2 ^ 52 ≤ x.significand ∨ x.exponent = -1074

/-- What a quotient is rounded to, before the exponent is compared with the greatest one. `near` holds
of the exponent at which it was rounded. -/
structure Rounded (v : ℚ) (x : Binary64) : Prop where
  significand : x.significand < 2 ^ 53
  low : -1074 ≤ x.exponent
  full : 2 ^ 52 ≤ x.significand ∨ x.exponent = -1074
  near : ∃ e : Int, -1074 ≤ e ∧ ((2 : ℚ) ^ (e + 52) ≤ v ∨ e = -1074) ∧ x.abs ≤ 2 ^ (e + 53) ∧
    x.abs ≤ v + 2 ^ (e - 1)

/-- From here on numbers are rounded beyond the greatest finite one. -/
def bound : Nat := 0x3fffffffffffff * 2 ^ 970

theorem bound_cast : (bound : ℚ) = 0x3fffffffffffff * 2 ^ (970 : Int) := by
  rw [bound, Nat.cast_mul, Nat.cast_pow]
  rfl

theorem bound_eq : (bound : ℚ) + 2 ^ (970 : Int) = 2 ^ (1024 : Int) := by
  have split : (2 : ℚ) ^ (1024 : Int) = 2 ^ (54 : Int) * 2 ^ (970 : Int) := by
    rw [← zpow_add₀ two_ne_zero]
    rfl
  rw [split, bound_cast]
  generalize (2 : ℚ) ^ (970 : Int) = u
  norm_num
  ring

theorem pow_le_bound : (2 : ℚ) ^ (1023 : Int) ≤ bound := by
  have hb := bound_eq
  have h1024 : (2 : ℚ) ^ (1024 : Int) = 2 * 2 ^ (1023 : Int) := by
    rw [← zpow_one_add₀ two_ne_zero]
    rfl
  have h970 : (2 : ℚ) ^ (970 : Int) ≤ 2 ^ (1023 : Int) :=
    zpow_le_zpow_right₀ one_le_two (by decide)
  rw [h1024] at hb
  generalize (2 : ℚ) ^ (1023 : Int) = u at *
  generalize (2 : ℚ) ^ (970 : Int) = w at *
  linarith

theorem scale_div (num den : Nat) (e : Int) :
    ((scale num den e).1 : ℚ) / (scale num den e).2 = num / den * 2 ^ e := by
  obtain ⟨n, rfl | rfl⟩ := e.eq_nat_or_neg
  · simp [scale, mul_div_right_comm]
  · have hs : scale num den (-n) = (num, den * 2 ^ n) := by simp [scale]
    rw [hs, zpow_neg, zpow_natCast]
    push_cast
    rw [div_mul_eq_div_div, div_eq_mul_inv (_ / _)]

theorem scale_snd_pos (hd : 0 < den) (num : Nat) (e : Int) : 0 < (scale num den e).2 :=
  Nat.mul_pos hd (Nat.pow_pos (by decide))

/-- The nearest integer is at most half away. -/
theorem nearest_spec (num : Nat) (hd : 0 < den) :
    (nearest num den : ℚ) ≤ num / den + 1 / 2 ∧ (num / den : ℚ) ≤ nearest num den + 1 / 2 := by
  have split : num = den * (num / den) + num % den := (Nat.div_add_mod ..).symm
  have hmod := Nat.mod_lt num hd
  have both : 2 * (den * nearest num den) ≤ 2 * num + den ∧
      2 * num ≤ 2 * (den * nearest num den) + den := by
    unfold nearest
    dsimp only
    split
    · rw [Nat.mul_add]
      omega
    · omega
  have hd' : (0 : ℚ) < den := by exact_mod_cast hd
  have h₁ : 2 * ((den : ℚ) * nearest num den) ≤ 2 * num + den := by exact_mod_cast both.1
  have h₂ : 2 * (num : ℚ) ≤ 2 * (den * nearest num den) + den := by exact_mod_cast both.2
  have hq : (num / den : ℚ) * den = num := div_mul_cancel₀ _ hd'.ne'
  constructor <;> nlinarith

/-- A quotient between powers of two. -/
theorem log2_spec (hn : 0 < num) (hd : 0 < den) :
    (2 : ℚ) ^ ((num.log2 : Int) - den.log2 - 1) < num / den ∧
      (num / den : ℚ) < 2 ^ ((num.log2 : Int) - den.log2 + 1) := by
  have n₁ : (2 : ℚ) ^ num.log2 ≤ num := by exact_mod_cast Nat.log2_self_le hn.ne'
  have n₂ : (num : ℚ) < 2 ^ (num.log2 + 1) := by exact_mod_cast Nat.lt_log2_self
  have d₁ : (2 : ℚ) ^ den.log2 ≤ den := by exact_mod_cast Nat.log2_self_le hd.ne'
  have d₂ : (den : ℚ) < 2 ^ (den.log2 + 1) := by exact_mod_cast Nat.lt_log2_self
  have hd' : (0 : ℚ) < den := by exact_mod_cast hd
  have two : (2 : ℚ) ≠ 0 := two_ne_zero
  constructor
  · rw [lt_div_iff₀ hd']
    calc (2 : ℚ) ^ ((num.log2 : Int) - den.log2 - 1) * den
        < 2 ^ ((num.log2 : Int) - den.log2 - 1) * 2 ^ (den.log2 + 1) := by gcongr
      _ = 2 ^ num.log2 := by
        rw [← zpow_natCast, ← zpow_natCast, ← zpow_add₀ two]
        congr 1
        push_cast
        ring
      _ ≤ num := n₁
  · rw [div_lt_iff₀ hd']
    calc (num : ℚ) < 2 ^ (num.log2 + 1) := n₂
      _ = 2 ^ ((num.log2 : Int) - den.log2 + 1) * 2 ^ den.log2 := by
        rw [← zpow_natCast, ← zpow_natCast, ← zpow_add₀ two]
        congr 1
        push_cast
        ring
      _ ≤ _ := by gcongr

/-- The exponent at which a quotient has 53 bits, unless that is below the least one. -/
theorem exponentOf_spec (hn : 0 < num) (hd : 0 < den) : -1074 ≤ exponentOf num den ∧
    (num / den : ℚ) < 2 ^ (exponentOf num den + 53) ∧
    ((2 : ℚ) ^ (exponentOf num den + 52) ≤ num / den ∨ exponentOf num den = -1074) := by
  obtain ⟨low, high⟩ := log2_spec hn hd
  generalize hl : (num.log2 : Int) - den.log2 = l at low high
  have hscaled := scale_div num den (-(l - 52))
  have hpos : 0 < (scale num den (-(l - 52))).2 := scale_snd_pos hd ..
  have floor : (scale num den (-(l - 52))).1 / (scale num den (-(l - 52))).2 < leastFull ↔
      (num / den : ℚ) < 2 ^ l := by
    have hpos' : (0 : ℚ) < (scale num den (-(l - 52))).2 := by exact_mod_cast hpos
    have hpow : (2 : ℚ) ^ l = 2 ^ 52 * 2 ^ (l - 52) := by
      rw [← zpow_natCast, ← zpow_add₀ two_ne_zero]
      congr 1
      push_cast
      ring
    rw [Nat.div_lt_iff_lt_mul hpos, ← Nat.cast_lt (α := ℚ), Nat.cast_mul, ← div_lt_iff₀ hpos',
      hscaled, zpow_neg, hpow, ← div_eq_mul_inv, div_lt_iff₀ (zpow_pos two_pos _)]
    norm_num [leastFull]
  have known : exponentOf num den =
      max (if (num / den : ℚ) < 2 ^ l then l - 52 - 1 else l - 52) (-1074) := by
    rw [← if_congr floor rfl rfl, ← hl]
    rfl
  rw [known]
  have grow : ∀ {i j : Int}, i ≤ j → (2 : ℚ) ^ i ≤ 2 ^ j := zpow_le_zpow_right₀ one_le_two
  refine ⟨le_max_right .., ?_, ?_⟩ <;> split
  · refine lt_of_lt_of_le ‹_› (grow ?_)
    omega
  · refine lt_of_lt_of_le high (grow ?_)
    omega
  · rcases max_cases (l - 52 - 1) (-1074) with ⟨e, -⟩ | ⟨e, -⟩ <;> rw [e]
    · refine .inl (le_trans (grow ?_) low.le)
      omega
    · exact .inr rfl
  · rcases max_cases (l - 52) (-1074) with ⟨e, -⟩ | ⟨e, -⟩ <;> rw [e]
    · refine .inl (le_trans (grow ?_) (not_lt.mp ‹_›))
      omega
    · exact .inr rfl

/-- A quotient is rounded, and then its exponent is compared with the greatest one. -/
theorem ofQuotient?_rounded (hn : 0 < num) (hd : 0 < den) (negative : Bool) :
    ∃ x : Binary64, x.negative = negative ∧ Rounded (num / den) x ∧
      ofQuotient? negative num den = if 971 < x.exponent then none else some x := by
  obtain ⟨low, high, full⟩ := exponentOf_spec hn hd
  generalize he : exponentOf num den = e at low high full
  have hpos : (0 : ℚ) < 2 ^ e := zpow_pos two_pos e
  have hscaled : ((scale num den (-e)).1 : ℚ) / (scale num den (-e)).2 * 2 ^ e = num / den := by
    rw [scale_div, mul_assoc, ← zpow_add₀ two_ne_zero, neg_add_cancel, zpow_zero, mul_one]
  obtain ⟨upper, lower⟩ := nearest_spec (scale num den (-e)).1 (scale_snd_pos hd num (-e))
  generalize hq : nearest (scale num den (-e)).1 (scale num den (-e)).2 = q at upper lower
  have h53 : (2 : ℚ) ^ (e + 53) = 2 ^ 53 * 2 ^ e := by
    rw [zpow_add₀ two_ne_zero, mul_comm]
    norm_num
  have h52 : (2 : ℚ) ^ (e + 52) = 2 ^ 52 * 2 ^ e := by
    rw [zpow_add₀ two_ne_zero, mul_comm]
    norm_num
  have half : (2 : ℚ) ^ (e - 1) = 1 / 2 * 2 ^ e := by
    rw [zpow_sub_one₀ two_ne_zero, mul_comm]
    norm_num
  have q_le : q ≤ 2 ^ 53 := by
    have : (q : ℚ) < 2 ^ 53 + 1 := by nlinarith
    exact Nat.lt_succ_iff.mp (by exact_mod_cast this)
  have le_q : 2 ^ 52 ≤ q ∨ e = -1074 := by
    refine full.imp_left fun full => ?_
    have : (2 : ℚ) ^ 52 < q + 1 := by nlinarith
    exact Nat.lt_succ_iff.mp (by exact_mod_cast this)
  have near : (q : ℚ) * 2 ^ e ≤ num / den + 2 ^ (e - 1) := by nlinarith
  have top : (q : ℚ) * 2 ^ e ≤ 2 ^ (e + 53) := by
    rw [h53]
    gcongr
    exact_mod_cast q_le
  have run : ofQuotient? negative num den = if q = 2 ^ 53
      then if 971 < e + 1 then none else some ⟨negative, 2 ^ 52, e + 1⟩
      else if 971 < e then none else some ⟨negative, q, e⟩ := by
    rw [ofQuotient?, if_neg hn.ne']
    simp only [he, hq]
    split <;> split <;> simp_all [leastFull, maxExponent]
  rw [run]
  by_cases carry : q = 2 ^ 53
  · have same : (⟨negative, 2 ^ 52, e + 1⟩ : Binary64).abs = q * 2 ^ e := by
      rw [abs, carry, zpow_add_one₀ two_ne_zero]
      push_cast
      ring
    refine ⟨⟨negative, 2 ^ 52, e + 1⟩, rfl, ⟨by norm_num, by dsimp only; omega, .inl le_rfl,
      e, low, full, same ▸ top, same ▸ near⟩, ?_⟩
    rw [if_pos carry]
  · refine ⟨⟨negative, q, e⟩, rfl, ⟨lt_of_le_of_ne q_le carry, low, le_q, e, low, full, top, near⟩, ?_⟩
    rw [if_neg carry]

namespace Rounded

variable (R : Rounded v x)
include R

theorem normal (h : x.exponent ≤ 971) : x.Normal := ⟨R.significand, R.low, h, R.full⟩

/-- Below the bound the result is finite. -/
theorem finite (h : v < bound) : x.exponent ≤ 971 := by
  by_contra beyond
  obtain ⟨e, low, full, top, near⟩ := R.near
  have grow : ∀ {i j : Int}, (2 : ℚ) ^ i < 2 ^ j → i < j := (zpow_lt_zpow_iff_right₀ one_lt_two).mp
  have hx : (2 : ℚ) ^ (1024 : Int) ≤ x.abs := by
    have full := R.full.resolve_right (by omega)
    calc (2 : ℚ) ^ (1024 : Int) = 2 ^ (52 : Int) * 2 ^ (972 : Int) := by
          rw [← zpow_add₀ two_ne_zero]
          rfl
      _ ≤ x.significand * 2 ^ x.exponent := by
        gcongr
        · exact_mod_cast full
        · exact one_le_two
        · omega
  have hb := bound_eq
  have h₁ : e + 52 < 1024 := by
    rcases full with full | rfl
    · refine grow (lt_of_le_of_lt full (lt_trans h ?_))
      rw [← hb]
      exact lt_add_of_pos_right _ (by positivity)
    · omega
  have h₂ : (2 : ℚ) ^ (e - 1) ≤ 2 ^ (970 : Int) := zpow_le_zpow_right₀ one_le_two (by omega)
  linarith

/-- The error is small relative to a quotient that is not small itself. -/
theorem abs_le (h : (2 : ℚ) ^ (-1022 : Int) ≤ v) : x.abs ≤ v + v * 2 ^ (-53 : Int) := by
  obtain ⟨e, -, full, -, near⟩ := R.near
  refine near.trans (add_le_add_right ?_ v)
  have full : (2 : ℚ) ^ (e + 52) ≤ v := by
    rcases full with full | rfl
    · exact full
    · exact h
  calc (2 : ℚ) ^ (e - 1) = 2 ^ (e + 52) * 2 ^ (-53 : Int) := by
        rw [← zpow_add₀ two_ne_zero]
        congr 1
        ring
    _ ≤ _ := by gcongr

theorem abs_le_pow {k : Int} (h : v < 2 ^ k) (hk : -1021 ≤ k) : x.abs ≤ 2 ^ k := by
  obtain ⟨e, -, full, top, -⟩ := R.near
  refine top.trans (zpow_le_zpow_right₀ one_le_two ?_)
  rcases full with full | rfl
  · have := (zpow_lt_zpow_iff_right₀ one_lt_two).mp (lt_of_le_of_lt full h)
    omega
  · omega

end Rounded

end AnnotatedCircuit.Binary64
