import AnnotatedCircuit.Proofs.Binary64.Rounding

/-!
# Reading decimals

Whatever is read from a decimal is in normal form (`Binary64.normal_of_ofDecimal?`). A decimal with
places behind the point is always read (`Binary64.ofDecimal?_of_places`), a multiple of a power of ten
if it lies below the bound of the finite range: the two roundings on the way are too small to leave
that range, except for one decimal (`Binary64.ofDecimal?_of_lt`).
-/

namespace AnnotatedCircuit.Binary64

variable {num den s n : Nat} {negative : Bool} {x y z : Binary64}

theorem toQuotient_snd_pos (x : Binary64) : 0 < x.toQuotient.2 := scale_snd_pos Nat.one_pos ..

theorem toQuotient_div (x : Binary64) : (x.toQuotient.1 : ℚ) / x.toQuotient.2 = x.abs := by
  rw [toQuotient, scale_div, Nat.cast_one, div_one]
  rfl

theorem abs_nonneg (x : Binary64) : 0 ≤ x.abs := by
  rw [abs]
  positivity

theorem zero_normal (negative : Bool) : (zero negative).Normal :=
  ⟨Nat.two_pow_pos 53, le_rfl, show (-1074 : Int) ≤ 971 by decide, .inr rfl⟩

/-! ### Normal form -/

theorem normal_of_ofQuotient? (hd : 0 < den) (h : ofQuotient? negative num den = some x) :
    x.Normal := by
  rcases Nat.eq_zero_or_pos num with rfl | hn
  · cases h
    exact zero_normal negative
  · obtain ⟨y, -, R, hy⟩ := ofQuotient?_rounded hn hd negative
    rw [hy] at h
    split at h
    · cases h
    · cases h
      exact R.normal (not_lt.mp ‹_›)

theorem normal_of_mul? (h : x.mul? y = some z) : z.Normal :=
  normal_of_ofQuotient? (Nat.mul_pos x.toQuotient_snd_pos y.toQuotient_snd_pos) h

theorem normal_of_div? (h : x.div? y = some z) : z.Normal := by
  unfold div? at h
  dsimp only at h
  split at h
  · cases h
  · rename_i hc
    exact normal_of_ofQuotient? (Nat.mul_pos x.toQuotient_snd_pos (Nat.pos_of_ne_zero hc)) h

theorem normal_of_divisions {ns : List Nat} (N : x.Normal)
    (h : ns.foldlM (fun y n => (powerOfTen? n).bind y.div?) x = some z) : z.Normal := by
  induction ns generalizing x with
  | nil =>
    cases h
    exact N
  | cons n ns ih =>
    rw [List.foldlM_cons] at h
    obtain ⟨y, hy, h⟩ := Option.bind_eq_some_iff.mp h
    obtain ⟨p, -, hy⟩ := Option.bind_eq_some_iff.mp hy
    exact ih (normal_of_div? hy) h

theorem normal_of_ofDecimal? {e : Int} (h : ofDecimal? s e = some x) : x.Normal := by
  obtain ⟨y, hy, h⟩ := Option.bind_eq_some_iff.mp h
  have N : y.Normal := normal_of_ofQuotient? Nat.one_pos hy
  split at h
  · exact normal_of_divisions N h
  · split at h
    · cases h
      exact N
    · split at h
      · cases h
      · obtain ⟨p, -, h⟩ := Option.bind_eq_some_iff.mp h
        exact normal_of_mul? h

/-! ### Staying in the finite range -/

theorem ofQuotient?_of_lt (hd : 0 < den) (h : (num / den : ℚ) < bound) (negative : Bool) :
    ∃ x, ofQuotient? negative num den = some x := by
  rcases Nat.eq_zero_or_pos num with rfl | hn
  · exact ⟨_, rfl⟩
  · obtain ⟨x, -, R, hx⟩ := ofQuotient?_rounded hn hd negative
    exact ⟨x, hx.trans (if_neg (not_lt.mpr (R.finite h)))⟩

theorem ofQuotient?_of_lt_pow (hd : 0 < den) {k : Int} (h : (num / den : ℚ) < 2 ^ k)
    (low : -1021 ≤ k) (high : k ≤ 1023) (negative : Bool) :
    ∃ x, ofQuotient? negative num den = some x ∧ x.abs ≤ 2 ^ k := by
  rcases Nat.eq_zero_or_pos num with rfl | hn
  · refine ⟨_, rfl, ?_⟩
    rw [abs, zero, Nat.cast_zero, zero_mul]
    positivity
  · obtain ⟨x, -, R, hx⟩ := ofQuotient?_rounded hn hd negative
    refine ⟨x, hx.trans (if_neg (not_lt.mpr (R.finite (lt_of_lt_of_le h ?_)))), R.abs_le_pow h low⟩
    exact le_trans (zpow_le_zpow_right₀ one_le_two high) pow_le_bound

/-- A number read from an integer differs little from that. -/
theorem ofNat?_ok (hs : 0 < s) (small : s < 2 ^ 64) : ∃ x, ofNat? s = some x ∧
    x.abs ≤ s + s * 2 ^ (-53 : Int) ∧ (s < 2 ^ 54 → x.abs ≤ s + 1) := by
  obtain ⟨x, -, R, hx⟩ := ofQuotient?_rounded hs Nat.one_pos false
  rw [Nat.cast_one, div_one] at R
  have hs' : (1 : ℚ) ≤ s := by exact_mod_cast hs
  have hb : (s : ℚ) < bound := by
    have : s < bound := lt_trans small (by decide +kernel)
    exact_mod_cast this
  refine ⟨x, hx.trans (if_neg (not_lt.mpr (R.finite hb))), R.abs_le (le_trans ?_ hs'), fun h => ?_⟩
  · exact zpow_le_one_of_nonpos₀ one_le_two (by decide)
  · obtain ⟨e, -, full, -, near⟩ := R.near
    refine near.trans (add_le_add_right ?_ _)
    have he : e ≤ 1 := by
      rcases full with full | rfl
      · have : (2 : ℚ) ^ (e + 52) < 2 ^ (54 : Int) := lt_of_le_of_lt full (by exact_mod_cast h)
        have := (zpow_lt_zpow_iff_right₀ one_lt_two).mp this
        omega
      · decide
    calc (2 : ℚ) ^ (e - 1) ≤ 2 ^ (0 : Int) := zpow_le_zpow_right₀ one_le_two (by omega)
      _ = 1 := zpow_zero _

/-! ### Powers of ten -/

/-- The quotient for the absolute value of a power of ten is one at least. -/
theorem powerOfTen?_ok (h : n ≤ maxPower) :
    ∃ y, powerOfTen? n = some y ∧ y.toQuotient.2 ≤ y.toQuotient.1 := by
  have all : ∀ n < 309, (powerOfTen? n).any (fun y => y.toQuotient.2 ≤ y.toQuotient.1) = true := by
    decide +kernel
  have hn := all n (Nat.lt_succ_of_le h)
  cases hy : powerOfTen? n with
  | none =>
    rw [hy] at hn
    cases hn
  | some y =>
    rw [hy] at hn
    exact ⟨y, rfl, of_decide_eq_true hn⟩

/-- Division by a power of ten does not leave the finite range. -/
theorem divisions_ok {ns : List Nat} (hns : ∀ n ∈ ns, n ≤ maxPower) {k : Int} (hx : x.abs ≤ 2 ^ k)
    (low : -1021 ≤ k) (high : k + ns.length ≤ 1023) :
    ∃ z, ns.foldlM (fun y n => (powerOfTen? n).bind y.div?) x = some z := by
  induction ns generalizing x k with
  | nil => exact ⟨x, rfl⟩
  | cons n ns ih =>
    obtain ⟨hn, hns⟩ := List.forall_mem_cons.mp hns
    obtain ⟨y, hy, one⟩ := powerOfTen?_ok hn
    have hy₁ : y.toQuotient.1 ≠ 0 := by
      have := y.toQuotient_snd_pos
      omega
    have hquotient : ((x.toQuotient.1 * y.toQuotient.2 : Nat) : ℚ) /
        (x.toQuotient.2 * y.toQuotient.1 : Nat) < 2 ^ (k + 1) := by
      have hone : (y.toQuotient.2 : ℚ) / y.toQuotient.1 ≤ 1 :=
        div_le_one_of_le₀ (by exact_mod_cast one) (Nat.cast_nonneg _)
      push_cast
      rw [mul_div_mul_comm, toQuotient_div]
      calc x.abs * (y.toQuotient.2 / y.toQuotient.1) ≤ x.abs * 1 := by
            gcongr
            exact x.abs_nonneg
        _ ≤ 2 ^ k := by rwa [mul_one]
        _ < 2 ^ (k + 1) := zpow_lt_zpow_right₀ one_lt_two (lt_add_one k)
    rw [List.length_cons] at high
    push_cast at high
    obtain ⟨z, hz, hle⟩ := ofQuotient?_of_lt_pow
      (Nat.mul_pos x.toQuotient_snd_pos (Nat.pos_of_ne_zero hy₁)) hquotient (by omega) (by omega)
      (x.negative != y.negative)
    obtain ⟨w, hw⟩ := ih hns hle (by omega) (by omega)
    refine ⟨w, ?_⟩
    rw [List.foldlM_cons, hy]
    refine Option.bind_eq_some_iff.mpr ⟨z, ?_, hw⟩
    refine Eq.trans ?_ hz
    simp [div?, hy₁]

theorem divisors_spec (places : Nat) :
    (∀ n ∈ divisors places, n ≤ maxPower) ∧ (divisors places).length ≤ 4 := by
  unfold divisors
  generalize hp : min places (4 * maxPower) = p
  have hp' : p ≤ 4 * maxPower := by omega
  rw [maxPower] at *
  refine ⟨fun n hn => ?_, ?_⟩
  · rcases List.mem_append.mp hn with hn | hn
    · exact (List.eq_of_mem_replicate hn).le
    · rw [List.mem_singleton] at hn
      omega
  · rw [List.length_append, List.length_replicate, List.length_singleton]
    omega

/-- A decimal with places behind the point is read. -/
theorem ofDecimal?_of_places (small : s < 2 ^ 64) {e : Int} (he : e < 0) :
    ∃ x, ofDecimal? s e = some x := by
  have start : ∃ x, ofNat? s = some x ∧ x.abs ≤ 2 ^ (64 : Int) := by
    refine ofQuotient?_of_lt_pow Nat.one_pos ?_ (by decide) (by decide) false
    rw [Nat.cast_one, div_one]
    exact_mod_cast small
  obtain ⟨x, hx, hle⟩ := start
  obtain ⟨allowed, few⟩ := divisors_spec (-e).toNat
  obtain ⟨z, hz⟩ := divisions_ok allowed hle (by decide) (by omega)
  exact ⟨z, Option.bind_eq_some_iff.mpr ⟨x, hx, (if_pos he).trans hz⟩⟩

/-! ### Near the end of the finite range -/

/-- The one decimal below the bound that is rounded beyond the greatest number. -/
def exceptional : Nat := 17976931348623158

theorem mul?_of_le {v : ℚ} (hx : x.abs ≤ v)
    (h : v * y.toQuotient.1 < bound * y.toQuotient.2) : ∃ z, x.mul? y = some z := by
  have d_pos : (0 : ℚ) < y.toQuotient.2 := by exact_mod_cast y.toQuotient_snd_pos
  have quotient : ((x.toQuotient.1 * y.toQuotient.1 : Nat) : ℚ) /
      (x.toQuotient.2 * y.toQuotient.2 : Nat) < bound := by
    rw [Nat.cast_mul, Nat.cast_mul, mul_div_mul_comm, toQuotient_div, ← mul_div_assoc,
      div_lt_iff₀ d_pos]
    exact lt_of_le_of_lt (mul_le_mul_of_nonneg_right hx (Nat.cast_nonneg _)) h
  exact ofQuotient?_of_lt (Nat.mul_pos x.toQuotient_snd_pos y.toQuotient_snd_pos) quotient _

/-- The factor may have been rounded. -/
theorem mul?_of_rounded {m : Nat} (hx : x.abs ≤ s + s * 2 ^ (-53 : Int)) (hs : s ≤ m)
    (h : m * (2 ^ 53 + 1) * y.toQuotient.1 < bound * 2 ^ 53 * y.toQuotient.2) :
    ∃ z, x.mul? y = some z := by
  have hs : (s : ℚ) ≤ m := by exact_mod_cast hs
  have h : (m : ℚ) * (2 ^ 53 + 1) * y.toQuotient.1 < bound * 2 ^ 53 * y.toQuotient.2 := by
    exact_mod_cast h
  have unit : (2 : ℚ) ^ (-53 : Int) * 2 ^ 53 = 1 := by norm_num
  refine mul?_of_le (v := (m : ℚ) + m * 2 ^ (-53 : Int)) (hx.trans ?_) ?_
  · gcongr
  · generalize (bound : ℚ) = b at h ⊢
    generalize (2 : ℚ) ^ (-53 : Int) = ε at unit ⊢
    refine lt_of_mul_lt_mul_right (a := 2 ^ 53) ?_ (by positivity)
    calc ((m : ℚ) + m * ε) * y.toQuotient.1 * 2 ^ 53
        = (m : ℚ) * (2 ^ 53 + ε * 2 ^ 53) * y.toQuotient.1 := by ring
      _ = (m : ℚ) * (2 ^ 53 + 1) * y.toQuotient.1 := by rw [unit]
      _ < b * 2 ^ 53 * y.toQuotient.2 := h
      _ = b * y.toQuotient.2 * 2 ^ 53 := by ring

/-- With a power of ten the greatest multiple below the bound, and some more, stays below it. -/
theorem multiples_lt (hn : n ≤ maxPower) : ∃ y, powerOfTen? n = some y ∧
    (n ≠ 292 → min (10 ^ 17) ((bound - 1) / 10 ^ n) * (2 ^ 53 + 1) * y.toQuotient.1 <
      bound * 2 ^ 53 * y.toQuotient.2) ∧
    (n = 292 → (exceptional - 1) * y.toQuotient.1 < bound * y.toQuotient.2) := by
  have all : ∀ n < 309, (powerOfTen? n).any (fun y =>
      (n ≠ 292 → min (10 ^ 17) ((bound - 1) / 10 ^ n) * (2 ^ 53 + 1) * y.toQuotient.1 <
        bound * 2 ^ 53 * y.toQuotient.2) ∧
      (n = 292 → (exceptional - 1) * y.toQuotient.1 < bound * y.toQuotient.2)) = true := by
    decide +kernel
  have hn := all n (Nat.lt_succ_of_le hn)
  cases hy : powerOfTen? n with
  | none =>
    rw [hy] at hn
    cases hn
  | some y =>
    rw [hy] at hn
    exact ⟨y, rfl, of_decide_eq_true hn⟩

/-- A multiple of a power of ten below the bound is read, with one exception. -/
theorem ofDecimal?_of_lt (hs : 0 < s) (few : s ≤ 10 ^ 17) (h : s * 10 ^ n < bound)
    (other : n = 292 → s ≠ exceptional) : ∃ x, ofDecimal? s n = some x := by
  have hn : n ≤ maxPower := by
    obtain ⟨k, hk, hb⟩ : ∃ k, k = maxPower + 1 ∧ bound < 10 ^ k := ⟨_, rfl, by decide +kernel⟩
    have : 10 ^ n < 10 ^ k := lt_trans (lt_of_le_of_lt (Nat.le_mul_of_pos_left _ hs) h) hb
    have := (Nat.pow_lt_pow_iff_right (by decide)).mp this
    omega
  obtain ⟨x, hx, rel, near⟩ := ofNat?_ok hs (by omega)
  obtain ⟨y, hy, bulk, last⟩ := multiples_lt hn
  have hle : s ≤ (bound - 1) / 10 ^ n := by
    rw [Nat.le_div_iff_mul_le (Nat.pow_pos (by decide))]
    exact Nat.le_sub_one_of_lt h
  have product : (n = 292 ∧ s = exceptional - 1) ∨ ∃ z, x.mul? y = some z := by
    by_cases special : n = 292
    · have top : s < exceptional := by
        have greatest : (bound - 1) / 10 ^ 292 = exceptional := by decide +kernel
        rw [special, greatest] at hle
        exact lt_of_le_of_ne hle (other special)
      refine (eq_or_lt_of_le (Nat.le_sub_one_of_lt top)).imp (⟨special, ·⟩) fun below => ?_
      refine mul?_of_le (v := ((exceptional - 1 : Nat) : ℚ)) ((near ?_).trans ?_) ?_
      · exact lt_trans top (by decide)
      · exact_mod_cast Nat.succ_le_of_lt below
      · exact_mod_cast last special
    · exact .inr (mul?_of_rounded rel (le_min few hle) (bulk special))
  rcases product with ⟨rfl, rfl⟩ | ⟨z, hz⟩
  · have : (ofDecimal? (exceptional - 1) (292 : Nat)).isSome = true := by decide +kernel
    exact Option.isSome_iff_exists.mp this
  · have nonneg : ¬(n : Int) < 0 := by omega
    have inside : ¬(maxPower : Int) < n := by omega
    by_cases zero : x.significand = 0
    · exact ⟨x, Option.bind_eq_some_iff.mpr ⟨x, hx, (if_neg nonneg).trans (if_pos zero)⟩⟩
    · refine ⟨z, Option.bind_eq_some_iff.mpr ⟨x, hx, ?_⟩⟩
      refine (if_neg nonneg).trans ((if_neg zero).trans ((if_neg inside).trans ?_))
      rw [Int.toNat_natCast, hy]
      exact hz

end AnnotatedCircuit.Binary64
