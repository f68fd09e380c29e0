import Mathlib.Data.Finset.Card
import Mathlib.Data.Finset.Range
import Mathlib.Data.List.Nodup
import Mathlib.Data.List.Perm.Subperm
import AnnotatedCircuit.NameSupply
import AnnotatedCircuit.Proofs.Outcome

/-!
# Names that are free

A name that is handed out is new (`NameSupply.fresh_ok`). A counter of a supply passes candidates
only that are in use (`NameSupply.Counted`), so a supply runs dry only when as many names are in use
as there are words (`NameSupply.fresh_cases`). Any other supply has room for a known number of names
of a hint (`NameSupply.room_of_fresh`, `NameSupply.room_of_error`).
-/

namespace AnnotatedCircuit.NameSupply

variable {s s' : NameSupply} {hint name : String} {used : List String} {i j k n : Nat}

theorem candidate_inj (e : candidate hint i = candidate hint j) : i = j := by
  have e' : i.repr = j.repr := (String.append_right_inj (hint ++ "_")).mp e
  have digits := congrArg (fun t => Nat.ofDigitChars 10 t.toList 0) e'
  simpa using digits

theorem candidate_ne_hint (hint : String) (k : Nat) : candidate hint k ≠ hint := by
  intro e
  have hlen := congrArg String.length e
  simp only [candidate, String.length_append] at hlen
  have : "_".length = 1 := rfl
  omega

/-- Every candidate below the counter of its hint is in use. -/
structure Counted (s : NameSupply) : Prop where
  passed : ∀ {hint k i}, s.nextSuffix.find? hint = some k → i < k → candidate hint i ∈ s.used

theorem freeSuffix_ok (h : freeSuffix used hint k = .ok n) :
    candidate hint n ∉ used ∧ ∀ i, k ≤ i → i < n → candidate hint i ∈ used := by
  fun_induction freeSuffix used hint k with
  | case1 k _ hused ih =>
    obtain ⟨hn, hbelow⟩ := ih h
    refine ⟨hn, fun i hi hin => ?_⟩
    rcases Nat.eq_or_lt_of_le hi with rfl | hi
    · simpa using hused
    · exact hbelow i hi hin
  | case2 k _ hfree =>
    obtain rfl := Except.ok.inj h
    exact ⟨by simpa using hfree, fun i hi hik => absurd hik (Nat.not_lt_of_le hi)⟩
  | case3 => cases h

theorem freeSuffix_error {o : Overflow} (h : freeSuffix used hint k = .error o) :
    ∀ i, k ≤ i → i + 1 < Word.limit → candidate hint i ∈ used := by
  fun_induction freeSuffix used hint k with
  | case1 k _ hused ih =>
    intro i hi hlt
    rcases Nat.eq_or_lt_of_le hi with rfl | hi
    · simpa using hused
    · exact ih h i hi hlt
  | case2 => cases h
  | case3 k hk =>
    intro i hi hlt
    exact absurd (Nat.lt_of_le_of_lt (Nat.succ_le_succ hi) hlt) hk

/-- A hint and all its candidates are as many names as there are words. -/
theorem limit_le_length (hint_used : hint ∈ used)
    (all : ∀ i, i + 1 < Word.limit → candidate hint i ∈ used) : Word.limit ≤ used.length := by
  have nodup : (hint :: (List.range (Word.limit - 1)).map (candidate hint)).Nodup := by
    refine List.nodup_cons.mpr ⟨fun hm => ?_, List.nodup_range.map_on fun i _ j _ => candidate_inj⟩
    obtain ⟨i, -, e⟩ := List.mem_map.mp hm
    exact candidate_ne_hint hint i e
  have subset : hint :: (List.range (Word.limit - 1)).map (candidate hint) ⊆ used := by
    refine List.cons_subset.mpr ⟨hint_used, fun name hm => ?_⟩
    obtain ⟨i, hi, rfl⟩ := List.mem_map.mp hm
    have := List.mem_range.mp hi
    exact all i (by omega)
  have := (nodup.subperm subset).length_le
  rw [List.length_cons, List.length_map, List.length_range] at this
  omega

/-- The first suffix that is tried for a hint. -/
def counter (s : NameSupply) (hint : String) : Nat := (s.nextSuffix.find? hint).getD 0

theorem fresh_of_unused (unused : hint ∉ s.used) :
    s.fresh hint = .ok (hint, { s with used := hint :: s.used }) := by
  have free : s.contains hint = false := by simpa [contains] using unused
  rw [fresh, add, free]
  rfl

theorem fresh_of_used (used : hint ∈ s.used) :
    s.fresh hint = (freeSuffix s.used hint (s.counter hint)).map fun k =>
      (candidate hint k, ⟨candidate hint k :: s.used, s.nextSuffix.insert hint (k + 1)⟩) := by
  have taken : s.contains hint = true := by simpa [contains] using used
  rw [fresh, if_pos taken, counter]
  cases freeSuffix s.used hint ((s.nextSuffix.find? hint).getD 0) <;> rfl

/-- A hint that is free is answered itself, and one that is in use by a candidate. -/
theorem cases_of_fresh (h : s.fresh hint = .ok (name, s')) :
    (hint ∉ s.used ∧ name = hint ∧ s' = { s with used := hint :: s.used }) ∨
    (hint ∈ s.used ∧ ∃ k, freeSuffix s.used hint (s.counter hint) = .ok k ∧
      name = candidate hint k ∧
      s' = ⟨candidate hint k :: s.used, s.nextSuffix.insert hint (k + 1)⟩) := by
  by_cases used : hint ∈ s.used
  · rw [fresh_of_used used] at h
    cases hk : freeSuffix s.used hint (s.counter hint) with
    | error o =>
      rw [hk] at h
      cases h
    | ok k =>
      rw [hk] at h
      cases h
      exact .inr ⟨used, k, rfl, rfl, rfl⟩
  · rw [fresh_of_unused used] at h
    cases h
    exact .inl ⟨used, rfl, rfl⟩

/-- A name that is handed out is the hint or a candidate for it, was not in use, and is from then
on. -/
theorem fresh_ok (h : s.fresh hint = .ok (name, s')) : name ∉ s.used ∧ s'.used = name :: s.used ∧
    (name = hint ∨ ∃ k, name = candidate hint k) := by
  obtain ⟨unused, rfl, rfl⟩ | ⟨-, k, hk, rfl, rfl⟩ := cases_of_fresh h
  · exact ⟨unused, rfl, .inl rfl⟩
  · exact ⟨(freeSuffix_ok hk).1, rfl, .inr ⟨k, rfl⟩⟩

theorem mem_add {a : String} : a ∈ (s.add name).used ↔ a ∈ s.used ∨ a = name := by
  unfold add
  split
  · rename_i hused
    have hused : name ∈ s.used := by simpa [contains] using hused
    exact ⟨.inl, fun h => h.elim id fun e => e ▸ hused⟩
  · simp [or_comm]

theorem mem_addAll {names : List String} {a : String} :
    a ∈ (s.addAll names).used ↔ a ∈ s.used ∨ a ∈ names := by
  unfold addAll
  induction names generalizing s with
  | nil => simp
  | cons name names ih => rw [List.foldl_cons, ih, mem_add, List.mem_cons, or_assoc]

theorem mem_ofNames {names : List String} {a : String} : a ∈ (ofNames names).used ↔ a ∈ names := by
  simp [ofNames, mem_addAll, empty]

/-! ### Supplies that answer alike -/

/-- The same names are in use, and every hint has the same next suffix. -/
structure Same (s s' : NameSupply) : Prop where
  used : ∀ name, name ∈ s'.used ↔ name ∈ s.used
  nextSuffix : ∀ hint, s'.nextSuffix.find? hint = s.nextSuffix.find? hint

theorem nextSuffix_addAll (s : NameSupply) (names : List String) :
    (s.addAll names).nextSuffix = s.nextSuffix := by
  refine List.foldlRecOn names add (motive := fun s' => s'.nextSuffix = s.nextSuffix) rfl ?_
  intro s' h name _
  rw [← h, add]
  split <;> rfl

/-- Names that are in use can be marked again. -/
theorem Same.addAll (S : s.Same s') {names : List String} (h : ∀ name ∈ names, name ∈ s.used) :
    s.Same (s'.addAll names) where
  used name := by
    rw [mem_addAll, S.used]
    exact ⟨fun hn => hn.elim id (h name), .inl⟩
  nextSuffix hint := by rw [nextSuffix_addAll, S.nextSuffix]

theorem ascending_perm (names : List String) : (ascending names).Perm names := by
  have insert : ∀ (name : String) (names : List String),
      (insertAscending name names).Perm (name :: names) := by
    intro name names
    induction names with
    | nil => rfl
    | cons n ns ih =>
      unfold insertAscending
      split
      · exact (ih.cons n).trans (.swap ..)
      · rfl
  induction names with
  | nil => rfl
  | cons name names ih => exact (insert name _).trans (ih.cons name)

/-! ### Answers -/

namespace Counted

theorem below_counter (C : s.Counted) (hi : i < s.counter hint) : candidate hint i ∈ s.used := by
  rw [counter] at hi
  cases hk : s.nextSuffix.find? hint with
  | none => simp [hk] at hi
  | some k =>
    rw [hk, Option.getD_some] at hi
    exact C.passed hk hi

/-- The suffix that is found is the first free one of all. -/
theorem freeSuffix_least (C : s.Counted) (hk : freeSuffix s.used hint (s.counter hint) = .ok k)
    (hi : i < k) : candidate hint i ∈ s.used := by
  rcases Nat.lt_or_ge i (s.counter hint) with below | above
  · exact C.below_counter below
  · exact (freeSuffix_ok hk).2 i above hi

/-- Where no suffix from the counter on is free, there are as many names as words. -/
theorem limit_le_length (C : s.Counted) (used : hint ∈ s.used)
    (all : ∀ i, s.counter hint ≤ i → i + 1 < Word.limit → candidate hint i ∈ s.used) :
    Word.limit ≤ s.used.length := by
  refine NameSupply.limit_le_length used fun i hi => ?_
  rcases Nat.lt_or_ge i (s.counter hint) with below | above
  · exact C.below_counter below
  · exact all i above hi

end Counted

/-- A request for a name is answered, unless there are too many names. -/
theorem fresh_cases (C : s.Counted) (hint : String) :
    (∃ name s', s.fresh hint = .ok (name, s') ∧ s'.Counted) ∨
    ∃ o, s.fresh hint = .error o ∧ Word.limit ≤ s.used.length := by
  by_cases used : hint ∈ s.used
  · rw [fresh_of_used used]
    cases hn : freeSuffix s.used hint (s.counter hint) with
    | error o => exact .inr ⟨o, rfl, C.limit_le_length used (freeSuffix_error hn)⟩
    | ok n =>
      refine .inl ⟨candidate hint n, _, rfl, ⟨fun {hint' k i} hk hi => ?_⟩⟩
      rw [OrderedMap.find?_insert] at hk
      split at hk
      · rename_i e
        obtain rfl := e
        obtain rfl := Option.some.inj hk
        rcases Nat.eq_or_lt_of_le (Nat.le_of_lt_succ hi) with rfl | hi
        · exact List.mem_cons_self
        · exact List.mem_cons_of_mem _ (C.freeSuffix_least hn hi)
      · exact List.mem_cons_of_mem _ (C.passed hk hi)
  · rw [fresh_of_unused used]
    exact .inl ⟨hint, _, rfl, ⟨fun hk hi => List.mem_cons_of_mem _ (C.passed hk hi)⟩⟩

theorem counted_addAll (C : s.Counted) (names : List String) : (s.addAll names).Counted ∧
    (s.addAll names).used.length ≤ s.used.length + names.length := by
  unfold addAll
  induction names generalizing s with
  | nil => exact ⟨C, Nat.le_refl _⟩
  | cons name names ih =>
    have step : (s.add name).Counted ∧ (s.add name).used.length ≤ s.used.length + 1 := by
      unfold add
      split
      · exact ⟨C, Nat.le_succ _⟩
      · exact ⟨⟨fun hk hi => List.mem_cons_of_mem _ (C.passed hk hi)⟩, Nat.le_refl _⟩
    obtain ⟨C', hlen⟩ := ih step.1
    refine ⟨C', ?_⟩
    rw [List.foldl_cons, List.length_cons]
    omega

/-! ### Room for names -/

/-- The suffixes that a supply can still give out for a hint. -/
def freeSuffixes (s : NameSupply) (hint : String) : Finset Nat :=
  (Finset.range (Word.limit - 1)).filter fun i =>
    (s.nextSuffix.find? hint).getD 0 ≤ i ∧ candidate hint i ∉ s.used

/-- How many requests for a hint a supply can answer. -/
def room (s : NameSupply) (hint : String) : Nat :=
  (if hint ∈ s.used then 0 else 1) + (s.freeSuffixes hint).card

theorem mem_freeSuffixes : i ∈ s.freeSuffixes hint ↔ i + 1 < Word.limit ∧
    (s.nextSuffix.find? hint).getD 0 ≤ i ∧ candidate hint i ∉ s.used := by
  rw [freeSuffixes, Finset.mem_filter, Finset.mem_range, Nat.lt_sub_iff_add_lt]

theorem freeSuffix_lt (h : freeSuffix used hint k = .ok n) : n + 1 < Word.limit ∧ k ≤ n := by
  fun_induction freeSuffix used hint k with
  | case1 k _ _ ih => exact ⟨(ih h).1, Nat.le_of_succ_le (ih h).2⟩
  | case2 k hk _ => exact Except.ok.inj h ▸ ⟨hk, Nat.le_refl k⟩
  | case3 => cases h

/-- Every answer takes one of the names that a supply has room for. -/
theorem room_of_fresh (h : s.fresh hint = .ok (name, s')) : s.room hint = s'.room hint + 1 := by
  obtain ⟨unused, rfl, rfl⟩ | ⟨used, k, hk, rfl, rfl⟩ := cases_of_fresh h
  · have same : freeSuffixes { s with used := name :: s.used } name = s.freeSuffixes name := by
      ext i
      simp [mem_freeSuffixes, candidate_ne_hint]
    rw [room, room, same, if_neg unused, if_pos List.mem_cons_self]
    omega
  · obtain ⟨hfree, hbelow⟩ := freeSuffix_ok hk
    obtain ⟨hlt, hle⟩ := freeSuffix_lt hk
    have split : s.freeSuffixes hint = insert k (freeSuffixes
        ⟨candidate hint k :: s.used, s.nextSuffix.insert hint (k + 1)⟩ hint) := by
      ext i
      rw [Finset.mem_insert, mem_freeSuffixes, mem_freeSuffixes]
      simp only [OrderedMap.find?_insert, if_pos, Option.getD_some, List.mem_cons, not_or]
      constructor
      · rintro ⟨hi, hki, hfree⟩
        rcases Nat.lt_trichotomy i k with hik | rfl | hik
        · exact absurd (hbelow i hki hik) hfree
        · exact .inl rfl
        · exact .inr ⟨hi, hik, fun e => Nat.ne_of_gt hik (candidate_inj e), hfree⟩
      · rintro (rfl | ⟨hi, hik, -, hfree⟩)
        · exact ⟨hlt, hle, hfree⟩
        · exact ⟨hi, Nat.le_trans hle (Nat.le_of_succ_le hik), hfree⟩
    have fresh : k ∉ freeSuffixes
        ⟨candidate hint k :: s.used, s.nextSuffix.insert hint (k + 1)⟩ hint := by
      simp [mem_freeSuffixes]
    rw [room, room, split, Finset.card_insert_of_notMem fresh, if_pos used,
      if_pos (List.mem_cons_of_mem _ used), Nat.add_assoc]

/-- A supply that fails has no room. -/
theorem room_of_error {o : Overflow} (h : s.fresh hint = .error o) : s.room hint = 0 := by
  by_cases used : hint ∈ s.used
  · rw [fresh_of_used used] at h
    cases hk : freeSuffix s.used hint (s.counter hint) with
    | ok k =>
      rw [hk] at h
      cases h
    | error o =>
      rw [room, if_pos used, Nat.zero_add, Finset.card_eq_zero, Finset.eq_empty_iff_forall_notMem]
      intro i hi
      obtain ⟨hlt, hle, hfree⟩ := mem_freeSuffixes.mp hi
      exact hfree (freeSuffix_error hk i hle hlt)
  · rw [fresh_of_unused used] at h
    cases h

-- the suffixes are as many as there are words: no unification may count them
attribute [irreducible] room

theorem counted_ofNames (names : List String) :
    (ofNames names).Counted ∧ (ofNames names).used.length ≤ names.length := by
  obtain ⟨C, hlen⟩ := counted_addAll (s := empty) ⟨nofun⟩ names
  exact ⟨C, Nat.le_trans hlen (by simp [empty])⟩

end AnnotatedCircuit.NameSupply
