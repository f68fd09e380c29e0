import AnnotatedCircuit.OrderedMap
import Mathlib.Algebra.GroupWithZero.Nat
import Mathlib.Data.List.Basic

/-!
# Entries of ordered maps

Keys are distinct, so looking a key up and listing the entries come to the same (`find?_of_mem`,
`mem_of_lookup`). Sums over all values change with the entry that changes (`sum_updateEntries`,
`sum_erase`).
-/

namespace AnnotatedCircuit.OrderedMap

variable {κ α : Type} [DecidableEq κ] {m : OrderedMap κ α} {k : κ} {a : α} {es : List (κ × α)}

/-! ### Looking up and listing -/

theorem lookup_append (k : κ) (es es' : List (κ × α)) :
    lookup k (es ++ es') = (lookup k es).or (lookup k es') := by
  induction es with
  | nil => rfl
  | cons e es ih =>
    obtain ⟨k', a⟩ := e
    rw [List.cons_append, lookup, lookup]
    split
    · rfl
    · exact ih

theorem lookup_eq_none (h : k ∉ es.map Prod.fst) : lookup k es = none := by
  rw [← lookup_isSome_iff, Bool.not_eq_true, Option.isSome_eq_false_iff] at h
  exact Option.isNone_iff_eq_none.mp h

theorem mem_of_lookup (h : lookup k es = some a) : (k, a) ∈ es := by
  induction es with
  | nil => cases h
  | cons e es ih =>
    obtain ⟨k', b⟩ := e
    rw [lookup] at h
    split at h
    · subst k'
      obtain rfl := Option.some.inj h
      exact List.mem_cons_self
    · exact List.mem_cons_of_mem _ (ih h)

theorem lookup_of_nodup (nodup : (es.map Prod.fst).Nodup) (h : (k, a) ∈ es) :
    lookup k es = some a := by
  induction es with
  | nil => cases h
  | cons e es ih =>
    obtain ⟨k', b⟩ := e
    obtain ⟨hk, nodup⟩ := List.nodup_cons.mp nodup
    rw [lookup]
    rcases List.mem_cons.mp h with h | h
    · cases h
      exact if_pos rfl
    · have hne : k' ≠ k := fun e => hk (List.mem_map.mpr ⟨_, h, e.symm⟩)
      rw [if_neg hne, ih nodup h]

theorem find?_of_mem (h : (k, a) ∈ m.entries) : m.find? k = some a :=
  lookup_of_nodup m.distinct h

/-- Nothing is entered into a map but what is stored in it. -/
theorem mem_entries_insert {e : κ × α} (h : e ∈ (m.insert k a).entries) :
    e = (k, a) ∨ e ∈ m.entries := by
  have h := find?_of_mem h
  rw [find?_insert] at h
  split at h
  · rename_i hk
    exact .inl (Prod.ext hk.symm (Option.some.inj h).symm)
  · exact .inr (mem_of_lookup h)

theorem mem_of_mem_ofList {e : κ × α} (h : e ∈ (ofList es).entries) : e ∈ es := by
  have walk : ∀ (es : List (κ × α)) (m : OrderedMap κ α),
      e ∈ (es.foldl (fun m e => m.insert e.1 e.2) m).entries → e ∈ m.entries ∨ e ∈ es := by
    intro es
    induction es with
    | nil => exact fun _ => .inl
    | cons e' es ih =>
      intro m h
      rcases ih _ h with h | h
      · refine (mem_entries_insert h).elim (fun e => .inr ?_) .inl
        exact e ▸ List.mem_cons_self
      · exact .inr (List.mem_cons_of_mem _ h)
  exact (walk es .empty h).resolve_left List.not_mem_nil

theorem entries_insert (m : OrderedMap κ α) {k : κ} (h : k ∉ m.keys) (a : α) :
    (m.insert k a).entries = m.entries ++ [(k, a)] := by
  have walk : ∀ es : List (κ × α), k ∉ es.map Prod.fst →
      updateEntries k (fun _ => a) es = es ++ [(k, a)] := by
    intro es
    induction es with
    | nil => exact fun _ => rfl
    | cons e es ih =>
      intro h
      rw [List.map_cons, List.mem_cons, not_or] at h
      rw [updateEntries, if_neg (Ne.symm h.1), ih h.2]
      rfl
  exact walk m.entries h

/-- Entries under distinct keys are all kept, in their order. -/
theorem entries_ofList (nodup : (es.map Prod.fst).Nodup) : (ofList es).entries = es := by
  have walk : ∀ (es : List (κ × α)) (m : OrderedMap κ α), (es.map Prod.fst).Nodup →
      (∀ e ∈ es, e.1 ∉ m.keys) →
      (es.foldl (fun m e => m.insert e.1 e.2) m).entries = m.entries ++ es := by
    intro es
    induction es with
    | nil => exact fun m _ _ => (List.append_nil _).symm
    | cons e es ih =>
      intro m nodup fresh
      obtain ⟨he, nodup⟩ := List.nodup_cons.mp nodup
      obtain ⟨hm, fresh⟩ := List.forall_mem_cons.mp fresh
      have entered := entries_insert m hm e.2
      rw [List.foldl_cons, ih _ nodup fun e' he' hk => ?_, entered, List.append_assoc]
      · rfl
      · rw [keys, entered, List.map_append, List.mem_append] at hk
        rcases hk with hk | hk
        · exact fresh e' he' hk
        · exact he (List.mem_map.mpr ⟨e', he', List.mem_singleton.mp hk⟩)
  exact walk es .empty nodup fun _ _ => List.not_mem_nil

/-- A map is made of its entries. -/
theorem ofList_entries (m : OrderedMap κ α) : ofList m.entries = m := ext (entries_ofList m.distinct)

theorem find?_ofList (nodup : (es.map Prod.fst).Nodup) (k : κ) :
    (ofList es).find? k = lookup k es := by
  rw [find?, entries_ofList nodup]

/-- The entries are the keys with what is found under them. -/
theorem entries_eq_map_keys (m : OrderedMap κ α) (default : α) :
    m.entries = m.keys.map fun k => (k, (m.find? k).getD default) := by
  rw [keys, List.map_map]
  refine (List.map_id m.entries).symm.trans (List.map_congr_left fun e he => ?_)
  rw [Function.comp_apply, find?_of_mem he]
  rfl

/-! ### Keys -/

theorem mem_keys_update {k' : κ} {f : Option α → α} :
    k' ∈ (m.update k f).keys ↔ k' ∈ m.keys ∨ k' = k := by
  rw [keys_update]
  split
  · exact ⟨.inl, fun h => h.elim id fun e => e ▸ ‹_›⟩
  · simp

omit [DecidableEq κ] in
theorem mem_keys_filterKeys {p : κ → Bool} :
    k ∈ (m.filterKeys p).keys ↔ k ∈ m.keys ∧ p k = true := by
  simp only [keys, filterKeys, List.mem_map, List.mem_filter]
  constructor
  · rintro ⟨e, ⟨he, hp⟩, rfl⟩
    exact ⟨⟨e, he, rfl⟩, hp⟩
  · rintro ⟨⟨e, he, rfl⟩, hp⟩
    exact ⟨e, ⟨he, hp⟩, rfl⟩

theorem mem_keys_of_find? (h : m.find? k = some a) :
    k ∈ m.keys := by
  rw [← contains_iff, contains, h]
  rfl

/-- A map in which every key is looked up. -/
theorem lookup_map_keys (f : κ → α) (ks : List κ) (k : κ) :
    lookup k (ks.map fun k => (k, f k)) = if k ∈ ks then some (f k) else none := by
  induction ks with
  | nil => rfl
  | cons k' ks ih =>
    by_cases h : k' = k
    · simp [lookup, h]
    · simp [lookup, h, Ne.symm h, ih]

theorem find?_eq_none (h : k ∉ m.keys) : m.find? k = none := lookup_eq_none h

/-! ### Sums -/

/-- In a sum over all values, the value of a key is exchanged by an update. -/
theorem sum_updateEntries (w : α → Nat) (k : κ) (f : Option α → α) (es : List (κ × α)) :
    ((updateEntries k f es).map (w ·.2)).sum + ((lookup k es).map w).getD 0 =
      (es.map (w ·.2)).sum + w (f (lookup k es)) := by
  induction es with
  | nil => simp [updateEntries, lookup]
  | cons e es ih =>
    obtain ⟨j, a⟩ := e
    by_cases h : j = k
    · simp only [updateEntries, lookup, h, if_true, List.map_cons, List.sum_cons, Option.map_some,
        Option.getD_some]
      omega
    · simp only [updateEntries, lookup, h, if_false, List.map_cons, List.sum_cons]
      omega

/-- In a sum over all values, that of an erased key is missing. -/
theorem sum_erase (w : α → Nat) (k : κ) (m : OrderedMap κ α) :
    ((m.erase k).entries.map (w ·.2)).sum + ((m.find? k).map w).getD 0 =
      (m.entries.map (w ·.2)).sum := by
  obtain ⟨es, distinct⟩ := m
  simp only [erase, filterKeys, find?]
  induction es with
  | nil => simp [lookup]
  | cons e es ih =>
    obtain ⟨j, a⟩ := e
    obtain ⟨hj, distinct⟩ := List.nodup_cons.mp distinct
    by_cases h : j = k
    · subst h
      have hne : ∀ e ∈ es, e.1 ≠ j := by
        rintro e he rfl
        exact hj (List.mem_map.mpr ⟨e, he, rfl⟩)
      have keep : es.filter (fun e => decide (e.1 ≠ j)) = es :=
        List.filter_eq_self.mpr (by simpa using hne)
      simp only [ne_eq, not_true_eq_false, decide_false, Bool.false_eq_true, not_false_eq_true,
        List.filter_cons_of_neg, lookup, if_true, Option.map_some, Option.getD_some, List.map_cons,
        List.sum_cons]
      rw [keep, Nat.add_comm]
    · have := ih distinct
      simp only [ne_eq, h, not_false_eq_true, decide_true, List.filter_cons_of_pos, lookup,
        if_false, List.map_cons, List.sum_cons] at this ⊢
      omega

end AnnotatedCircuit.OrderedMap
