import AnnotatedCircuit.Hierarchy.Paths
import AnnotatedCircuit.Proofs.Hierarchy.Search

/-!
# Paths and remembered paths

`Hierarchy.pathsTo` lists the paths to a module without remembering any. In a ranked hierarchy a
path table answers these lists, whatever it was asked before (`PathTable.paths_eq`), also after an
instance was replaced. A list is made of the routes to the module (`mem_pathsTo_iff`).
-/

namespace AnnotatedCircuit

namespace Hierarchy

variable {h : Hierarchy} {rank : ModuleId → Nat} {m : ModuleId} {s : Site} {p q : InstPath}

/-- The paths to a module, found without remembering any. -/
def pathsWithin (h : Hierarchy) : (fuel : Nat) → ModuleId → List InstPath
  | 0, _ => []
  | n + 1, m =>
    if m = h.top then [[]]
    else (h.uses m).flatMap fun s => (h.pathsWithin n s.parent).map (· ++ [s.op])

def pathsTo (h : Hierarchy) (m : ModuleId) : List InstPath := h.pathsWithin h.fuel m

theorem Ranked.lt_site (R : h.Ranked rank) (hs : s ∈ h.sites) : rank s.parent < rank s.child := by
  obtain ⟨e, he, rfl⟩ := List.mem_map.mp hs
  exact R.lt (mem_children_iff.mpr ⟨e, he, rfl, rfl⟩)

theorem Ranked.lt_of_mem_uses (R : h.Ranked rank) (hs : s ∈ h.uses m) : rank s.parent < rank m := by
  obtain ⟨hsite, rfl⟩ := mem_uses_iff.mp hs
  exact R.lt_site hsite

/-- Fuel above the rank of a module is enough. -/
theorem pathsWithin_eq (R : h.Ranked rank) {n k : Nat} (hn : rank m < n) (hk : rank m < k) :
    h.pathsWithin n m = h.pathsWithin k m := by
  induction n generalizing m k with
  | zero => cases hn
  | succ n ih =>
    cases k with
    | zero => cases hk
    | succ k =>
      unfold pathsWithin
      refine if_congr Iff.rfl rfl (List.flatMap_congr fun s hs => ?_)
      have := R.lt_of_mem_uses hs
      rw [ih (k := k) (by omega) (by omega)]

theorem pathsTo_top : h.pathsTo h.top = [[]] := by
  simp [pathsTo, fuel, pathsWithin]

theorem pathsTo_eq (R : h.Ranked rank) (hm : m ≠ h.top) :
    h.pathsTo m = (h.uses m).flatMap fun s => (h.pathsTo s.parent).map (· ++ [s.op]) := by
  rw [pathsTo, fuel, pathsWithin, if_neg hm]
  apply List.flatMap_congr
  intro s hs
  have h1 := R.lt_of_mem_uses hs
  have h2 := R.le m
  rw [pathsTo, pathsWithin_eq R (k := h.fuel) (by omega) (by unfold fuel; omega)]

/-- A route from the top: every instance stands in the module that the route has led to. -/
inductive Route (h : Hierarchy) : InstPath → ModuleId → Prop where
  | top : Route h [] h.top
  | step {p : InstPath} {s : Site} (before : Route h p s.parent) (site : s ∈ h.sites) :
    Route h (p ++ [s.op]) s.child

theorem Route.rank_le (R : h.Ranked rank) (H : h.Route p m) : rank h.top ≤ rank m := by
  induction H with
  | top => exact Nat.le_refl _
  | step _ hs ih => exact Nat.le_of_lt (Nat.lt_of_le_of_lt ih (R.lt_site hs))

theorem mem_pathsTo_iff (R : h.Ranked rank) : p ∈ h.pathsTo m ↔ h.Route p m := by
  constructor
  · generalize hn : rank m = n
    induction n using Nat.strongRecOn generalizing m p with
    | ind n ih =>
      by_cases ht : m = h.top
      · subst ht
        rw [pathsTo_top, List.mem_singleton]
        rintro rfl
        exact .top
      · rw [pathsTo_eq R ht, List.mem_flatMap]
        rintro ⟨s, hs, hp⟩
        obtain ⟨q, hq, rfl⟩ := List.mem_map.mp hp
        have hlt := R.lt_of_mem_uses hs
        obtain ⟨hsite, rfl⟩ := mem_uses_iff.mp hs
        exact .step (ih _ (hn ▸ hlt) rfl hq) hsite
  · intro H
    induction H with
    | top => simp [pathsTo_top]
    | @step p s H hs ih =>
      have ht : s.child ≠ h.top := by
        intro e
        have h1 := H.rank_le R
        have h2 := R.lt_site hs
        rw [e] at h2
        omega
      rw [pathsTo_eq R ht, List.mem_flatMap]
      exact ⟨s, mem_uses_iff.mpr ⟨hs, rfl⟩, List.mem_map_of_mem ih⟩

end Hierarchy

namespace PathTable

variable {h : Hierarchy} {rank : ModuleId → Nat} {t t' : PathTable} {m : ModuleId}

/-- Every remembered list is the list of the paths. -/
def Faithful (h : Hierarchy) (memo : Memo) : Prop :=
  ∀ m ps, memo.find? m = some ps → ps = h.pathsTo m

theorem Faithful.empty : Faithful h .empty := fun _ _ e => nomatch e

theorem Faithful.insert {memo : Memo} (F : Faithful h memo) (m : ModuleId) :
    Faithful h (memo.insert m (h.pathsTo m)) := by
  intro m' ps e
  rw [OrderedMap.find?_insert] at e
  split at e
  · rename_i hm
    exact hm ▸ (Option.some.inj e).symm
  · exact F m' ps e

/-- The paths that lead on through an instance, behind those collected before. -/
def collectSite (h : Hierarchy) (n : Nat) (r : List InstPath × Memo) (s : Site) :
    List InstPath × Memo :=
  (r.1 ++ (collect h n s.parent r.2).1.map (· ++ [s.op]), (collect h n s.parent r.2).2)

theorem foldl_collectSite {n : Nat} {ss : List Site} {r : List InstPath × Memo}
    (right : ∀ s ∈ ss, ∀ {memo}, Faithful h memo →
      (collect h n s.parent memo).1 = h.pathsTo s.parent ∧
        Faithful h (collect h n s.parent memo).2)
    (F : Faithful h r.2) : (ss.foldl (collectSite h n) r).1 =
        r.1 ++ ss.flatMap (fun s => (h.pathsTo s.parent).map (· ++ [s.op])) ∧
      Faithful h (ss.foldl (collectSite h n) r).2 := by
  induction ss generalizing r with
  | nil => exact ⟨by simp, F⟩
  | cons s ss ih =>
    obtain ⟨hs, right⟩ := List.forall_mem_cons.mp right
    obtain ⟨hps, F'⟩ := hs F
    rw [List.foldl_cons, List.flatMap_cons, ← List.append_assoc, ← hps]
    exact ih right F'

theorem collect_spec (R : h.Ranked rank) {n : Nat} (hn : rank m < n) {memo : Memo}
    (F : Faithful h memo) :
    (collect h n m memo).1 = h.pathsTo m ∧ Faithful h (collect h n m memo).2 := by
  induction n generalizing m memo with
  | zero => cases hn
  | succ n ih =>
    unfold collect
    split
    · rename_i ht
      exact ⟨ht ▸ h.pathsTo_top.symm, F⟩
    rename_i ht
    split
    · rename_i ps hf
      exact ⟨F m ps hf, F⟩
    have right : ∀ s ∈ h.uses m, ∀ {memo}, Faithful h memo →
        (collect h n s.parent memo).1 = h.pathsTo s.parent ∧
          Faithful h (collect h n s.parent memo).2 := by
      intro s hs memo F
      have hlt := R.lt_of_mem_uses hs
      exact ih (by omega) F
    obtain ⟨hps, F'⟩ := foldl_collectSite (r := ([], memo)) right F
    rw [List.nil_append, ← Hierarchy.pathsTo_eq R ht] at hps
    have F'' := F'.insert m
    rw [← hps] at F''
    exact ⟨hps, F''⟩

/-- A table with a ranked hierarchy, all of whose remembered lists are right. -/
structure Right (t : PathTable) : Prop where
  ranked : ∃ rank, t.hierarchy.Ranked rank
  faithful : Faithful t.hierarchy t.memo

theorem Right.ofHierarchy (R : h.Ranked rank) : (PathTable.ofHierarchy h).Right :=
  ⟨⟨rank, R⟩, .empty⟩

theorem paths_eq (H : t.Right) (m : ModuleId) : (t.paths m).1 = t.hierarchy.pathsTo m := by
  obtain ⟨rank, R⟩ := H.ranked
  exact (collect_spec R (Nat.lt_succ_of_le (R.le m)) H.faithful).1

theorem Right.paths (H : t.Right) (m : ModuleId) : (t.paths m).2.Right := by
  obtain ⟨rank, R⟩ := H.ranked
  exact ⟨⟨rank, R⟩, (collect_spec R (Nat.lt_succ_of_le (R.le m)) H.faithful).2⟩

@[simp] theorem hierarchy_paths (t : PathTable) (m : ModuleId) :
    (t.paths m).2.hierarchy = t.hierarchy := rfl

/-- The table after the paths of some modules were asked for. -/
def asked (t : PathTable) (ms : List ModuleId) : PathTable := ms.foldl (fun t m => (t.paths m).2) t

@[simp] theorem hierarchy_asked (t : PathTable) (ms : List ModuleId) :
    (t.asked ms).hierarchy = t.hierarchy := by
  induction ms generalizing t with
  | nil => rfl
  | cons m ms ih => exact ih (t.paths m).2

theorem Right.asked (H : t.Right) (ms : List ModuleId) : (t.asked ms).Right := by
  induction ms generalizing t with
  | nil => exact H
  | cons m ms ih => exact ih (H.paths m)

end PathTable

end AnnotatedCircuit
