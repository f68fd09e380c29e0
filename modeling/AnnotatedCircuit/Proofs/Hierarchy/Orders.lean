import AnnotatedCircuit.Proofs.Hierarchy.Chains
import AnnotatedCircuit.Proofs.Hierarchy.Stack

/-!
# The order of the modules

The first search starts at the top. It leaves the modules that the top reaches, and the top as the
last of them (`Hierarchy.childrenFirst_reached`); the searches that follow leave the others. No
replacement of an instance changes the order, be its new operation in use or not
(`Hierarchy.alike_of_replace`). So much is known of it, in terms of the design, at any time
(`Hierarchy.childrenFirst_exact`).
-/

namespace AnnotatedCircuit

namespace Hierarchy

variable {h h' : Hierarchy} {rank : ModuleId → Nat} {m a : ModuleId} {l : List ModuleId}
  {old new : OpId}

/-! ### Replacements -/

theorem Alike.closed (A : h.Alike h') (C : h.Closed) : h'.Closed := by
  have ends : ∀ {e}, e ∈ h'.edges → e.parent ∈ h.ids ∧ e.child ∈ h.ids := by
    intro e he
    have : e.ends ∈ h'.sites.map Site.ends := List.mem_map_of_mem (List.mem_map_of_mem he)
    rw [A.shape, sites, List.map_map] at this
    obtain ⟨e₀, he₀, same⟩ := List.mem_map.mp this
    obtain ⟨parent, child⟩ := Prod.mk.inj same
    exact ⟨parent ▸ C.parent he₀, child ▸ C.child he₀⟩
  exact ⟨A.ids ▸ C.nodup, A.ids ▸ A.top ▸ C.top, fun he => A.ids ▸ (ends he).1,
    fun he => A.ids ▸ (ends he).2⟩

theorem alike_of_replace (hh : h.replace old new = .ok h') : h.Alike h' := by
  obtain ⟨_, -, hh⟩ := Checked.bind_eq_ok_iff.mp hh
  obtain rfl := Checked.pure_eq_ok_iff.mp hh
  refine ⟨rfl, rfl, ?_⟩
  simp only [sites, List.map_map]
  refine List.map_congr_left fun e _ => ?_
  simp only [Function.comp_apply]
  split <;> rfl

/-- The hierarchy after replacements of instances. One that fails leaves it as it is. -/
def replaced (h : Hierarchy) : List (OpId × OpId) → Hierarchy
  | [] => h
  | (old, new) :: rs =>
    match h.replace old new with
    | .ok h' => h'.replaced rs
    | .error _ => h.replaced rs

theorem alike_replaced (h : Hierarchy) (rs : List (OpId × OpId)) : h.Alike (h.replaced rs) := by
  induction rs generalizing h with
  | nil => exact .refl h
  | cons r rs ih =>
    obtain ⟨old, new⟩ := r
    rw [replaced]
    split
    · rename_i h' hh
      exact (alike_of_replace hh).trans (ih h')
    · exact ih h

/-! ### The modules that the top reaches -/

/-- With a module, the list holds all that the module reaches. -/
theorem ChildrenFirst.mem_of_reaches (H : h.ChildrenFirst l) (ha : a ∈ l) (reach : h.Reaches a m) :
    m ∈ l := by
  induction reach with
  | refl => exact ha
  | tail _ hc ih =>
    obtain ⟨pre, post, e⟩ := List.append_of_mem ih
    exact e ▸ List.mem_append_left _ (H pre _ post e _ hc)

/-- A search from the top leaves what the top reaches, and the top at last. -/
theorem walk_top (R : h.Ranked rank) :
    ∃ pre, (h.walk [h.top] ⟨[], []⟩).finished = pre ++ [h.top] ∧
      ∀ m, m ∈ pre ++ [h.top] ↔ h.Reaches h.top m := by
  obtain ⟨pre, H, reached, -⟩ := foldl_visit_adds (S := h.Reaches h.top)
    (fun _ hm _ hc => hm.tail hc) h.modules.length (h.children h.top) (fun _ hc => .single hc)
    ⟨[h.top], []⟩
  have left : (h.walk [h.top] ⟨[], []⟩).finished = pre ++ [h.top] := by
    rw [walk, List.foldl_cons, List.foldl_nil, fuel, visit, if_neg (by simp)]
    exact congrArg (· ++ [h.top]) H.finished
  refine ⟨pre, left, fun m => ⟨fun hm => ?_, fun reach => ?_⟩⟩
  · rcases List.mem_append.mp hm with hm | hm
    · exact reached m hm
    · exact List.mem_singleton.mp hm ▸ .refl
  · have ordered := (walk_tidy R [h.top] (w := ⟨[], []⟩) ⟨.nil, by simp⟩).ordered
    exact (left ▸ ordered).mem_of_reaches (by simp) reach

/-- The order starts with what the top reaches. -/
theorem childrenFirst_reached (C : h.Closed) (R : h.Ranked rank) :
    ∃ pre post, h.childrenFirst = pre ++ h.top :: post ∧
      ∀ m, m ∈ pre ++ [h.top] ↔ h.Reaches h.top m := by
  obtain ⟨pre, left, reached⟩ := walk_top R
  obtain ⟨post, H, -⟩ := walk_adds C.children h.ids (fun _ => id) (h.walk [h.top] ⟨[], []⟩)
  refine ⟨pre, post, ?_, reached⟩
  rw [childrenFirst_eq C, H.finished, left, List.append_assoc, List.singleton_append]

end Hierarchy

theorem Design.reaches_hierarchy_iff {d : Design} {m c : ModuleId} (H : d.Coherent) :
    d.hierarchy.Reaches m c ↔ Relation.ReflTransGen d.Instantiates m c := by
  have : d.Instantiates = fun a b => b ∈ d.hierarchy.children a := by
    funext m c
    exact propext (Design.instantiates_iff H)
  rw [this]
  rfl

namespace Hierarchy

variable {d : Design}

/-- Whatever instances were replaced before, a search with a stack leaves the modules of a built
design without cycles in an order that lists every module once and behind all that it instantiates,
the modules that the top reaches before the others, and the top as the last of them. -/
theorem childrenFirst_exact (H : d.Built) (A : d.Acyclic) (rs : List (OpId × OpId)) :
    ∃ h, ofDesign d = .ok h ∧
      (∀ m c, c ∈ (h.replaced rs).children m ↔ d.Instantiates m c) ∧
      ∀ order, order = (h.replaced rs).childrenFirst →
        (∃ w : Walk, (h.replaced rs).RunsOn ⟨h.top :: h.ids, [], ⟨[], []⟩⟩ ⟨[], [], w⟩ ∧
          w.finished = order) ∧
        order.Nodup ∧ (∀ m, m ∈ order ↔ ∃ x, d.module? m = some x) ∧
        (∀ pre m post, order = pre ++ m :: post → ∀ c, d.Instantiates m c → c ∈ pre) ∧
        ∃ pre post, order = pre ++ d.top :: post ∧
          ∀ m, m ∈ pre ++ [d.top] ↔ Relation.ReflTransGen d.Instantiates d.top m := by
  have C := H.coherent
  have closed := Design.closed_hierarchy C H.childrenKnown
  obtain ⟨rank, R⟩ := ((Design.acyclic_hierarchy_iff C).mpr A).exists_ranked closed.enclosed
  have alike := d.hierarchy.alike_replaced rs
  refine ⟨d.hierarchy, ofDesign_of_acyclic H A, fun m c => ?_, ?_⟩
  · rw [alike.children, Design.instantiates_iff C]
  rintro order rfl
  have run := runsOn_childrenFirst (alike.closed closed)
  rw [alike.ids, alike.top] at run
  refine ⟨run, ?_⟩
  rw [alike.childrenFirst]
  refine ⟨nodup_childrenFirst closed, fun m => ?_, fun pre m post e c hc => ?_, ?_⟩
  · rw [mem_childrenFirst closed, Design.mem_ids_hierarchy C]
  · exact childrenFirst_ordered closed R pre m post e c ((Design.instantiates_iff C).mp hc)
  · obtain ⟨pre, post, e, reached⟩ := childrenFirst_reached closed R
    exact ⟨pre, post, e, fun m => (reached m).trans (Design.reaches_hierarchy_iff C)⟩

/-- The module `U` holds instances of `B` and of the top module, and nothing holds one of it. Three
instances are replaced: one by an operation that is in use, one that the hierarchy has no more, and
one by itself. -/
theorem childrenFirst_exact_manyPaths : PathTable.manyPaths.Built ∧ PathTable.manyPaths.Acyclic ∧
    ∃ h, ofDesign PathTable.manyPaths = .ok h ∧
      ∃ order, order = (h.replaced [(⟨0⟩, ⟨1⟩), (⟨0⟩, ⟨6⟩), (⟨2⟩, ⟨2⟩)]).childrenFirst ∧
        order.Nodup ∧ (∀ m, m ∈ order ↔ ∃ x, PathTable.manyPaths.module? m = some x) ∧
        order = [⟨2⟩, ⟨1⟩, ⟨0⟩, ⟨3⟩] := by
  have H : PathTable.manyPaths.Built := (Design.Built.new "Top").edited _
  have A : PathTable.manyPaths.Acyclic :=
    (Design.acyclic_iff H.coherent H.childrenKnown).mpr (by decide +kernel)
  obtain ⟨h, hh, -, exact⟩ := childrenFirst_exact H A [(⟨0⟩, ⟨1⟩), (⟨0⟩, ⟨6⟩), (⟨2⟩, ⟨2⟩)]
  obtain ⟨-, nodup, all, -⟩ := exact _ rfl
  refine ⟨H, A, h, hh, _, rfl, nodup, all, ?_⟩
  have e : ofDesign PathTable.manyPaths = .ok PathTable.manyPaths.hierarchy :=
    ofDesign_of_acyclic H A
  obtain rfl := Except.ok.inj (e.symm.trans hh)
  decide +kernel

end Hierarchy

end AnnotatedCircuit
