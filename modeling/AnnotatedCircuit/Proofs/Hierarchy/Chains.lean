import Mathlib.Algebra.GroupWithZero.Nat
import AnnotatedCircuit.Proofs.Hierarchy.Acyclic
import AnnotatedCircuit.Proofs.Hierarchy.Trails

/-!
# The paths to a module are the chains of instances

A chain leads from a module down through live instances, each of which stands in the body of the
module that the one before it instantiates. In a built design without cycles the paths to a module
are the chains from the top to it, each of them once (`PathTable.paths_exact`).
-/

namespace AnnotatedCircuit

namespace Hierarchy

variable {h : Hierarchy} {rank : ModuleId → Nat} {m : ModuleId}

/-- Different instances of a module end different paths, and the paths to a parent differ already. -/
theorem nodup_pathsTo (R : h.Ranked rank) (P : h.Plain) (m : ModuleId) : (h.pathsTo m).Nodup := by
  generalize hn : rank m = n
  induction n using Nat.strongRecOn generalizing m with
  | ind n ih =>
    by_cases ht : m = h.top
    · rw [ht, pathsTo_top]
      exact List.nodup_singleton _
    rw [pathsTo_eq R ht, List.nodup_flatMap]
    refine ⟨fun s hs => ?_, ?_⟩
    · have hlt := R.lt_of_mem_uses hs
      exact (ih _ (hn ▸ hlt) _ rfl).map fun p q e => List.append_cancel_right e
    · have uses : (h.uses m).Pairwise fun s s' => s.op ≠ s'.op := by
        have nodup := P.nodup
        rw [sites, List.map_map] at nodup
        have sub : ((h.uses m).map Site.op).Sublist (h.edges.map (Site.op ∘ Edge.toSite)) := by
          rw [Hierarchy.uses, List.map_map]
          exact List.filter_sublist.map _
        exact List.pairwise_map.mp (sub.nodup nodup)
      refine uses.imp fun {s s'} hne p hp hp' => hne ?_
      obtain ⟨q, -, rfl⟩ := List.mem_map.mp hp
      obtain ⟨q', -, e⟩ := List.mem_map.mp hp'
      exact (List.singleton_inj.mp (List.append_inj' e rfl).2).symm

theorem length_pathsTo (R : h.Ranked rank) (hm : m ≠ h.top) :
    (h.pathsTo m).length = ((h.uses m).map fun s => (h.pathsTo s.parent).length).sum := by
  rw [pathsTo_eq R hm, List.length_flatMap]
  simp

end Hierarchy

namespace Design

variable {d : Design} {a m : ModuleId} {p : InstPath}

/-- A chain of live instances from one module down to another. -/
inductive Chain (d : Design) : ModuleId → List OpId → ModuleId → Prop where
  | nil (m : ModuleId) : Chain d m [] m
  | cons {m c n : ModuleId} {x : Module} {o : OpId} {op : Op} {p : List OpId}
    (found : d.module? m = some x) (inside : o ∈ x.body) (live : d.op? o = some op)
    (child : op.kind.child? = some c) (rest : Chain d c p n) : Chain d m (o :: p) n

theorem chain_iff (H : d.Coherent) :
    d.Chain a p m ↔ ∃ ss, d.hierarchy.Trail a ss m ∧ ss.map Site.op = p := by
  constructor
  · intro h
    induction h with
    | nil m => exact ⟨[], .nil m, rfl⟩
    | @cons m c n x o op p found inside live child _ ih =>
      obtain ⟨ss, T, rfl⟩ := ih
      obtain ⟨op', live', hp⟩ := (H.mem_body found).mp inside
      obtain rfl := Option.some.inj (live.symm.trans live')
      have site : (⟨o, m, c⟩ : Site) ∈ d.hierarchy.sites := by
        rw [sites_hierarchy]
        exact (mem_sites_iff H).mpr ⟨op, live, hp, child⟩
      exact ⟨_, .cons site T, rfl⟩
  · rintro ⟨ss, T, rfl⟩
    induction T with
    | nil m => exact .nil m
    | @cons s ss m site _ ih =>
      obtain ⟨op, live, hp, child⟩ := (mem_sites_iff H).mp (sites_hierarchy d ▸ site)
      obtain ⟨x, hx⟩ := H.parent_module live
      rw [hp] at hx
      exact .cons hx ((H.mem_body hx).mpr ⟨op, live, hp⟩) live child ih

/-- The routes of the hierarchy are the chains from the top. -/
theorem route_hierarchy_iff (H : d.Coherent) : d.hierarchy.Route p m ↔ d.Chain d.top p m := by
  rw [chain_iff H]
  constructor
  · exact Hierarchy.Route.exists_trail
  · rintro ⟨ss, T, rfl⟩
    exact T.route

end Design

namespace PathTable

variable {d : Design}

/-- Whatever was asked before, the paths to a module are the chains of instances from the top down
to it, each once: only the empty one for the top, none for a module that cannot be reached, and else
one for each use and each path to the module that uses it. -/
theorem paths_exact (H : d.Built) (A : d.Acyclic) (before : List ModuleId) :
    ∃ h, Hierarchy.ofDesign d = .ok h ∧ ∀ t, t = (PathTable.ofHierarchy h).asked before → ∀ m,
      (t.paths m).1.Nodup ∧ (∀ p, p ∈ (t.paths m).1 ↔ d.Chain d.top p m) ∧
      (m = d.top → (t.paths m).1 = [[]]) ∧
      ((∀ p, ¬ d.Chain d.top p m) → (t.paths m).1 = []) ∧
      (m ≠ d.top →
        (t.paths m).1.length = ((h.uses m).map fun s => (t.paths s.parent).1.length).sum) := by
  have C := H.coherent
  obtain ⟨rank, R⟩ := ((Design.acyclic_hierarchy_iff C).mpr A).exists_ranked
    (Design.closed_hierarchy C H.childrenKnown).enclosed
  refine ⟨d.hierarchy, Hierarchy.ofDesign_of_acyclic H A, ?_⟩
  rintro t rfl m
  have eq : ∀ m, (((PathTable.ofHierarchy d.hierarchy).asked before).paths m).1 =
      d.hierarchy.pathsTo m := by
    intro m
    rw [paths_eq ((Right.ofHierarchy R).asked before), hierarchy_asked]
    rfl
  have chains : ∀ p, p ∈ d.hierarchy.pathsTo m ↔ d.Chain d.top p m := fun p =>
    (Hierarchy.mem_pathsTo_iff R).trans (Design.route_hierarchy_iff C)
  simp only [eq]
  refine ⟨Hierarchy.nodup_pathsTo R (Design.plain_hierarchy C) m, chains, ?_, fun none => ?_,
    Hierarchy.length_pathsTo R⟩
  · rintro rfl
    exact Hierarchy.pathsTo_top
  · exact List.eq_nil_iff_forall_not_mem.mpr fun p hp => none p ((chains p).mp hp)

/-- The top module instantiates `A` twice, and `A` and the top module both instantiate `B`; a module
that nothing instantiates does, too, and holds an instance of the top module. -/
def manyPaths : Design := (Design.new "Top").edited
  [.newModule "A" .defined, .newModule "B" .defined, .newModule "U" .defined,
    .instantiate ⟨0⟩ "a" ⟨1⟩, .instantiate ⟨0⟩ "b" ⟨2⟩, .instantiate ⟨1⟩ "c" ⟨2⟩,
    .instantiate ⟨0⟩ "d" ⟨1⟩, .instantiate ⟨3⟩ "e" ⟨2⟩, .instantiate ⟨3⟩ "f" ⟨0⟩]

theorem paths_exact_manyPaths : manyPaths.Built ∧ manyPaths.Acyclic ∧
    ∃ h, Hierarchy.ofDesign manyPaths = .ok h ∧
      ∀ t, t = (PathTable.ofHierarchy h).asked [⟨1⟩] → (t.paths ⟨2⟩).1.Nodup ∧
        (∀ p, p ∈ (t.paths ⟨2⟩).1 ↔ manyPaths.Chain ⟨0⟩ p ⟨2⟩) ∧ (t.paths ⟨2⟩).1.length = 3 := by
  have H : manyPaths.Built := (Design.Built.new "Top").edited _
  have A : manyPaths.Acyclic := by
    rw [← Design.acyclic_hierarchy_iff H.coherent,
      ← Hierarchy.cycle?_eq_none_iff (Design.closed_hierarchy H.coherent H.childrenKnown).enclosed]
    decide +kernel
  obtain ⟨h, hh, exact⟩ := paths_exact H A [⟨1⟩]
  refine ⟨H, A, h, hh, fun t ht => ?_⟩
  obtain ⟨nodup, chains, -⟩ := exact t ht ⟨2⟩
  refine ⟨nodup, chains, ?_⟩
  have e : Hierarchy.ofDesign manyPaths = .ok manyPaths.hierarchy :=
    Hierarchy.ofDesign_of_acyclic H A
  obtain rfl := Except.ok.inj (e.symm.trans hh)
  subst ht
  decide +kernel

end PathTable

end AnnotatedCircuit
