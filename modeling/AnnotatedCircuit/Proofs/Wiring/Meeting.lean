import AnnotatedCircuit.Proofs.Hierarchy.Chains
import AnnotatedCircuit.Wiring.Plan

/-!
# Where two paths part

Any two paths share a longest beginning, behind which they part (`exists_parting`). The meeting of
two paths from the top is the module that the shared beginning leads to, with what is left of either
path (`meeting_of_route`). If both paths are the only ones to their modules, the two rests lead into
different modules all the way down (`meeting_exact`).
-/

namespace AnnotatedCircuit.Wiring

variable {h : Hierarchy} {a b m : ModuleId} {p q shared xs ys : InstPath} {ss ts : List Site}

/-- Two lists of instances do not begin with the same one. -/
def Part (xs ys : InstPath) : Prop := ∀ o ∈ xs.head?, o ∉ ys.head?

theorem Part.symm (parts : Part xs ys) : Part ys xs := fun o hy hx => parts o hx hy

theorem Part.sharedLength_eq (parts : Part xs ys) (p : InstPath) :
    sharedLength (p ++ xs) (p ++ ys) = p.length := by
  induction p with
  | nil =>
    cases xs with
    | nil => rfl
    | cons x xs =>
      cases ys with
      | nil => rfl
      | cons y ys =>
        have hne : x ≠ y := by
          rintro rfl
          exact parts x rfl rfl
        exact if_neg hne
  | cons o p ih =>
    rw [List.cons_append, List.cons_append, sharedLength, if_pos rfl, ih, List.length_cons]

theorem exists_parting (s t : InstPath) :
    ∃ shared xs ys, s = shared ++ xs ∧ t = shared ++ ys ∧ Part xs ys := by
  induction s generalizing t with
  | nil => exact ⟨[], [], t, rfl, rfl, nofun⟩
  | cons x s ih =>
    cases t with
    | nil => exact ⟨[], x :: s, [], rfl, rfl, fun _ _ => nofun⟩
    | cons y t =>
      by_cases e : x = y
      · subst e
        obtain ⟨shared, xs, ys, rfl, rfl, parts⟩ := ih t
        exact ⟨x :: shared, xs, ys, rfl, rfl, parts⟩
      · refine ⟨[], x :: s, y :: t, rfl, rfl, fun o hx hy => e ?_⟩
        exact (Option.some.inj hx).trans (Option.some.inj hy).symm

/-- Nothing longer is shared by two paths than what comes before they part. -/
theorem Part.prefix_of_prefix (parts : Part xs ys) (hs : p <+: shared ++ xs)
    (ht : p <+: shared ++ ys) : p <+: shared := by
  rcases List.prefix_or_prefix_of_prefix hs (List.prefix_append shared xs) with h | ⟨r, rfl⟩
  · exact h
  · have hx : r <+: xs := (List.prefix_append_right_inj shared).mp hs
    have hy : r <+: ys := (List.prefix_append_right_inj shared).mp ht
    cases r with
    | nil => rw [List.append_nil]
    | cons o r =>
      obtain ⟨xs, rfl⟩ := hx
      obtain ⟨ys, rfl⟩ := hy
      exact absurd rfl (parts o rfl)

/-- Two paths meet where their shared beginning leads. -/
theorem meeting_of_route (P : h.Plain) (H : h.Route shared m) (parts : Part xs ys) :
    meeting h (shared ++ xs) (shared ++ ys) = .ok ⟨m, xs, ys⟩ := by
  unfold meeting
  simp only [parts.sharedLength_eq, List.take_left, List.drop_left]
  cases H with
  | top => rfl
  | step _ site =>
    simp only [List.getLast?_concat, P.site_ok site]
    rfl

theorem route_of_append (H : h.Route (p ++ q) m) : ∃ a, h.Route p a := by
  obtain ⟨ss, T, e⟩ := H.exists_trail
  obtain ⟨ss, ts, rfl, rfl, -⟩ := List.map_eq_append_iff.mp e
  obtain ⟨a, T', -⟩ := T.split
  exact ⟨a, T'.route⟩

/-- The instances of trails that begin alike are the same as long as their operations are. -/
theorem exists_sites (P : h.Plain) (hss : ∀ s ∈ ss, s ∈ h.sites) (hts : ∀ s ∈ ts, s ∈ h.sites)
    (hs : ss.map Site.op = shared ++ xs) (ht : ts.map Site.op = shared ++ ys) :
    ∃ qs ss' ts', ss = qs ++ ss' ∧ ts = qs ++ ts' ∧ qs.map Site.op = shared ∧
      ss'.map Site.op = xs ∧ ts'.map Site.op = ys := by
  obtain ⟨qs, ss', rfl, hqs, rfl⟩ := List.map_eq_append_iff.mp hs
  obtain ⟨qs', ts', rfl, hqs', rfl⟩ := List.map_eq_append_iff.mp ht
  obtain rfl : qs = qs' := P.sites_eq (List.forall_mem_append.mp hss).1
    (List.forall_mem_append.mp hts).1 (hqs.trans hqs'.symm)
  exact ⟨qs, ss', ts', rfl, rfl, hqs, rfl, rfl⟩

theorem Part.ne_of_head (parts : Part (ss.map Site.op) (ts.map Site.op)) :
    ∀ x ∈ ss.head?, ∀ y ∈ ts.head?, x ≠ y := by
  rintro x hx _ hy rfl
  apply parts x.op
  · rw [List.head?_map, hx]
    rfl
  · rw [List.head?_map, hy]
    rfl

/-- Where the only trails to two modules have parted, they do not lead into the same module. -/
theorem children_ne {o o' : OpId} (P : h.Plain) (H : h.Sole ss a) (H' : h.Sole ts b)
    (hs : ss.map Site.op = shared ++ xs) (ht : ts.map Site.op = shared ++ ys)
    (parts : Part xs ys) (ho : o ∈ xs) (ho' : o' ∈ ys) :
    ∃ x ∈ h.sites, ∃ y ∈ h.sites, x.op = o ∧ y.op = o' ∧ x.child ≠ y.child := by
  obtain ⟨qs, ss, ts, rfl, rfl, -, rfl, rfl⟩ := exists_sites P H.trail.sites H'.trail.sites hs ht
  obtain ⟨x, hx, rfl⟩ := List.mem_map.mp ho
  obtain ⟨y, hy, rfl⟩ := List.mem_map.mp ho'
  refine ⟨x, H.trail.sites x (List.mem_append_right _ hx), y,
    H'.trail.sites y (List.mem_append_right _ hy), rfl, rfl, fun e => ?_⟩
  exact H.disjoint H' parts.ne_of_head (List.mem_map_of_mem hx) (e ▸ List.mem_map_of_mem hy)

/-- Any paths to any two modules have a meeting, whatever was asked before: the module that all they
share leads to, with what is left of either. It does not depend on their order, and where they are
the only paths to their modules, no module is entered on both sides. -/
theorem meeting_exact {d : Design} (H : d.Built) (A : d.Acyclic) (before : List ModuleId) :
    ∃ h, Hierarchy.ofDesign d = .ok h ∧ ∀ t, t = (PathTable.ofHierarchy h).asked before →
      ∀ a b s u, s ∈ (t.paths a).1 → u ∈ (t.paths b).1 → ∃ w shared,
        meeting h s u = .ok w ∧ s = shared ++ w.sources ∧ u = shared ++ w.sinks ∧
        shared ∈ (t.paths w.module).1 ∧ (∀ o ∈ w.sources.head?, o ∉ w.sinks.head?) ∧
        (∀ p, p <+: s → p <+: u → p <+: shared) ∧
        meeting h u s = .ok ⟨w.module, w.sinks, w.sources⟩ ∧
        ((t.paths a).1 = [s] → (t.paths b).1 = [u] → ∀ o ∈ w.sources, ∀ o' ∈ w.sinks,
          ∃ op c op' c', d.op? o = some op ∧ op.kind.child? = some c ∧
            d.op? o' = some op' ∧ op'.kind.child? = some c' ∧ c ≠ c') := by
  have C := H.coherent
  have P := Design.plain_hierarchy C
  obtain ⟨rank, R⟩ := ((Design.acyclic_hierarchy_iff C).mpr A).exists_ranked
    (Design.closed_hierarchy C H.childrenKnown).enclosed
  refine ⟨d.hierarchy, Hierarchy.ofDesign_of_acyclic H A, ?_⟩
  rintro t rfl a b s u hs hu
  have eq : ∀ m, (((PathTable.ofHierarchy d.hierarchy).asked before).paths m).1 =
      d.hierarchy.pathsTo m := by
    intro m
    rw [PathTable.paths_eq ((PathTable.Right.ofHierarchy R).asked before),
      PathTable.hierarchy_asked]
    rfl
  rw [eq, Hierarchy.mem_pathsTo_iff R] at hs hu
  obtain ⟨shared, xs, ys, rfl, rfl, parts⟩ := exists_parting s u
  obtain ⟨m, Rm⟩ := route_of_append hs
  refine ⟨⟨m, xs, ys⟩, shared, meeting_of_route P Rm parts, rfl, rfl, ?_, parts,
    fun p => parts.prefix_of_prefix, meeting_of_route P Rm parts.symm, ?_⟩
  · rw [eq]
    exact (Hierarchy.mem_pathsTo_iff R).mpr Rm
  · rw [eq, eq]
    intro only only' o ho o' ho'
    obtain ⟨ss, S, hss⟩ := Hierarchy.exists_sole R P only
    obtain ⟨ts, T, hts⟩ := Hierarchy.exists_sole R P only'
    obtain ⟨x, hx, y, hy, rfl, rfl, hne⟩ := children_ne P S T hss hts parts ho ho'
    rw [Design.sites_hierarchy] at hx hy
    obtain ⟨op, live, -, child⟩ := (Design.mem_sites_iff C).mp hx
    obtain ⟨op', live', -, child'⟩ := (Design.mem_sites_iff C).mp hy
    exact ⟨op, x.child, op', y.child, live, child, live', child', hne⟩

/-- The top module instantiates `A`, which instantiates `B` and `C`; `B` instantiates `D`. -/
def twoSides : Design := (Design.new "Top").edited
  [.newModule "A" .defined, .newModule "B" .defined, .newModule "C" .defined,
    .newModule "D" .defined, .instantiate ⟨2⟩ "d" ⟨4⟩, .instantiate ⟨1⟩ "b" ⟨2⟩,
    .instantiate ⟨1⟩ "c" ⟨3⟩, .instantiate ⟨0⟩ "a" ⟨1⟩]

theorem meeting_exact_twoSides : twoSides.Built ∧ twoSides.Acyclic ∧
    ∃ h, Hierarchy.ofDesign twoSides = .ok h ∧
      (((PathTable.ofHierarchy h).asked [⟨2⟩]).paths ⟨4⟩).1 = [[⟨3⟩, ⟨1⟩, ⟨0⟩]] ∧
      (((PathTable.ofHierarchy h).asked [⟨2⟩]).paths ⟨3⟩).1 = [[⟨3⟩, ⟨2⟩]] ∧
      meeting h [⟨3⟩, ⟨1⟩, ⟨0⟩] [⟨3⟩, ⟨2⟩] = .ok ⟨⟨1⟩, [⟨1⟩, ⟨0⟩], [⟨2⟩]⟩ ∧
      meeting h [⟨3⟩, ⟨2⟩] [⟨3⟩, ⟨1⟩, ⟨0⟩] = .ok ⟨⟨1⟩, [⟨2⟩], [⟨1⟩, ⟨0⟩]⟩ ∧
      [⟨3⟩] ∈ (((PathTable.ofHierarchy h).asked [⟨2⟩]).paths ⟨1⟩).1 ∧
      ∃ op c op' c', twoSides.op? ⟨0⟩ = some op ∧ op.kind.child? = some c ∧
        twoSides.op? ⟨2⟩ = some op' ∧ op'.kind.child? = some c' ∧ c ≠ c' := by
  have H : twoSides.Built := (Design.Built.new "Top").edited _
  have A : twoSides.Acyclic :=
    (Design.acyclic_iff H.coherent H.childrenKnown).mpr (by decide +kernel)
  obtain ⟨h, hh, exact⟩ := meeting_exact H A [⟨2⟩]
  obtain rfl := Except.ok.inj ((Hierarchy.ofDesign_of_acyclic H A).symm.trans hh)
  have paths : (((PathTable.ofHierarchy twoSides.hierarchy).asked [⟨2⟩]).paths ⟨4⟩).1 =
      [[⟨3⟩, ⟨1⟩, ⟨0⟩]] := by decide +kernel
  have paths' : (((PathTable.ofHierarchy twoSides.hierarchy).asked [⟨2⟩]).paths ⟨3⟩).1 =
      [[⟨3⟩, ⟨2⟩]] := by decide +kernel
  obtain ⟨w, shared, met, hs, -, reached, -, -, swapped, apart⟩ := exact _ rfl ⟨4⟩ ⟨3⟩
    [⟨3⟩, ⟨1⟩, ⟨0⟩] [⟨3⟩, ⟨2⟩] (by simp [paths]) (by simp [paths'])
  have found : meeting twoSides.hierarchy [⟨3⟩, ⟨1⟩, ⟨0⟩] [⟨3⟩, ⟨2⟩] =
      .ok ⟨⟨1⟩, [⟨1⟩, ⟨0⟩], [⟨2⟩]⟩ := by decide +kernel
  obtain rfl := Except.ok.inj (met.symm.trans found)
  obtain rfl : shared = [⟨3⟩] :=
    (List.append_cancel_right (hs : [⟨3⟩] ++ [⟨1⟩, ⟨0⟩] = shared ++ [⟨1⟩, ⟨0⟩])).symm
  exact ⟨H, A, _, hh, paths, paths', met, swapped, reached,
    apart paths paths' ⟨0⟩ (by decide) ⟨2⟩ (by decide)⟩

end AnnotatedCircuit.Wiring
