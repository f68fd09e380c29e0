import AnnotatedCircuit.Proofs.Design.CrossLinks
import AnnotatedCircuit.Proofs.Hierarchy.Chains
import AnnotatedCircuit.Proofs.Target.Path
import AnnotatedCircuit.Proofs.Target.Resolution

/-!
# Listed paths as targets

A chain of instances is rendered step by step, and a target path names it hop by hop. Both texts are
the same (`Design.Chain.exists_spelled`), so where names are plain and tell the entities of a module
apart, every listed path is a target that resolves to its own module, by its own instances
(`PathTable.paths_resolve`).
-/

namespace AnnotatedCircuit

/-- A name without the marks that part a target path. -/
def PlainName (name : String) : Prop := name ≠ "" ∧ Avoids name ['|', '/', ':', '.', '[', '>']

instance (name : String) : Decidable (PlainName name) :=
  inferInstanceAs (Decidable (_ ∧ _))

namespace Design

variable {d d' : Design} {a m m' : ModuleId} {x y : Module} {o : OpId} {op : Op} {p : InstPath}
  {name : String}

/-! ### Modules by their names -/

/-- The hierarchy finds every module by its name. -/
theorem Built.named (H : d.Built) (hx : d.module? m = some x) :
    d.hierarchy.named x.name = .ok m := by
  unfold Hierarchy.named
  have listed : (x.name, m) ∈ d.hierarchy.modules :=
    List.mem_map.mpr ⟨x, module?_mem hx, by rw [H.coherent.module_id hx]⟩
  cases found : d.hierarchy.modules.reverse.find? (·.1 == x.name) with
  | none =>
    have other := List.find?_eq_none.mp found _ (List.mem_reverse.mpr listed)
    exact absurd (beq_self_eq_true x.name) other
  | some e =>
    have he := List.mem_reverse.mp (List.mem_of_find?_eq_some found)
    obtain ⟨y, hy, rfl⟩ := List.mem_map.mp he
    have same : y.name = x.name := by simpa using List.find?_some found
    obtain rfl := List.inj_on_of_nodup_map H.nodup_names hy (module?_mem hx) same
    rw [H.coherent.module_id hx]

theorem namesOf_eq (hx : d.module? m = some x) :
    d.namesOf m = x.ports.map (·.name) ++ (x.body.filterMap d.entry?).map Prod.fst := by
  rw [namesOf, opsIn, hx, List.map_filterMap, List.filterMap_filterMap]
  refine congrArg (_ ++ List.filterMap · x.body) (funext fun o => ?_)
  rw [ entry?, Option.map_bind]
  cases d.op? o with
  | none => rfl
  | some op => cases h : op.kind.name? <;> simp [h]

/-- A declaration is found by its name, if no other entity of the module has it. -/
theorem denotes_of_nodup (H : d.Coherent) (hx : d.module? m = some x) (nodup : (d.namesOf m).Nodup)
    (ho : o ∈ x.body) (live : d.op? o = some op) (hn : op.kind.name? = some name) :
    d.Denotes m name (.op o) := by
  have entry : (name, Entity.op o) ∈ x.body.filterMap d.entry? := by
    refine List.mem_filterMap.mpr ⟨o, ho, ?_⟩
    rw [ entry?, live, Option.bind_some, hn, Option.map_some, H.op_id live]
  obtain ⟨-, declared, apart⟩ := List.nodup_append.mp (namesOf_eq hx ▸ nodup)
  refine denotes_iff.mpr ⟨x, hx, .inr ⟨fun h => ?_, OrderedMap.lookup_of_nodup declared entry⟩⟩
  exact apart _ h _ (List.mem_map_of_mem entry) rfl

/-- A design all of whose modules and instances can be named in target paths. -/
@[mk_iff]
structure Addressable (d : Design) : Prop where
  circuit : PlainName d.name
  module : ∀ x ∈ d.modules, PlainName x.name
  op : ∀ op ∈ d.liveOps, ∀ name ∈ op.kind.name?, PlainName name
  distinct : ∀ x ∈ d.modules, (d.namesOf x.id).Nodup

instance (d : Design) : Decidable d.Addressable := decidable_of_iff _ d.addressable_iff.symm

/-- A rendered path as the text of a target. -/
def targetText (d : Design) (rendered : String) : String := "~" ++ (d.name ++ "|" ++ rendered)

/-! ### Rendering and naming a chain -/

/-- A chain from `x` down to `y`, rendered step by step and named hop by hop. -/
structure Spelled (d : Design) (a : ModuleId) (x : Module) (p : InstPath) (m : ModuleId)
    (y : Module) (steps : List String) (hops : List Hop) : Prop where
  found : d.module? m = some y
  rendered : p.mapM d.renderStep = .ok steps
  text : x.name ++ String.join steps =
    String.join (hops.map fun h => h.module ++ "/" ++ h.inst ++ ":") ++ y.name
  formed : ∀ hop ∈ hops, hop.WellFormed
  route : ∀ reached : Option ModuleId, (∀ r ∈ reached, r = a) →
    ∃ last, TargetPath.Route d d.hierarchy reached hops p last ∧ ∀ r ∈ last, r = m

theorem Chain.exists_spelled (H : d.Built) (N : d.Addressable) (C : d.Chain a p m)
    (hx : d.module? a = some x) : ∃ y steps hops, d.Spelled a x p m y steps hops := by
  induction C generalizing x with
  | nil m =>
    exact ⟨x, [], [], hx, rfl, by simp, fun _ h => absurd h List.not_mem_nil,
      fun _ h => ⟨_, .nil _, h⟩⟩
  | @cons m c n x' o op p found inside live child _ ih =>
    obtain rfl := Option.some.inj (hx.symm.trans found)
    obtain ⟨name, kind⟩ := OpKind.exists_inst_of_child? child
    obtain ⟨xc, hc⟩ := H.childrenKnown live child
    obtain ⟨y, steps, hops, S⟩ := ih hc
    have plain : PlainName name := N.op op (mem_liveOps live) name (by rw [kind]; rfl)
    have hop : Hop.WellFormed ⟨x.name, name⟩ :=
      ⟨(N.module x (module?_mem hx)).imp_right (·.mono (by simp)),
        plain.imp_right (·.mono (by simp))⟩
    have step : d.renderStep o = .ok ("/" ++ name ++ ":" ++ xc.name) := by
      refine Checked.bind_eq_ok_iff.mpr ⟨op, op_eq_ok_iff.mpr live, ?_⟩
      rw [kind]
      dsimp only
      rw [moduleName, module_eq_ok_iff.mpr hc]
      rfl
    have denoted : d.Denotes m name (.op o) :=
      denotes_of_nodup H.coherent hx (H.coherent.module_id hx ▸ N.distinct x (module?_mem hx)) inside
        live (by rw [kind]; rfl)
    refine ⟨y, ("/" ++ name ++ ":" ++ xc.name) :: steps, ⟨x.name, name⟩ :: hops, S.found, ?_, ?_,
      List.forall_mem_cons.mpr ⟨hop, S.formed⟩, fun reached hreached => ?_⟩
    · rw [List.mapM_cons, step, S.rendered]
      rfl
    · have text := S.text
      simp only [String.join_cons, List.map_cons, String.append_assoc] at text ⊢
      rw [text]
    · obtain ⟨last, route, hlast⟩ := S.route (some c) (by simp)
      exact ⟨last, .cons ⟨⟨m, H.named hx, hreached, denoted⟩, op, live, child⟩ route, hlast⟩

open TargetPath in
/-- A chain from the top is rendered as the text of a target path, which resolves to the module that
the chain leads to, by the same instances. -/
theorem Chain.exists_path (H : d.Built) (N : d.Addressable) (C : d.Chain d.top p m) :
    ∃ rendered path, d.renderPath p = .ok rendered ∧ parse? (d.targetText rendered) = some path ∧
      path.Resolves d d.hierarchy ⟨.module m, 0, p⟩ := by
  obtain ⟨x, hx⟩ := H.coherent.top_module
  obtain ⟨y, steps, hops, S⟩ := C.exists_spelled H N hx
  obtain ⟨last, route, hlast⟩ := S.route none fun _ h => absurd h (Option.not_mem_none _)
  obtain ⟨named, avoids⟩ := N.module y (module?_mem S.found)
  have formed : TargetPath.WellFormed ⟨d.name, hops, some y.name, none, []⟩ :=
    { circuit := N.circuit.2.mono (by simp)
      hops := S.formed
      module := by
        rintro _ ⟨⟩
        exact ⟨named, avoids.mono (by simp)⟩
      name := fun _ h => absurd h (Option.not_mem_none _)
      accesses := fun _ h => absurd h List.not_mem_nil
      bare := fun h => absurd h (Option.some_ne_none _)
      nameless := fun _ => rfl }
  have written : render ⟨d.name, hops, some y.name, none, []⟩ =
      d.targetText (x.name ++ String.join steps) := by
    rw [S.text]
    simp [render, targetText, String.append_assoc]
  refine ⟨x.name ++ String.join steps, _, ?_, written ▸ parse?_render formed, ?_⟩
  · rw [renderPath, moduleName, module_eq_ok_iff.mpr hx, S.rendered]
    rfl
  · exact .entity (.inr rfl) rfl route (H.named S.found) hlast rfl (.other (by rintro _ ⟨⟩)) rfl

end Design

namespace PathTable

open TargetPath

variable {d : Design} {m : ModuleId} {p : InstPath}

theorem mem_paths_asked_iff (H : d.Built) (A : d.Acyclic) (before : List ModuleId) :
    p ∈ (((PathTable.ofHierarchy d.hierarchy).asked before).paths m).1 ↔ d.Chain d.top p m := by
  have C := H.coherent
  obtain ⟨rank, R⟩ := ((Design.acyclic_hierarchy_iff C).mpr A).exists_ranked
    (Design.closed_hierarchy C H.childrenKnown).enclosed
  rw [paths_eq ((Right.ofHierarchy R).asked before), hierarchy_asked]
  exact (Hierarchy.mem_pathsTo_iff R).trans (Design.route_hierarchy_iff C)

/-- The listed paths of a design with plain, distinct names are targets as they are rendered: each
resolves to its module, by its instances. So different paths are rendered differently. -/
theorem paths_resolve (H : d.Built) (A : d.Acyclic) (N : d.Addressable) (before : List ModuleId) :
    ∃ h, Hierarchy.ofDesign d = .ok h ∧ ∀ t, t = (PathTable.ofHierarchy h).asked before →
      (∀ m, ∀ p ∈ (t.paths m).1, ∃ rendered path, d.renderPath p = .ok rendered ∧
        canonical (d.targetText rendered) = d.targetText rendered ∧
        parse? (d.targetText rendered) = some path ∧
        ∀ tables, tables.Right d → ∃ tables',
          path.resolve d h (d.targetText rendered) tables = .ok ⟨.module m, 0, p⟩ tables') ∧
      ∀ m m' p p', p ∈ (t.paths m).1 → p' ∈ (t.paths m').1 →
        d.renderPath p = d.renderPath p' → p = p' := by
  refine ⟨d.hierarchy, Hierarchy.ofDesign_of_acyclic H A, ?_⟩
  rintro t rfl
  have spelled := fun {m p} hp =>
    ((mem_paths_asked_iff (m := m) (p := p) H A before).mp hp).exists_path H N
  constructor
  · intro m p hp
    obtain ⟨rendered, path, hr, hpath, resolves⟩ := spelled hp
    exact ⟨rendered, path, hr, canonical_tilde _, hpath, fun tables T =>
      ((resolve_answers _ path).answer T _).mpr resolves⟩
  · intro m m' p p' hp hp' e
    obtain ⟨rendered, path, hr, hpath, resolves⟩ := spelled hp
    obtain ⟨rendered', path', hr', hpath', resolves'⟩ := spelled hp'
    obtain rfl := Except.ok.inj (hr.symm.trans (e.trans hr'))
    obtain rfl := Option.some.inj (hpath.symm.trans hpath')
    -- One path resolves to one target.
    obtain ⟨tables, answer⟩ := ((resolve_answers "" path).answer (.empty d) _).mpr resolves
    obtain ⟨tables', answer'⟩ := ((resolve_answers "" path).answer (.empty d) _).mpr resolves'
    exact congrArg Target.route (EStateM.Result.ok.inj (answer.symm.trans answer')).1

theorem paths_resolve_manyPaths : manyPaths.Built ∧ manyPaths.Acyclic ∧ manyPaths.Addressable ∧
    ∃ h, Hierarchy.ofDesign manyPaths = .ok h ∧
      ∀ t, t = (PathTable.ofHierarchy h).asked [⟨1⟩] → ∃ rendered path,
        manyPaths.renderPath [⟨0⟩, ⟨2⟩] = .ok rendered ∧ rendered = "Top/a:A/c:B" ∧
        parse? (manyPaths.targetText rendered) = some path ∧
        ∃ tables, path.resolve manyPaths h (manyPaths.targetText rendered) .empty =
          .ok ⟨.module ⟨2⟩, 0, [⟨0⟩, ⟨2⟩]⟩ tables := by
  have H : manyPaths.Built := (Design.Built.new "Top").edited _
  have A : manyPaths.Acyclic := by
    rw [← Design.acyclic_hierarchy_iff H.coherent,
      ← Hierarchy.cycle?_eq_none_iff (Design.closed_hierarchy H.coherent H.childrenKnown).enclosed]
    decide +kernel
  have N : manyPaths.Addressable := by decide +kernel
  obtain ⟨h, hh, listed⟩ := paths_resolve H A N [⟨1⟩]
  refine ⟨H, A, N, h, hh, fun t ht => ?_⟩
  have hp : [⟨0⟩, ⟨2⟩] ∈ (t.paths ⟨2⟩).1 := by
    obtain rfl := Except.ok.inj (hh.symm.trans (Hierarchy.ofDesign_of_acyclic H A))
    subst ht
    decide +kernel
  obtain ⟨rendered, path, hr, -, hpath, resolves⟩ := (listed t ht).1 _ _ hp
  have text : manyPaths.renderPath [⟨0⟩, ⟨2⟩] = .ok "Top/a:A/c:B" := by decide +kernel
  exact ⟨rendered, path, hr, Except.ok.inj (hr.symm.trans text), hpath, resolves _ (.empty _)⟩

end PathTable

end AnnotatedCircuit
