import AnnotatedCircuit.Proofs.Design.Verified
import AnnotatedCircuit.Proofs.Hierarchy.Replacement

/-!
# The hierarchy of a design

`Design.sites` lists the instances of a design module by module, in the order of the bodies. The
hierarchy of a coherent design has one plain edge for each of them (`ofDesign_eq_ok_iff`).
-/

namespace AnnotatedCircuit

namespace Design

variable {d d' : Design} {m : ModuleId} {x : Module} {o : OpId} {op : Op} {s : Site}

/-- An operation as an instance in a module. -/
def siteAt (d : Design) (m : ModuleId) (o : OpId) : Option Site :=
  (d.op? o).bind fun op => op.kind.child?.map fun c => ⟨o, m, c⟩

/-- The instances of all bodies. -/
def sites (d : Design) : List Site := d.modules.flatMap fun x => x.body.filterMap (d.siteAt x.id)

theorem siteAt_eq_some_iff : d.siteAt m o = some s ↔
    s.op = o ∧ s.parent = m ∧ ∃ op, d.op? o = some op ∧ op.kind.child? = some s.child := by
  obtain ⟨o', m', c⟩ := s
  simp only [siteAt, Option.bind_eq_some_iff, Option.map_eq_some_iff, Site.mk.injEq]
  constructor
  · rintro ⟨op, ho, _, hc, rfl, rfl, rfl⟩
    exact ⟨rfl, rfl, op, ho, hc⟩
  · rintro ⟨rfl, rfl, op, ho, hc⟩
    exact ⟨op, ho, c, hc, rfl, rfl, rfl⟩

theorem mem_modules_iff (H : d.Coherent) : x ∈ d.modules ↔ d.module? x.id = some x := by
  refine ⟨fun hx => ?_, module?_mem⟩
  obtain ⟨i, hi⟩ := List.mem_iff_getElem?.mp hx
  have hm : d.module? ⟨i⟩ = some x := hi
  rwa [H.module_id hm]

theorem mem_sites_iff (H : d.Coherent) : s ∈ d.sites ↔
    ∃ op, d.op? s.op = some op ∧ op.parent = s.parent ∧ op.kind.child? = some s.child := by
  simp only [sites, List.mem_flatMap, List.mem_filterMap, siteAt_eq_some_iff]
  constructor
  · rintro ⟨x, hx, o, ho, rfl, hp, op, hop, hc⟩
    obtain ⟨op', hop', hp'⟩ := (H.mem_body ((mem_modules_iff H).mp hx)).mp ho
    rw [hop] at hop'
    cases hop'
    exact ⟨op, hop, hp'.trans hp.symm, hc⟩
  · rintro ⟨op, hop, hp, hc⟩
    obtain ⟨x, hx⟩ := H.parent_module hop
    exact ⟨x, module?_mem hx, s.op, (H.mem_body hx).mpr ⟨op, hop, rfl⟩, rfl,
      hp.symm.trans (H.module_id hx).symm, op, hop, hc⟩

theorem nodup_sites (H : d.Coherent) : (d.sites.map Site.op).Nodup := by
  have hsub : ∀ x : Module, ((x.body.filterMap (d.siteAt x.id)).map Site.op).Sublist x.body := by
    intro x
    induction x.body with
    | nil => exact .slnil
    | cons o body ih =>
      rw [List.filterMap_cons]
      cases hs : d.siteAt x.id o with
      | none => exact .cons _ ih
      | some s =>
        rw [List.map_cons, (siteAt_eq_some_iff.mp hs).1]
        exact .cons_cons _ ih
  rw [sites, List.map_flatMap, List.nodup_flatMap]
  refine ⟨fun x hx => (hsub x).nodup (H.nodup_body ((mem_modules_iff H).mp hx)), ?_⟩
  rw [List.pairwise_iff_getElem]
  intro i j hi hj hij o ho ho'
  have mi : d.module? ⟨i⟩ = some d.modules[i] := List.getElem?_eq_getElem hi
  have mj : d.module? ⟨j⟩ = some d.modules[j] := List.getElem?_eq_getElem hj
  obtain ⟨op, hop, hp⟩ := (H.mem_body mi).mp ((hsub _).subset ho)
  obtain ⟨op', hop', hp'⟩ := (H.mem_body mj).mp ((hsub _).subset ho')
  rw [hop] at hop'
  cases hop'
  rw [hp] at hp'
  exact absurd (ModuleId.mk.inj hp') (Nat.ne_of_lt hij)

/-- The hierarchy of a design, with or without cycles. -/
def hierarchy (d : Design) : Hierarchy :=
  ⟨d.top, d.modules.map fun x => (x.name, x.id), d.sites.map fun s => ⟨s, true⟩⟩

@[simp] theorem sites_hierarchy (d : Design) : d.hierarchy.sites = d.sites := by
  simp [hierarchy, Hierarchy.sites, Function.comp_def]

theorem plain_hierarchy (H : d.Coherent) : d.hierarchy.Plain where
  current {e} he := by
    obtain ⟨s, -, rfl⟩ := List.mem_map.mp he
    rfl
  nodup := by
    rw [sites_hierarchy]
    exact nodup_sites H

theorem mem_ids_hierarchy (H : d.Coherent) : m ∈ d.hierarchy.ids ↔ ∃ x, d.module? m = some x := by
  simp only [hierarchy, Hierarchy.ids, List.map_map, List.mem_map, Function.comp_apply]
  constructor
  · rintro ⟨x, hx, rfl⟩
    exact ⟨x, (mem_modules_iff H).mp hx⟩
  · rintro ⟨x, hx⟩
    exact ⟨x, module?_mem hx, H.module_id hx⟩

/-- Every instance instantiates a module of the design. -/
def ChildrenKnown (d : Design) : Prop :=
  ∀ {o op c}, d.op? o = some op → op.kind.child? = some c → ∃ x, d.module? c = some x

theorem Fits.childrenKnown {lag : OpId → Nat} (F : d.Fits lag) : d.ChildrenKnown :=
  fun ho hc => (F ho hc).imp fun _ => And.left

theorem closed_hierarchy (H : d.Coherent) (K : d.ChildrenKnown) : d.hierarchy.Closed where
  nodup := by
    have : d.hierarchy.ids = d.modules.mapIdx fun i _ => ⟨i⟩ := by
      apply List.ext_getElem (by simp [hierarchy, Hierarchy.ids])
      intro i hi _
      have hi' : i < d.modules.length := by simpa [hierarchy, Hierarchy.ids] using hi
      have hx : d.module? ⟨i⟩ = some d.modules[i] := List.getElem?_eq_getElem hi'
      simpa [hierarchy, Hierarchy.ids] using H.module_id hx
    rw [this, List.nodup_iff_injective_getElem]
    intro a b e
    simpa [Fin.ext_iff] using e
  top := (mem_ids_hierarchy H).mpr H.top_module
  parent {e} he := by
    obtain ⟨s, hs, rfl⟩ := List.mem_map.mp he
    obtain ⟨op, hop, hp, -⟩ := (mem_sites_iff H).mp hs
    exact (mem_ids_hierarchy H).mpr (hp ▸ H.parent_module hop)
  child {e} he := by
    obtain ⟨s, hs, rfl⟩ := List.mem_map.mp he
    obtain ⟨op, hop, -, hc⟩ := (mem_sites_iff H).mp hs
    exact (mem_ids_hierarchy H).mpr (K hop hc)

end Design

namespace Hierarchy

variable {d : Design} {h : Hierarchy}

open Design

theorem foldl_enter (ss : List Site) (es : List Edge)
    (nodup : (es.map (fun e => e.op) ++ ss.map Site.op).Nodup) :
    ss.foldl enter es = es ++ ss.map fun s => ⟨s, true⟩ := by
  induction ss generalizing es with
  | nil => simp
  | cons s ss ih =>
    have hes : enter es s = es ++ [⟨s, true⟩] := by
      refine congrArg (· ++ _) (List.map_congr_left (g := id) fun e he => ?_) |>.trans (by simp)
      have : e.op ≠ s.op := fun h => (List.nodup_append.mp nodup).2.2 _
        (List.mem_map_of_mem he) _ List.mem_cons_self h
      simp [this]
    rw [List.foldl_cons, hes, ih _ (by simpa using nodup)]
    simp

theorem any_module_iff (H : d.Coherent) {c : ModuleId} :
    d.modules.any (·.id == c) = true ↔ ∃ x, d.module? c = some x := by
  simp only [List.any_eq_true, beq_iff_eq]
  constructor
  · rintro ⟨x, hx, rfl⟩
    exact ⟨x, (mem_modules_iff H).mp hx⟩
  · rintro ⟨x, hx⟩
    exact ⟨x, module?_mem hx, H.module_id hx⟩

theorem mem_instancesIn_iff {x : Module} (hx : d.module? m = some x) {op : Op} :
    op ∈ d.instancesIn m ↔ (∃ o ∈ x.body, d.op? o = some op) ∧ ∃ c, op.kind.child? = some c := by
  simp only [instancesIn, opsIn, hx, Option.map_some, Option.getD_some, List.mem_filter,
    List.mem_filterMap, Option.isSome_iff_exists]

/-- An operation as an edge, if it is an instance. -/
def edgeOf (m : ModuleId) (op : Op) : Option Site := op.kind.child?.map fun c => ⟨op.id, m, c⟩

theorem filterMap_instancesIn (H : d.Coherent) {x : Module} (hx : d.module? m = some x) :
    (d.instancesIn m).filterMap (edgeOf m) = x.body.filterMap (d.siteAt m) := by
  simp only [instancesIn, opsIn, hx, Option.map_some, Option.getD_some, List.filterMap_filter,
    List.filterMap_filterMap]
  apply List.filterMap_congr
  intro o _
  cases ho : d.op? o with
  | none => simp [siteAt, ho]
  | some op => cases hc : op.kind.child? <;> simp [siteAt, edgeOf, ho, hc, H.op_id ho]

/-- The instances of a body are entered when every child is a module of the design. -/
theorem sitesIn_eq_ok_iff_known {x : Module} {ss : List Site} : sitesIn d x = .ok ss ↔
    (∀ op ∈ d.instancesIn x.id, ∀ c, op.kind.child? = some c →
      d.modules.any (·.id == c) = true) ∧ ss = (d.instancesIn x.id).filterMap (edgeOf x.id) := by
  unfold sitesIn
  refine (Checked.filterMapM_eq_ok_iff (g := edgeOf x.id) fun op s h => ?_).trans ?_
  · unfold edgeOf
    cases hc : op.kind.child? with
    | none =>
      rw [hc] at h
      exact (Except.ok.inj h).symm
    | some c =>
      rw [hc] at h
      dsimp only at h
      split at h
      · exact (Except.ok.inj h).symm
      · cases h
  apply and_congr_left
  intro _
  refine forall₂_congr fun op _ => ?_
  cases hc : op.kind.child? with
  | none => simp
  | some c =>
    simp only [Option.some.injEq, forall_eq']
    split
    · exact iff_of_true ⟨_, rfl⟩ ‹_›
    · exact iff_of_false (fun ⟨_, h⟩ => nomatch h) ‹_›

theorem sitesIn_eq_ok_iff (H : d.Coherent) {x : Module} (hx : d.module? x.id = some x)
    {ss : List Site} : sitesIn d x = .ok ss ↔
      (∀ o ∈ x.body, ∀ op, d.op? o = some op → ∀ c, op.kind.child? = some c →
        ∃ y, d.module? c = some y) ∧ ss = x.body.filterMap (d.siteAt x.id) := by
  rw [sitesIn_eq_ok_iff_known, filterMap_instancesIn H hx]
  apply and_congr_left
  intro _
  constructor
  · intro h o ho op hop c hc
    exact (any_module_iff H).mp (h op ((mem_instancesIn_iff hx).mpr ⟨⟨o, ho, hop⟩, c, hc⟩) c hc)
  · intro h op hop c hc
    obtain ⟨⟨o, ho, hop⟩, -⟩ := (mem_instancesIn_iff hx).mp hop
    exact (any_module_iff H).mpr (h o ho op hop c hc)

theorem mapM_sitesIn_eq_ok_iff (H : d.Coherent) {l : List Module}
    (hl : ∀ x ∈ l, d.module? x.id = some x) {sss : List (List Site)} :
    l.mapM (sitesIn d) = .ok sss ↔ (∀ x ∈ l, ∀ o ∈ x.body, ∀ op, d.op? o = some op →
        ∀ c, op.kind.child? = some c → ∃ y, d.module? c = some y) ∧
      sss = l.map fun x => x.body.filterMap (d.siteAt x.id) := by
  rw [Checked.mapM_eq_ok_iff]
  induction l generalizing sss with
  | nil => simp [List.forall₂_nil_left_iff]
  | cons x l ih =>
    obtain ⟨hx, hl⟩ := List.forall_mem_cons.mp hl
    rw [List.forall₂_cons_left_iff, List.forall_mem_cons]
    constructor
    · rintro ⟨ss, sss, hs, hss, rfl⟩
      obtain ⟨known, rfl⟩ := (sitesIn_eq_ok_iff H hx).mp hs
      obtain ⟨known', rfl⟩ := (ih hl).mp hss
      exact ⟨⟨known, known'⟩, rfl⟩
    · rintro ⟨⟨known, known'⟩, rfl⟩
      exact ⟨_, _, (sitesIn_eq_ok_iff H hx).mpr ⟨known, rfl⟩, (ih hl).mpr ⟨known', rfl⟩, rfl⟩

theorem foldl_enter_sites (H : d.Coherent) :
    (d.modules.map fun x => x.body.filterMap (d.siteAt x.id)).flatten.foldl enter [] =
      d.sites.map fun s => ⟨s, true⟩ := by
  rw [← List.flatMap_def]
  exact (foldl_enter d.sites [] (by simpa using nodup_sites H)).trans (List.nil_append _)

/-- The hierarchy of a coherent design is found when all children are known and no cycle is. -/
theorem ofDesign_eq_ok_iff (H : d.Coherent) :
    ofDesign d = .ok h ↔ d.ChildrenKnown ∧ d.hierarchy.cycle? = none ∧ h = d.hierarchy := by
  have known : d.ChildrenKnown ↔ ∀ x ∈ d.modules, ∀ o ∈ x.body, ∀ op, d.op? o = some op →
      ∀ c, op.kind.child? = some c → ∃ y, d.module? c = some y := by
    refine ⟨fun K x _ o _ op ho c hc => K ho hc, fun K o op c ho hc => ?_⟩
    obtain ⟨x, hx⟩ := H.parent_module ho
    exact K x (module?_mem hx) o ((H.mem_body hx).mpr ⟨op, ho, rfl⟩) op ho c hc
  rw [ofDesign, Checked.bind_eq_ok_iff]
  simp only [mapM_sitesIn_eq_ok_iff H fun x hx => (mem_modules_iff H).mp hx, ← known, and_assoc,
    exists_and_left, exists_eq_left, foldl_enter_sites H]
  apply and_congr_right
  intro _
  rw [show (⟨d.top, d.modules.map fun m => (m.name, m.id), d.sites.map fun s => ⟨s, true⟩⟩ :
    Hierarchy) = d.hierarchy from rfl]
  cases d.hierarchy.cycle? with
  | none => exact Checked.pure_eq_ok_iff.trans ⟨fun e => ⟨rfl, e.symm⟩, fun e => e.2.symm⟩
  | some m => simp [Checked.bind_eq_ok_iff]

end Hierarchy

end AnnotatedCircuit
