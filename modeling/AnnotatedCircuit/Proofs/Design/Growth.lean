import AnnotatedCircuit.Proofs.Design.Drives
import AnnotatedCircuit.Proofs.Hierarchy.Sites

/-!
# Growing a design

New ports and new operations that declare nothing extend a design and leave its hierarchy as it
is. A module that gets ports leaves its instances behind by as many results (`Sound.enterPorts`).
`Edit.drive` enters such operations only, also when it fails, and succeeds between any two values
of the module (`drive_ok`).
-/

namespace AnnotatedCircuit

namespace Design

variable {d d' : Design} {m c : ModuleId} {x : Module} {o : OpId} {op : Op} {kind : OpKind}
  {types : List SignalType} {ports : List PortDecl} {lag : OpId → Nat} {v dest src : ValueId}

/-! ### The hierarchy while a design grows -/

theorem map_modules_eq {f g : Module → α} (h : ∀ m, (d'.module? m).map f = (d.module? m).map g) :
    d'.modules.map f = d.modules.map g := by
  apply List.ext_getElem?
  intro i
  rw [List.getElem?_map, List.getElem?_map]
  exact h ⟨i⟩

/-- Two designs have the same hierarchy, up to a change of the sites, if this holds module by
module. -/
theorem hierarchy_congr (f : Site → Site) (ht : d'.top = d.top)
    (h : ∀ m, (d'.module? m).map (fun x => ((x.name, x.id), x.body.filterMap (d'.siteAt x.id))) =
      (d.module? m).map fun x => ((x.name, x.id), (x.body.filterMap (d.siteAt x.id)).map f)) :
    d'.hierarchy = { d.hierarchy with edges := (d.sites.map f).map fun s => ⟨s, true⟩ } := by
  have hm := map_modules_eq h
  have hnames : d'.modules.map (fun x => (x.name, x.id)) =
      d.modules.map fun x => (x.name, x.id) := by
    simpa [Function.comp_def] using congrArg (List.map Prod.fst) hm
  have hsites : d'.sites = d.sites.map f := by
    have := congrArg List.flatten (congrArg (List.map Prod.snd) hm)
    simp only [List.map_map, Function.comp_def] at this
    rw [sites, sites, List.flatMap_def, List.flatMap_def, this, List.map_flatten, List.map_map]
    rfl
  simp only [hierarchy, ht, hnames, hsites]

theorem hierarchy_eq (ht : d'.top = d.top)
    (h : ∀ m, (d'.module? m).map (fun x => ((x.name, x.id), x.body.filterMap (d'.siteAt x.id))) =
      (d.module? m).map fun x => ((x.name, x.id), x.body.filterMap (d.siteAt x.id))) :
    d'.hierarchy = d.hierarchy := by
  rw [hierarchy_congr id ht (by simpa using h), List.map_id]
  rfl

theorem hierarchy_enterPorts (d : Design) (m : ModuleId) (base : Nat) (ports : List PortDecl) :
    (d.enterPorts m base ports).hierarchy = d.hierarchy := by
  refine hierarchy_eq rfl fun m' => ?_
  rw [module?_enterPorts, Option.map_map]
  refine congrArg (Option.map · _) (funext fun x => ?_)
  rw [Function.comp_apply]
  split <;> rfl

theorem hierarchy_addOp (H : d.Coherent) (childless : kind.child? = none) :
    (d.addOp m kind types fun o body => body ++ [o]).hierarchy = d.hierarchy := by
  refine hierarchy_eq rfl fun m' => ?_
  have old : ∀ x, d.module? m' = some x →
      x.body.filterMap ((d.addOp m kind types fun o body => body ++ [o]).siteAt x.id) =
        x.body.filterMap (d.siteAt x.id) := by
    intro x hx
    apply List.filterMap_congr
    intro o ho
    obtain ⟨op, hop, -⟩ := (H.mem_body hx).mp ho
    simp only [siteAt, op?_addOp_of_some hop, hop]
  have new : ∀ n, (d.addOp m kind types fun o body => body ++ [o]).siteAt n d.nextOp = none := by
    intro n
    simp [siteAt, op?_addOp_self, childless]
  cases hx : d.module? m' with
  | none => rw [module?_addOp, hx]; rfl
  | some x =>
    rw [module?_addOp, hx, Option.map_some, Option.map_some, Option.map_some]
    split
    · simp [List.filterMap_append, old x hx, new]
    · simp [old x hx]

/-! ### Sound designs -/

/-- The tables agree, and the structural rules hold up to a lag of the instances. -/
structure Sound (d : Design) (lag : OpId → Nat) : Prop where
  coherent : d.Coherent
  visible : d.Visible
  fits : d.Fits lag

theorem Sound.check (S : d.Sound fun _ => 0) : d.check = .ok () :=
  (check_eq_ok_iff S.coherent).mpr ⟨S.visible, S.fits⟩

theorem valueModule_module (H : d.Coherent) (h : d.valueModule v = .ok m) :
    ∃ x, d.module? m = some x := by
  obtain ⟨t, ⟨i, hv⟩ | ⟨o, i, op, hv, ho, rfl⟩⟩ := valueModule_eq_ok_iff.mp h
  · obtain ⟨x, _, hx, -⟩ := H.port_origin hv
    exact ⟨x, hx⟩
  · exact H.parent_module ho

/-- The instances of a module are its uses in the hierarchy. -/
theorem mem_uses_hierarchy_iff (H : d.Coherent) : o ∈ (d.hierarchy.uses m).map Site.op ↔
    ∃ op, d.op? o = some op ∧ op.kind.child? = some m := by
  simp only [List.mem_map, Hierarchy.mem_uses_iff, sites_hierarchy, mem_sites_iff H]
  constructor
  · rintro ⟨s, ⟨⟨op, hop, -, hc⟩, rfl⟩, rfl⟩
    exact ⟨op, hop, hc⟩
  · rintro ⟨op, hop, hc⟩
    exact ⟨⟨o, op.parent, m⟩, ⟨⟨op, hop, rfl, hc⟩, rfl⟩, rfl⟩

/-- The instances of a module that grows fall behind. -/
theorem Sound.enterPorts (S : d.Sound fun _ => 0) (hx : d.module? m = some x)
    (ports : List PortDecl) :
    (d.enterPorts m x.ports.length ports).Sound fun o =>
      if o ∈ (d.hierarchy.uses m).map Site.op then ports.length else 0 where
  coherent := S.coherent.enterPorts hx
  visible ho hv := (extends_enterPorts ..).valueModule (S.visible ho hv)
  fits {o op c} ho hc := by
    have ho : d.op? o = some op := ho
    have used : o ∈ (d.hierarchy.uses m).map Site.op ↔ c = m := by
      rw [mem_uses_hierarchy_iff S.coherent]
      constructor
      · rintro ⟨op', ho', hc'⟩
        obtain rfl := Option.some.inj (ho.symm.trans ho')
        exact Option.some.inj (hc.symm.trans hc')
      · rintro rfl
        exact ⟨op, ho, hc⟩
    obtain ⟨y, hy, hl⟩ := S.fits ho hc
    obtain ⟨y', hy', -, -, hports⟩ := exists_module?_enterPorts hy m x.ports.length ports
    refine ⟨y', hy', ?_⟩
    dsimp only
    rw [hports, if_congr used rfl rfl]
    split
    · rw [List.length_append, length_nextPorts, ← hl]
      rfl
    · exact hl

/-! ### The ports of modules -/

/-- The ports of a module, if there is one. -/
def portsOf (d : Design) (m : ModuleId) : Option (List Port) := (d.module? m).map Module.ports

theorem portsOf_enterPorts (d : Design) (m : ModuleId) (base : Nat) (ports : List PortDecl)
    (m' : ModuleId) : (d.enterPorts m base ports).portsOf m' =
      (d.portsOf m').map fun ps => if m' = m then ps ++ d.nextPorts ports else ps := by
  simp only [portsOf, module?_enterPorts, Option.map_map]
  refine congrArg (Option.map · _) (funext fun x => ?_)
  simp only [Function.comp_apply]
  split <;> rfl

/-! ### Filling bodies -/

theorem Leaf.extension (h : d.Leaf d') : d.Extends d' := by
  cases h with
  | none => exact .refl d
  | op => exact extends_addOp ..

theorem Leaf.portsOf (h : d.Leaf d') (m : ModuleId) : d'.portsOf m = d.portsOf m := by
  cases h with
  | none => rfl
  | op =>
    simp only [Design.portsOf, module?_addOp, Option.map_map]
    refine congrArg (Option.map · _) (funext fun x => ?_)
    simp only [Function.comp_apply]
    split <;> rfl

theorem Leaf.sound (h : d.Leaf d') (S : d.Sound lag) : d'.Sound lag := by
  have E := h.extension
  refine ⟨S.coherent.change h.change, ?_, ?_⟩
  · cases h with
    | none => exact S.visible
    | op found typed visible =>
      intro o op v ho hv
      rcases op?_addOp_cases ho with ⟨rfl, rfl⟩ | ho
      · exact E.valueModule (visible v hv)
      · exact E.valueModule (S.visible ho hv)
  · cases h with
    | none => exact S.fits
    | op found typed visible nameless =>
      intro o op c ho hc
      rcases op?_addOp_cases ho with ⟨rfl, rfl⟩ | ho
      · rw [OpKind.child?_of_nameless nameless] at hc
        contradiction
      · obtain ⟨y, hy, hl⟩ := S.fits ho hc
        obtain ⟨y', hy', -, hports, -⟩ := exists_module?_addOp hy ..
        exact ⟨y', hy', hports ▸ hl⟩

theorem Leaf.hierarchy (h : d.Leaf d') (H : d.Coherent) : d'.hierarchy = d.hierarchy := by
  cases h with
  | none => rfl
  | op _ _ _ nameless => exact hierarchy_addOp H (OpKind.child?_of_nameless nameless)

/-- Operations that declare nothing were entered. -/
def Filled : Design → Design → Prop := Relation.ReflTransGen Leaf

namespace Filled

theorem extension (h : d.Filled d') : d.Extends d' := by
  induction h with
  | refl => exact .refl d
  | tail _ h ih => exact ih.trans h.extension

theorem sound (h : d.Filled d') (S : d.Sound lag) : d'.Sound lag := by
  induction h with
  | refl => exact S
  | tail _ h ih => exact h.sound ih

theorem portsOf (h : d.Filled d') (m : ModuleId) : d'.portsOf m = d.portsOf m := by
  induction h with
  | refl => rfl
  | tail _ h ih => exact (h.portsOf m).trans ih

theorem same_ports (h : d.Filled d') (hx : d.module? m = some x) :
    ∃ y, d'.module? m = some y ∧ y.ports = x.ports := by
  have hports := h.portsOf m
  rw [Design.portsOf, Design.portsOf, hx] at hports
  exact Option.map_eq_some_iff.mp hports

theorem hierarchy (h : d.Filled d') (S : d.Sound lag) : d'.hierarchy = d.hierarchy := by
  induction h with
  | refl => rfl
  | tail h h' ih => exact (h'.hierarchy (Filled.sound h S).coherent).trans ih

end Filled

/-- The result of an operation that defines one value. -/
theorem valueModule_addOp_self (d : Design) (m : ModuleId) (kind : OpKind) (t : SignalType)
    (place : OpId → List OpId → List OpId) :
    (d.addOp m kind [t] place).valueModule ⟨d.values.length⟩ = .ok m :=
  valueModule_eq_ok_iff.mpr ⟨t, .inr ⟨d.nextOp, 0, _, value?_addOp.mpr (.inr ⟨0, t, rfl, rfl, rfl⟩),
    op?_addOp_self d m kind [t] place, rfl⟩⟩

end Design

namespace Edit

open Design

variable {d : Design} {m : ModuleId} {x : Module} {kind : OpKind} {types : List SignalType}
  {dest src : ValueId}

theorem filled_convert_connect {convert : Edit ValueId} (h : d.Filled (convert.after d)) :
    d.Filled ((convert >>= fun w => connect m dest w >>= fun _ => pure ()).after d) := by
  apply EStateM.after_bind h
  intro w d' hw
  rw [EStateM.after_bind_pure, ← EStateM.after_of_ok hw]
  exact .tail h (leaf_connect m dest w)

theorem filled_drive (m : ModuleId) (dest src : ValueId) :
    d.Filled ((drive m dest src).after d) := by
  refine after_ask_bind .refl fun dt _ => after_ask_bind .refl fun st _ => ?_
  dsimp only
  split
  · exact filled_convert_connect (.single (leaf_sendRef m src))
  · exact filled_convert_connect (.single (leaf_resolveRef m src))
  · exact filled_convert_connect .refl

theorem newOp_ok (hx : d.module? m = some x) (kind : OpKind) (types : List SignalType) :
    newOp m kind types d = .ok d.nextOp (d.addOp m kind types fun o body => body ++ [o]) := by
  rw [newOp_eq]
  exact EStateM.bind_of_ok (ask_of_ok (module_eq_ok_iff.mpr hx))

theorem newDefinition_ok (hx : d.module? m = some x) (kind : OpKind) (t : SignalType) :
    newDefinition m kind t d = .ok (d.nextOp, ⟨d.values.length⟩)
      (d.addOp m kind [t] fun o body => body ++ [o]) := by
  rw [newDefinition_eq]
  exact EStateM.bind_of_ok (ask_of_ok (module_eq_ok_iff.mpr hx))

theorem connect_ok (H : d.Coherent) (hd : d.valueModule dest = .ok m)
    (hs : d.valueModule src = .ok m) : connect m dest src d =
      .ok d.nextOp (d.addOp m (.connect dest src) [] fun o body => body ++ [o]) := by
  obtain ⟨x, hx⟩ := valueModule_module H hd
  exact (EStateM.bind_of_ok (ask_of_ok (checkVisible_eq_ok_iff.mpr hd))).trans <|
    (EStateM.bind_of_ok (ask_of_ok (checkVisible_eq_ok_iff.mpr hs))).trans (newOp_ok hx _ _)

theorem valueType_of_valueModule (h : d.valueModule src = .ok m) :
    ∃ t, d.valueType src = .ok t := by
  obtain ⟨t, ⟨i, hv⟩ | ⟨o, i, op, hv, -⟩⟩ := valueModule_eq_ok_iff.mp h <;>
    exact ⟨t, valueType_eq_ok_iff.mpr ⟨_, hv, rfl⟩⟩

/-- A visible value can be converted. -/
theorem newConversion_ok (H : d.Coherent) (hs : d.valueModule src = .ok m)
    (kind : ValueId → OpKind) (convert : SignalType → SignalType) :
    ∃ t, newConversion m kind convert src d = .ok ⟨d.values.length⟩
      (d.addOp m (kind src) [t] fun o body => body ++ [o]) := by
  obtain ⟨x, hx⟩ := valueModule_module H hs
  obtain ⟨t, ht⟩ := valueType_of_valueModule hs
  refine ⟨convert t, (EStateM.bind_of_ok (ask_of_ok (checkVisible_eq_ok_iff.mpr hs))).trans <|
    (EStateM.bind_of_ok (ask_of_ok ht)).trans ?_⟩
  simp only [Functor.map, EStateM.map, newDefinition_ok hx]

theorem convert_connect_ok {convert : Edit ValueId} {w : ValueId} {d₁ : Design}
    (S : d.Sound lag) (hd : d.valueModule dest = .ok m) (hw : convert d = .ok w d₁)
    (F : d.Filled d₁) (hdrive : d₁.Drives src w) (hwm : d₁.valueModule w = .ok m) :
    ∃ d', (convert >>= fun w => connect m dest w >>= fun _ => pure ()) d = .ok () d' ∧
      d'.Drives src dest := by
  have hc := connect_ok (F.sound S).coherent (F.extension.valueModule hd) hwm
  refine ⟨_, (EStateM.bind_of_ok hw).trans (EStateM.bind_of_ok hc), ?_⟩
  exact .tail ((extends_addOp ..).drives hdrive) (.connect (op?_addOp_self ..) rfl)

/-- A connection between two values of a module, with the conversion that their types ask for. -/
theorem drive_ok (S : d.Sound lag) (hd : d.valueModule dest = .ok m)
    (hs : d.valueModule src = .ok m) :
    ∃ d', drive m dest src d = .ok () d' ∧ d.Filled d' ∧ d'.Drives src dest := by
  obtain ⟨dt, hdt⟩ := valueType_of_valueModule hd
  obtain ⟨st, hst⟩ := valueType_of_valueModule hs
  suffices ∃ d', drive m dest src d = .ok () d' ∧ d'.Drives src dest by
    obtain ⟨d', hok, hdrive⟩ := this
    exact ⟨d', hok, EStateM.after_of_ok hok ▸ filled_drive m dest src, hdrive⟩
  unfold drive
  rw [EStateM.bind_of_ok (ask_of_ok hdt), EStateM.bind_of_ok (ask_of_ok hst)]
  have same : ∃ d', ((pure src : Edit ValueId) >>= fun w =>
      connect m dest w >>= fun _ => pure ()) d = .ok () d' ∧ d'.Drives src dest :=
    convert_connect_ok S hd rfl .refl .refl hs
  cases dt.isRef <;> cases st.isRef
  · exact same
  · obtain ⟨t, ht⟩ := newConversion_ok S.coherent hs .refResolve .deref
    exact convert_connect_ok S hd ht (EStateM.after_of_ok ht ▸ .single (leaf_resolveRef m src))
      (Feeds.drives (.refResolve (op?_addOp_self ..) rfl rfl)) (valueModule_addOp_self ..)
  · obtain ⟨t, ht⟩ := newConversion_ok S.coherent hs .refSend .toRef
    exact convert_connect_ok S hd ht (EStateM.after_of_ok ht ▸ .single (leaf_sendRef m src))
      (Feeds.drives (.refSend (op?_addOp_self ..) rfl rfl)) (valueModule_addOp_self ..)
  · exact same

end Edit

end AnnotatedCircuit
