import AnnotatedCircuit.Proofs.Design.History
import AnnotatedCircuit.Proofs.Wiring.Reissue

/-!
# Carrying out any plan

Every module that is visited leaves a sound design and a path table about it, whatever the plan asks
for and whatever fails (`visit_steady`). Joining and closing enter operations only
(`Realizing.Filled`). After the ports of a module have grown its instances lag behind, and they
catch up one by one (`Catching`).
-/

namespace AnnotatedCircuit.Wiring

open Design

variable {α : Type} {s s' s'' : Realizing} {m : ModuleId} {c : ModuleChanges}
  {ports : List PlannedPort} {site : Site} {sites : List Site} {lag : OpId → Nat} {op : Op}
  {types : List SignalType}

/-! ### Joining and closing -/

namespace Realizing

/-- Operations were entered that instantiate nothing. -/
structure Filled (s s' : Realizing) : Prop where
  design : s.design.Filled s'.design
  table : s'.table = s.table
  plan : s'.plan = s.plan
  renames : s'.renames = s.renames

namespace Filled

theorem refl (s : Realizing) : s.Filled s := ⟨.refl, rfl, rfl, rfl⟩

theorem trans (F : s.Filled s') (F' : s'.Filled s'') : s.Filled s'' :=
  ⟨.trans F.design F'.design, F'.table.trans F.table, F'.plan.trans F.plan,
    F'.renames.trans F.renames⟩

theorem sound (F : s.Filled s') (S : s.Sound lag) : s'.Sound lag where
  design := F.design.sound S.design
  hierarchy := by rw [F.table, F.design.hierarchy S.design, S.hierarchy]
  table := F.table ▸ S.table

end Filled

end Realizing

namespace Realize

theorem after_edit (x : Edit α) (s : Realizing) :
    (edit x).after s = { s with design := x.after s.design } := by
  simp only [EStateM.after, edit]
  cases x s.design <;> rfl

theorem after_endpoint (m : ModuleId) (c : ModuleChanges) (n : Nat) (s : Realizing) :
    (endpoint m c n).after s = s := by
  unfold endpoint
  cases c.endpoints.find? n <;> rfl

theorem filled_edit_drive (dest src : ValueId) :
    s.Filled ((edit (Edit.drive m dest src)).after s) := by
  rw [after_edit]
  exact ⟨Edit.filled_drive m dest src, rfl, rfl, rfl⟩

theorem filled_count (F : s.Filled s') : s.Filled (countConnection.after s') :=
  ⟨F.design, F.table, F.plan, F.renames⟩

theorem filled_drive_count (dest src : ValueId) :
    s.Filled ((edit (Edit.drive m dest src) >>= fun _ => countConnection).after s) :=
  EStateM.after_bind (filled_edit_drive dest src) fun _ _ h =>
    filled_count (EStateM.after_of_ok h ▸ filled_edit_drive dest src)

/-- A step that only reads can be left out. -/
theorem filled_bind {x : Realize α} {f : α → Realize Unit} (reads : ∀ s, x.after s = s)
    (hf : ∀ a (s : Realizing), s.Filled ((f a).after s)) (s : Realizing) :
    s.Filled ((x >>= f).after s) := by
  apply EStateM.after_bind ((reads s).symm ▸ .refl s)
  intro a s' h
  obtain rfl := (EStateM.after_of_ok h).symm.trans (reads s)
  exact hf a s'

theorem filled_joinPort (m : ModuleId) (c : ModuleChanges) (p : PlannedPort) (port : ValueId)
    (s : Realizing) : s.Filled ((joinPort m c p port).after s) := by
  refine filled_bind (after_endpoint m c p.request) (fun e s => ?_) s
  cases p.port.direction
  · exact filled_drive_count e.value port
  · exact filled_drive_count port e.value

theorem filled_close (m : ModuleId) (c : ModuleChanges) (e : Endpoint) (n : Nat) (s : Realizing) :
    s.Filled ((close m c e n).after s) := by
  refine filled_bind (x := current e) (fun _ => rfl) (fun e s => ?_) s
  refine filled_bind (after_endpoint m c n) (fun first s => ?_) s
  cases e.role
  · exact filled_drive_count first.value e.value
  · exact filled_drive_count e.value first.value

/-- What a recorded step leaves: the state of the step, with an error more if it failed. -/
theorem recorded_ok (x : Realize Unit) (s : Realizing) : ∃ errors,
    recorded x s = .ok () { x.after s with errors } := by
  unfold recorded EStateM.after
  cases x s with
  | ok _ s' => exact ⟨s'.errors, rfl⟩
  | error e s' => exact ⟨s'.errors ++ [e], rfl⟩

theorem recorded_of_ok {x : Realize Unit} (h : x s = .ok () s') : recorded x s = .ok () s' := by
  rw [recorded, h]

theorem forM_recorded_filled {f : α → Realize Unit} (l : List α)
    (hf : ∀ a (s : Realizing), s.Filled ((f a).after s)) (s : Realizing) :
    ∃ s', (l.forM fun a => recorded (f a)) s = .ok () s' ∧ s.Filled s' := by
  refine EStateM.forM_of_ok (P := fun _ s' => s.Filled s') (fun a rest s' F => ?_) (.refl s)
  obtain ⟨errors, h⟩ := recorded_ok (f a) s'
  have F' := hf a s'
  exact ⟨_, h, F.trans ⟨F'.design, F'.table, F'.plan, F'.renames⟩⟩

/-! ### Replacing all instances of a module -/

theorem Reissuing.sound (R : Reissuing ports site op types s s') (S : s.Sound lag)
    (hlag : lag site.op = ports.length) :
    s'.Sound fun p => if p = s.design.nextOp then 0 else lag p where
  design := R.design.sound S.design R.live R.child (by rw [hlag, R.length])
  hierarchy := by rw [R.table, S.hierarchy, R.design.hierarchy S.design.coherent R.live]
  table := R.right

/-- The instances of a list are still to be replaced, and they alone lag behind. -/
structure Catching (ports : List PlannedPort) (sites : List Site) (s : Realizing) : Prop where
  sound : s.Sound fun o => if o ∈ sites.map Site.op then ports.length else 0
  live : ∀ site ∈ sites, site ∈ s.design.sites
  nodup : (sites.map Site.op).Nodup

theorem Sound.congr {d : Design} {lag lag' : OpId → Nat} (S : d.Sound lag)
    (h : ∀ o op, d.op? o = some op → lag o = lag' o) : d.Sound lag' where
  coherent := S.coherent
  visible := S.visible
  fits {o op _} ho hc := h o op ho ▸ S.fits ho hc

theorem Catching.step (C : Catching ports (site :: sites) s)
    (R : Reissuing ports site op types s s') : Catching ports sites s' := by
  obtain ⟨hsite, hlive⟩ := List.forall_mem_cons.mp C.live
  obtain ⟨hnot, nodup⟩ := List.nodup_cons.mp C.nodup
  have S' := R.sound C.sound (by simp)
  have fresh : s.design.nextOp ∉ sites.map Site.op := by
    intro h
    obtain ⟨t, ht, e⟩ := List.mem_map.mp h
    exact site_ne_nextOp C.sound.design.coherent (hlive t ht) e
  refine ⟨⟨Sound.congr S'.design fun p q hq => ?_, S'.hierarchy, S'.table⟩, fun t ht => ?_, nodup⟩
  · rcases R.design.op_cases hq with ⟨rfl, -⟩ | ⟨q₀, hq₀, hp, -⟩
    · rw [if_pos rfl, if_neg fresh]
    · rw [if_neg (ne_nextOp hq₀)]
      simp [hp]
  · obtain ⟨q, hq, hp, hc⟩ := (mem_sites_iff C.sound.design.coherent).mp (hlive t ht)
    have hne : t.op ≠ site.op := fun e => hnot (e ▸ List.mem_map_of_mem ht)
    exact (mem_sites_iff R.design.coherent).mpr
      ⟨_, R.design.op_other hq hne, hp, by simpa [Op.rebind] using hc⟩

/-- All instances of a list are replaced, and what each replacement keeps is kept. -/
theorem forM_reissue_ok {Q : List Site → Realizing → Prop}
    (step : ∀ {site sites s s' op types}, Catching ports (site :: sites) s →
      Reissuing ports site op types s s' → Q (site :: sites) s → Q sites s')
    (C : Catching ports sites s) (hQ : Q sites s) :
    ∃ s', (sites.forM fun site => recorded (reissue ports site)) s = .ok () s' ∧
      Catching ports [] s' ∧ Q [] s' := by
  refine EStateM.forM_of_ok (P := fun sites s => Catching ports sites s ∧ Q sites s)
    (fun site sites s ⟨C, hQ⟩ => ?_) ⟨C, hQ⟩
  obtain ⟨op, types, s', h, R⟩ := reissue_ok C.sound (C.live site List.mem_cons_self) ports
  exact ⟨s', recorded_of_ok h, C.step R, step C R hQ⟩

/-! ### Visiting a module -/

theorem uses_sublist (h : Hierarchy) (m : ModuleId) : (h.uses m).Sublist h.sites :=
  List.filter_sublist.map _

/-- The instances that fall behind when a module of a sound design grows. -/
theorem Catching.start (S : s.Sound fun o =>
    if o ∈ (s.table.hierarchy.uses m).map Site.op then ports.length else 0) :
    Catching ports (s.table.hierarchy.uses m) s where
  sound := S
  live site h := by
    rw [← sites_hierarchy, ← S.hierarchy]
    exact (Hierarchy.mem_uses_iff.mp h).1
  nodup := by
    refine ((uses_sublist _ m).map Site.op).nodup ?_
    rw [S.hierarchy, sites_hierarchy]
    exact nodup_sites S.design.coherent

theorem reissueAll_ok {Q : List Site → Realizing → Prop} (ports : List PlannedPort)
    (step : ∀ {site sites s s' op types}, Catching ports (site :: sites) s →
      Reissuing ports site op types s s' → Q (site :: sites) s → Q sites s')
    (S : s.Sound fun o => if o ∈ (s.table.hierarchy.uses m).map Site.op then ports.length else 0)
    (hQ : Q (s.table.hierarchy.uses m) s) : ∃ s', reissueAll m ports s = .ok () s' ∧
      (s'.Sound fun _ => 0) ∧ (ports = [] ∧ s' = s ∨ Q [] s') := by
  cases ports with
  | nil => exact ⟨s, rfl, by simpa using S, .inl ⟨rfl, rfl⟩⟩
  | cons p ports =>
    obtain ⟨s', h, C, hQ'⟩ := forM_reissue_ok step (Catching.start S) hQ
    exact ⟨s', h, by simpa using C.sound, .inr hQ'⟩

theorem growPorts_ok {d : Design} {x : Module} (hx : d.module? m = some x) (ports : List PortDecl) :
    Edit.growPorts m ports d = .ok (d.nextValues ports) (d.enterPorts m x.ports.length ports) := by
  rw [Edit.growPorts_eq]
  exact EStateM.bind_of_ok (Edit.ask_of_ok (module_eq_ok_iff.mpr hx))

/-- The state after the ports of a module have grown. -/
def grown (s : Realizing) (m : ModuleId) (x : Module) (ports : List PlannedPort) : Realizing :=
  { s with
    design := s.design.enterPorts m x.ports.length (ports.map (·.port))
    counts := { s.counts with ports := s.counts.ports + ports.length } }

theorem sound_grown {x : Module} (S : s.Sound fun _ => 0) (hx : s.design.module? m = some x)
    (ports : List PlannedPort) : (grown s m x ports).Sound fun o =>
      if o ∈ (s.table.hierarchy.uses m).map Site.op then ports.length else 0 where
  design := by
    have := S.design.enterPorts hx (ports.map (·.port))
    rwa [← S.hierarchy, List.length_map] at this
  hierarchy := S.hierarchy.trans (hierarchy_enterPorts ..).symm
  table := S.table

/-- The joins of the new ports follow their growth. -/
theorem joinPorts_eq {x : Module} (hx : s.design.module? m = some x) (c : ModuleChanges) :
    joinPorts m c s = ((c.ports.zip (s.design.nextValues (c.ports.map (·.port)))).forM
      fun r => recorded (joinPort m c r.1 r.2)) (grown s m x c.ports) := by
  refine (EStateM.bind_of_ok (edit_of_ok (growPorts_ok hx _))).trans ?_
  refine (EStateM.bind_of_ok rfl).trans ?_
  rw [grown, length_nextValues, List.length_map]

theorem joinPorts_ok {x : Module} (hx : s.design.module? m = some x) (c : ModuleChanges) :
    ∃ s', joinPorts m c s = .ok () s' ∧ (grown s m x c.ports).Filled s' := by
  rw [joinPorts_eq hx]
  exact forM_recorded_filled (f := fun r : PlannedPort × ValueId => joinPort m c r.1 r.2) _
    (fun r s => filled_joinPort m c r.1 r.2 s) _

theorem closeAll_ok (m : ModuleId) (c : ModuleChanges) (s : Realizing) :
    ∃ s', closeAll m c s = .ok () s' ∧ s.Filled s' :=
  forM_recorded_filled (f := fun r : Endpoint × Nat => close m c r.1 r.2) _
    (fun r s => filled_close m c r.1 r.2 s) s

/-- Between two visits: the design is sound, and its modules instantiate each other as in `h`. -/
structure Steady (h : Hierarchy) (s : Realizing) : Prop where
  sound : s.Sound fun _ => 0
  alike : h.Alike s.table.hierarchy

theorem Steady.congr {h : Hierarchy} (T : Steady h s) (hd : s'.design = s.design)
    (ht : s'.table = s.table) : Steady h s' where
  sound := ⟨hd ▸ T.sound.design, by rw [ht, hd, T.sound.hierarchy], ht ▸ T.sound.table⟩
  alike := ht ▸ T.alike

theorem realizeModule_steady {h : Hierarchy} {x : Module} (T : Steady h s)
    (hx : s.design.module? m = some x) (c : ModuleChanges) :
    ∃ s', realizeModule m c s = .ok () s' ∧ Steady h s' := by
  obtain ⟨s₁, h₁, F₁⟩ := joinPorts_ok hx c
  obtain ⟨s₂, h₂, F₂⟩ := closeAll_ok m c s₁
  have F := F₁.trans F₂
  have ht : s₂.table = s.table := F.table
  obtain ⟨s₃, h₃, S₃, hQ⟩ := reissueAll_ok (s := s₂) (m := m)
    (Q := fun _ s => h.Alike s.table.hierarchy) c.ports
    (fun C R hA => R.table ▸ hA.trans (Hierarchy.alike_renamed ..))
    (ht ▸ F.sound (sound_grown T.sound hx c.ports)) (ht ▸ T.alike)
  refine ⟨s₃, (EStateM.bind_of_ok h₁).trans ((EStateM.bind_of_ok h₂).trans h₃), S₃, ?_⟩
  rcases hQ with ⟨-, rfl⟩ | hA
  · exact ht ▸ T.alike
  · exact hA

/-- The state without the changes of a module. -/
def withoutChanges (s : Realizing) (m : ModuleId) : Realizing :=
  { s with plan := { s.plan with changes := s.plan.changes.erase m } }

theorem visit_of_none (hc : s.plan.changes.find? m = none) : visit m s = .ok () s := by
  refine (EStateM.bind_of_ok rfl).trans ?_
  rw [hc]
  rfl

theorem visit_of_some (hc : s.plan.changes.find? m = some c) : visit m s =
    if c.isEmpty then .ok () (withoutChanges s m)
    else recorded (realizeModule m c) (withoutChanges s m) := by
  refine (EStateM.bind_of_ok rfl).trans ?_
  rw [hc]
  refine (EStateM.bind_of_ok rfl).trans ?_
  cases c.isEmpty <;> rfl

/-- Nothing is done in a module that the design does not have. -/
theorem realizeModule_of_unknown (hx : s.design.module? m = none) (c : ModuleChanges) :
    (realizeModule m c).after s = s := by
  have hgrow : Edit.growPorts m (c.ports.map (·.port)) s.design =
      .error (.unknownModule m) s.design := EStateM.bind_of_error (by
    rw [Edit.ask, Design.module, hx])
  have hedit : edit (Edit.growPorts m (c.ports.map (·.port))) s = .error (.unknownModule m) s := by
    rw [edit, hgrow]
  have hjoin : joinPorts m c s = .error (.unknownModule m) s := EStateM.bind_of_error hedit
  have hall : realizeModule m c s = .error (.unknownModule m) s := EStateM.bind_of_error hjoin
  rw [EStateM.after, hall]

theorem visit_steady {h : Hierarchy} (T : Steady h s) (m : ModuleId) :
    ∃ s', visit m s = .ok () s' ∧ Steady h s' := by
  cases hc : s.plan.changes.find? m with
  | none => exact ⟨s, visit_of_none hc, T⟩
  | some c =>
    rw [visit_of_some hc]
    split
    · exact ⟨_, rfl, T.congr rfl rfl⟩
    · have T' : Steady h (withoutChanges s m) := T.congr rfl rfl
      cases hx : s.design.module? m with
      | some x =>
        obtain ⟨s', h', T''⟩ := realizeModule_steady T' hx c
        exact ⟨s', recorded_of_ok h', T''⟩
      | none =>
        obtain ⟨errors, h'⟩ := recorded_ok (realizeModule m c) (withoutChanges s m)
        refine ⟨_, h', T.congr ?_ ?_⟩ <;> rw [realizeModule_of_unknown (s := withoutChanges s m) hx]
        · rfl
        · rfl

theorem forM_visit_steady {h : Hierarchy} (T : Steady h s) (ms : List ModuleId) :
    ∃ s', ms.forM visit s = .ok () s' ∧ Steady h s' :=
  EStateM.forM_of_ok (P := fun _ => Steady h) (fun m _ _ T => visit_steady T m) T

end Realize

/-- Whatever a plan asks for, it is carried out to the end, and leaves a sound design. -/
theorem realize_steady {d : Design} {t : PathTable} (S : d.Sound fun _ => 0)
    (ht : t.hierarchy = d.hierarchy) (T : t.Right) (plan : Plan) :
    Realize.Steady d.hierarchy (realize d t plan) := by
  obtain ⟨s, h, hs⟩ := Realize.forM_visit_steady (s := ⟨d, t, plan, .empty, {}, []⟩)
    ⟨⟨S, ht, T⟩, by rw [ht]; exact .refl _⟩ t.hierarchy.childrenFirst
  rw [realize, h]
  exact hs

/-! ### The design and its paths afterwards -/

section

variable {d : Design} {h : Hierarchy}

/-- The table of a design, whatever paths it was asked for, is right for its hierarchy. -/
theorem table_of_design (H : d.Coherent) (hh : Hierarchy.ofDesign d = .ok h) (ms : List ModuleId) :
    ((PathTable.ofHierarchy h).asked ms).hierarchy = d.hierarchy ∧
      ((PathTable.ofHierarchy h).asked ms).Right := by
  obtain ⟨K, hc, rfl⟩ := (Hierarchy.ofDesign_eq_ok_iff H).mp hh
  obtain ⟨rank, R⟩ := Hierarchy.exists_ranked (closed_hierarchy H K).enclosed hc
  exact ⟨PathTable.hierarchy_asked .., (PathTable.Right.ofHierarchy R).asked ms⟩

theorem paths_of_design (H : d.Coherent) (hh : Hierarchy.ofDesign d = .ok h) (m : ModuleId) :
    ((PathTable.ofHierarchy h).paths m).1 = d.hierarchy.pathsTo m := by
  obtain ⟨ht, T⟩ := table_of_design H hh []
  exact (PathTable.paths_eq T m).trans (congrArg (Hierarchy.pathsTo · m) ht)

theorem realize_built (H : d.Built) (hd : d.check = .ok ()) (hh : Hierarchy.ofDesign d = .ok h)
    (ms : List ModuleId) (plan : Plan) :
    Realize.Steady d.hierarchy (realize d ((PathTable.ofHierarchy h).asked ms) plan) := by
  have C := H.coherent
  obtain ⟨hv, hf⟩ := (check_eq_ok_iff C).mp hd
  obtain ⟨ht, T⟩ := table_of_design C hh ms
  exact realize_steady ⟨C, hv, hf⟩ ht T plan

/-- Carrying out any plan in a sound design leaves a sound design. -/
theorem check_realize (H : d.Built) (hd : d.check = .ok ()) (hh : Hierarchy.ofDesign d = .ok h)
    (ms : List ModuleId) (plan : Plan) :
    (realize d ((PathTable.ofHierarchy h).asked ms) plan).design.check = .ok () :=
  (realize_built H hd hh ms plan).sound.design.check

/-- A top module with a wire and an instance of a module with a wire. A third module, which nothing
instantiates, instantiates that module twice. -/
def sideInstances : Design := (Design.new "Top").edited
  [.newModule "A" .defined, .newModule "U" .defined, .newWire ⟨0⟩ "snk" (.uint (some 1)),
    .newWire ⟨1⟩ "src" (.uint (some 1)), .instantiate ⟨0⟩ "a" ⟨1⟩, .instantiate ⟨2⟩ "u" ⟨1⟩,
    .instantiate ⟨2⟩ "v" ⟨1⟩]

/-- A plan for the design with side instances in which little fits: an unknown module, a value of
another module, a value that does not exist, and a request without an endpoint. -/
def unfitPlan : Plan where
  changes := .ofList
    [(⟨1⟩, ⟨[⟨⟨"p", .uint (some 1), .output⟩, 0⟩, ⟨⟨"q", .clock, .input⟩, 1⟩],
        .ofList [(0, ⟨⟨0⟩, .source⟩)], [(⟨⟨9⟩, .sink⟩, 0)]⟩),
      (⟨0⟩, ⟨[⟨⟨"r", .reset, .input⟩, 0⟩], .empty, []⟩),
      (⟨7⟩, ⟨[⟨⟨"s", .reset, .input⟩, 0⟩], .empty, []⟩)]
  names := .empty

theorem sideInstances_sound : sideInstances.Built ∧ sideInstances.check = .ok () ∧
    Hierarchy.ofDesign sideInstances = .ok sideInstances.hierarchy :=
  ⟨(Built.new "Top").edited _, by decide +kernel, by decide +kernel⟩

theorem check_realize_unfitPlan : sideInstances.Built ∧ sideInstances.check = .ok () ∧
    Hierarchy.ofDesign sideInstances = .ok sideInstances.hierarchy ∧
    (realize sideInstances ((PathTable.ofHierarchy sideInstances.hierarchy).asked [⟨1⟩])
      unfitPlan).errors.length = 3 ∧
    (realize sideInstances ((PathTable.ofHierarchy sideInstances.hierarchy).asked [⟨1⟩])
      unfitPlan).design.check = .ok () := by
  obtain ⟨H, hd, hh⟩ := sideInstances_sound
  exact ⟨H, hd, hh, by decide +kernel, check_realize H hd hh [⟨1⟩] unfitPlan⟩

/-- The hierarchy of the design can be found afterwards, too. -/
theorem Realize.Steady.ofDesign {s : Realizing} (T : Steady d.hierarchy s)
    (hc : d.hierarchy.cycle? = none) : Hierarchy.ofDesign s.design = .ok s.design.hierarchy := by
  have S := T.sound
  refine (Hierarchy.ofDesign_eq_ok_iff S.design.coherent).mpr
    ⟨Fits.childrenKnown S.design.fits, ?_, rfl⟩
  rw [← S.hierarchy, T.alike.cycle?, hc]

/-- Afterwards the table is about the design that was left: it has the hierarchy of that design, and
it answers the same paths as a new table. -/
theorem table_realize (H : d.Built) (hd : d.check = .ok ()) (hh : Hierarchy.ofDesign d = .ok h)
    (ms : List ModuleId) (plan : Plan) :
    ∃ h', Hierarchy.ofDesign (realize d ((PathTable.ofHierarchy h).asked ms) plan).design = .ok h' ∧
      (∀ m, (realize d ((PathTable.ofHierarchy h).asked ms) plan).table.hierarchy.instances m =
        h'.instances m) ∧
      (∀ m, (realize d ((PathTable.ofHierarchy h).asked ms) plan).table.hierarchy.uses m =
        h'.uses m) ∧
      (∀ o, (realize d ((PathTable.ofHierarchy h).asked ms) plan).table.hierarchy.site o =
        h'.site o) ∧
      (realize d ((PathTable.ofHierarchy h).asked ms) plan).table.hierarchy.childrenFirst =
        h'.childrenFirst ∧
      ∀ m, ((realize d ((PathTable.ofHierarchy h).asked ms) plan).table.paths m).1 =
        ((PathTable.ofHierarchy h').paths m).1 := by
  have T := realize_built H hd hh ms plan
  generalize realize d ((PathTable.ofHierarchy h).asked ms) plan = s at T
  obtain ⟨-, hc, -⟩ := (Hierarchy.ofDesign_eq_ok_iff H.coherent).mp hh
  have S := T.sound
  have hh' := T.ofDesign hc
  refine ⟨s.design.hierarchy, hh', fun m => by rw [S.hierarchy], fun m => by rw [S.hierarchy],
    fun o => by rw [S.hierarchy], by rw [S.hierarchy], fun m => ?_⟩
  rw [paths_of_design S.design.coherent hh', PathTable.paths_eq S.table, S.hierarchy]

theorem table_realize_unfitPlan : sideInstances.Built ∧ sideInstances.check = .ok () ∧
    Hierarchy.ofDesign sideInstances = .ok sideInstances.hierarchy ∧
    ∃ h', Hierarchy.ofDesign (realize sideInstances
        ((PathTable.ofHierarchy sideInstances.hierarchy).asked [⟨1⟩, ⟨2⟩])
        unfitPlan).design = .ok h' ∧
      ∀ m, ((realize sideInstances
        ((PathTable.ofHierarchy sideInstances.hierarchy).asked [⟨1⟩, ⟨2⟩])
        unfitPlan).table.paths m).1 = ((PathTable.ofHierarchy h').paths m).1 := by
  obtain ⟨H, hd, hh⟩ := sideInstances_sound
  obtain ⟨h', hh', -, -, -, -, hp⟩ := table_realize H hd hh [⟨1⟩, ⟨2⟩] unfitPlan
  exact ⟨H, hd, hh, h', hh', hp⟩

end

end AnnotatedCircuit.Wiring
