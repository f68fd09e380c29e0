import AnnotatedCircuit.Proofs.Wiring.Grown
import AnnotatedCircuit.Proofs.Wiring.Tally

/-!
# What a visit does to the modules

Joining and closing enter ports and operations at the end of one module and leave the others as they
are (`Design.Works`), and replacing instances exchanges operations in bodies. So a visit adds to the
visited module only, and elsewhere copies take the place of instances (`Visits.modules`). What is
connected in a visit is in the body of the visited module (`body_ne_nil_of_joined`).
-/

namespace AnnotatedCircuit

namespace Design

variable {d d' d'' : Design} {k : ModuleId}

/-- Ports and operations were entered at the end of one module. The others are the same. -/
def Works (d : Design) (k : ModuleId) (d' : Design) : Prop :=
  ∃ ports body, ∀ m, d'.module? m = (d.module? m).map fun x =>
    if m = k then { x with ports := x.ports ++ ports, body := x.body ++ body } else x

namespace Works

theorem refl (d : Design) (k : ModuleId) : d.Works k d :=
  ⟨[], [], fun m => by simp⟩

theorem trans (W : d.Works k d') (W' : d'.Works k d'') : d.Works k d'' := by
  obtain ⟨ports, body, h⟩ := W
  obtain ⟨ports', body', h'⟩ := W'
  refine ⟨ports ++ ports', body ++ body', fun m => ?_⟩
  rw [h', h, Option.map_map]
  refine congrArg (Option.map · _) (funext fun x => ?_)
  by_cases e : m = k <;> simp [e]

end Works

theorem works_addOp (d : Design) (k : ModuleId) (kind : OpKind) (types : List SignalType) :
    d.Works k (d.addOp k kind types fun o body => body ++ [o]) := by
  refine ⟨[], [d.nextOp], fun m => ?_⟩
  rw [module?_addOp]
  simp only [List.append_nil]

theorem works_enterPorts (d : Design) (k : ModuleId) (base : Nat) (ports : List PortDecl) :
    d.Works k (d.enterPorts k base ports) := by
  refine ⟨d.nextPorts ports, [], fun m => ?_⟩
  rw [module?_enterPorts]
  simp only [List.append_nil]

/-- What is live and was not before is in the body of the module that was worked on. -/
theorem Works.mem_body {o : OpId} {op : Op} (W : d.Works k d') (H : d.Coherent) (H' : d'.Coherent)
    (new : d.op? o = none) (ho : d'.op? o = some op) :
    ∃ y, d'.module? k = some y ∧ o ∈ y.body := by
  obtain ⟨y, hy⟩ := H'.parent_module ho
  have mem := (H'.mem_body hy).mpr ⟨op, ho, rfl⟩
  by_cases hk : op.parent = k
  · exact ⟨y, hk ▸ hy, mem⟩
  · obtain ⟨ports, body, h⟩ := W
    rw [h, Option.map_eq_some_iff] at hy
    obtain ⟨x, hx, rfl⟩ := hy
    rw [if_neg hk] at mem
    obtain ⟨op', ho', -⟩ := (H.mem_body hx).mp mem
    cases new.symm.trans ho'

/-- Where there are more operations of a sort, one of them is new. -/
theorem Extends.exists_new {tag : OpTag} (E : d.Extends d') (H : d.Coherent) (H' : d'.Coherent)
    (more : (d.tagged tag).length < (d'.tagged tag).length) :
    ∃ o op, d.op? o = none ∧ d'.op? o = some op := by
  obtain ⟨o, ho, hnot⟩ : ∃ o ∈ d'.tagged tag, o ∉ d.tagged tag := by
    by_contra all
    have subset : ∀ o ∈ d'.tagged tag, o ∈ d.tagged tag := by simpa using all
    exact Nat.not_lt.mpr ((nodup_tagged H' tag).subperm fun o => subset o).length_le more
  obtain ⟨op, hop, htag⟩ := (mem_tagged H').mp ho
  refine ⟨o, op, ?_, hop⟩
  rw [Option.eq_none_iff_forall_ne_some]
  intro op' hop'
  obtain rfl := Option.some.inj (hop.symm.trans (E.op hop'))
  exact hnot ((mem_tagged H).mpr ⟨op, hop', htag⟩)

end Design

namespace Edit

open Design

variable {d : Design} {k : ModuleId}

theorem works_newOp (k : ModuleId) (kind : OpKind) (types : List SignalType) (d : Design) :
    d.Works k ((newOp k kind types).after d) := by
  rw [newOp_eq]
  exact after_ask_bind (P := d.Works k) (.refl d k) fun _ _ => works_addOp d k kind types

theorem works_newConversion (k : ModuleId) (kind : ValueId → OpKind)
    (convert : SignalType → SignalType) (v : ValueId) (d : Design) :
    d.Works k ((newConversion k kind convert v).after d) := by
  refine after_ask_bind (P := d.Works k) (.refl d k) fun _ _ =>
    after_ask_bind (P := d.Works k) (.refl d k) fun t _ => ?_
  rw [EStateM.after_map, after_newDefinition]
  exact works_newOp k (kind v) _ d

theorem works_connect (k : ModuleId) (dest src : ValueId) (d : Design) :
    d.Works k ((connect k dest src).after d) :=
  after_ask_bind (P := d.Works k) (.refl d k) fun _ _ =>
    after_ask_bind (P := d.Works k) (.refl d k) fun _ _ => works_newOp ..

theorem works_convert_connect {convert : Edit ValueId} (dest : ValueId)
    (W : d.Works k (convert.after d)) :
    d.Works k ((convert >>= fun w => connect k dest w >>= fun _ => pure ()).after d) := by
  apply EStateM.after_bind_keeps W
  intro w d' W'
  rw [EStateM.after_bind_pure]
  exact W'.trans (works_connect k dest w d')

theorem works_drive (k : ModuleId) (dest src : ValueId) (d : Design) :
    d.Works k ((drive k dest src).after d) := by
  refine after_ask_bind (P := d.Works k) (.refl d k) fun dt _ =>
    after_ask_bind (P := d.Works k) (.refl d k) fun st _ => ?_
  dsimp only
  split
  · exact works_convert_connect dest (works_newConversion k _ _ src d)
  · exact works_convert_connect dest (works_newConversion k _ _ src d)
  · exact works_convert_connect dest (.refl d k)

end Edit

namespace Wiring.Realize

open Design

variable {d : Design} {h : Hierarchy} {s s' : Realizing} {k m : ModuleId} {c : ModuleChanges}
  {ports : List PlannedPort} {sites : List Site} {x : Module}

/-! ### Joining and closing -/

/-- A step that works on one module, whether it succeeds or not. -/
def Working (k : ModuleId) (x : Realize Unit) : Prop :=
  ∀ s : Realizing, s.design.Works k (x.after s).design

namespace Working

theorem drive (k : ModuleId) (dest src : ValueId) :
    Working k (edit (Edit.drive k dest src) >>= fun _ => countConnection) := fun s =>
  EStateM.after_bind_keeps (P := fun s' : Realizing => s.design.Works k s'.design)
    (by rw [after_edit]; exact Edit.works_drive k dest src s.design) fun _ _ W => W

/-- A step that only reads can be left out. -/
theorem bind {α : Type} {y : Realize α} {f : α → Realize Unit} (reads : ∀ s, y.after s = s)
    (hf : ∀ a, Working k (f a)) : Working k (y >>= f) := by
  intro s
  apply EStateM.after_bind (P := fun s' : Realizing => s.design.Works k s'.design)
  · rw [reads]
    exact .refl ..
  · intro a s' hs
    obtain rfl := (EStateM.after_of_ok hs).symm.trans (reads s)
    exact hf a _

theorem joinPort (k : ModuleId) (c : ModuleChanges) (p : PlannedPort) (port : ValueId) :
    Working k (joinPort k c p port) := by
  refine bind (after_endpoint k c p.request) fun e => ?_
  cases p.port.direction
  · exact drive k e.value port
  · exact drive k port e.value

theorem close (k : ModuleId) (c : ModuleChanges) (e : Endpoint) (n : Nat) :
    Working k (close k c e n) := by
  refine bind (y := current e) (fun _ => rfl) fun e => ?_
  refine bind (after_endpoint k c n) fun first => ?_
  cases e.role
  · exact drive k first.value e.value
  · exact drive k e.value first.value

theorem forM {α : Type} {f : α → Realize Unit} (hf : ∀ a, Working k (f a)) (l : List α) :
    Working k (l.forM fun a => recorded (f a)) := fun s =>
  EStateM.after_forM (P := fun s' : Realizing => s.design.Works k s'.design)
    (fun a s' W => by
      obtain ⟨errors, run⟩ := recorded_ok (f a) s'
      rw [EStateM.after_of_ok run]
      exact W.trans (hf a s')) l (.refl ..)

end Working

theorem works_of_joined (hx : s.design.module? k = some x)
    (joined : (joinPorts k c >>= fun _ => closeAll k c) s = .ok () s') :
    s.design.Works k s'.design := by
  obtain ⟨_, s₁, joins, closes⟩ := EStateM.bind_eq_ok_iff.mp joined
  rw [joinPorts_eq hx] at joins
  have J := Working.forM (fun r : PlannedPort × ValueId => Working.joinPort k c r.1 r.2)
    (c.ports.zip (s.design.nextValues (c.ports.map (·.port)))) (grown s k x c.ports)
  have C := Working.forM (fun r : Endpoint × Nat => Working.close k c r.1 r.2) c.closings s₁
  rw [EStateM.after_of_ok joins] at J
  exact (works_enterPorts ..).trans (J.trans (EStateM.after_of_ok closes ▸ C))

/-- When all ports and closings of a module are connected, the connections are in its body. -/
theorem body_ne_nil_of_joined (S : s.Sound fun _ => 0) (hx : s.design.module? k = some x)
    (joined : (joinPorts k c >>= fun _ => closeAll k c) s = .ok () s') (clean : s'.errors = [])
    (busy : c.ports ≠ [] ∨ c.closings ≠ []) : ∃ y, s'.design.module? k = some y ∧ y.body ≠ [] := by
  obtain ⟨s₁, joins, closes⟩ := settles_of_joined hx joined
  obtain ⟨i, tagged, -, errors⟩ := joins.connections
  obtain ⟨j, tagged', -, errors'⟩ := closes.connections
  have zipped : (c.ports.zip (s.design.nextValues (c.ports.map (·.port)))).length =
      c.ports.length := by
    rw [List.length_zip, length_nextValues, List.length_map, Nat.min_self]
  have before : (grown s k x c.ports).design.tagged .connect = s.design.tagged .connect := rfl
  have more : (s.design.tagged .connect).length < (s'.design.tagged .connect).length := by
    rw [clean, List.length_nil] at errors'
    rw [zipped] at errors
    rw [before] at tagged
    rw [← List.length_pos_iff, ← List.length_pos_iff] at busy
    omega
  obtain ⟨s₂, h₂, F₂⟩ := joinPorts_ok hx c
  obtain ⟨s₃, h₃, F₃⟩ := closeAll_ok k c s₂
  obtain rfl := (EStateM.Result.ok.inj (joined.symm.trans ((EStateM.bind_of_ok h₂).trans h₃))).2
  have F := F₂.trans F₃
  have S' := F.sound (sound_grown S hx c.ports)
  have E : s.design.Extends s'.design := .trans (extends_enterPorts ..) F.design.extension
  obtain ⟨o, op, new, live⟩ := E.exists_new S.design.coherent S'.design.coherent more
  obtain ⟨y, hy, mem⟩ :=
    (works_of_joined hx joined).mem_body S.design.coherent S'.design.coherent new live
  exact ⟨y, hy, List.ne_nil_of_mem mem⟩

/-! ### A visit -/

theorem Replaces.modules (R : Replaces ports sites s s') : ∃ f : OpId → OpId, ∀ m,
    s'.design.module? m =
      (s.design.module? m).map fun x => { x with body := x.body.map f } := by
  induction R with
  | nil => exact ⟨id, fun m => by simp⟩
  | @cons site _ _ _ s _ _ _ first _ ih =>
    obtain ⟨f, hf⟩ := ih
    refine ⟨f ∘ exchange site.op s.design.nextOp, fun m => ?_⟩
    rw [hf, first.design.module, Option.map_map]
    refine congrArg (Option.map · _) (funext fun x => ?_)
    simp

/-- A visit adds to one module only. Elsewhere copies take the place of instances. -/
theorem Visits.modules (V : Visits k s s') : ∃ ports body, ∃ f : OpId → OpId, ∀ m,
    s'.design.module? m = (s.design.module? m).map fun x =>
      if m = k then { x with ports := x.ports ++ ports, body := (x.body ++ body).map f }
      else { x with body := x.body.map f } := by
  cases V with
  | nothing => exact ⟨[], [], id, fun m => by simp [withoutChanges]⟩
  | work found filled replaced joined =>
    obtain ⟨ports, body, hw⟩ := works_of_joined (s := withoutChanges s k) found joined
    obtain ⟨f, hf⟩ := replaced.modules
    refine ⟨ports, body, f, fun m => ?_⟩
    rw [hf, hw, Option.map_map]
    refine congrArg (Option.map · _) (funext fun x => ?_)
    by_cases e : m = k <;> simp [e]

end Wiring.Realize

end AnnotatedCircuit
