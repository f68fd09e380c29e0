import AnnotatedCircuit.Proofs.Design.Edits
import AnnotatedCircuit.Proofs.Note.Moving
import AnnotatedCircuit.Wiring.Realize

/-!
# What wiring leaves alone

Carrying out a plan changes modules, operations and values, and moves attached notes. Nothing else is
changed, no note is made and no table gets shorter: on any design and for any plan, also where steps
fail (`Wiring.realize_framed`).
-/

namespace AnnotatedCircuit

/-- The same names, pending notes, anchors and symbols, no new notes, and tables that are no
shorter. -/
structure Design.Framed (d d' : Design) : Prop where
  name : d'.name = d.name
  top : d'.top = d.top
  pending : d'.pending = d.pending
  anchors : d'.anchors = d.anchors
  symbols : d'.symbols = d.symbols
  modules : d'.modules.length = d.modules.length
  ops : d.ops.length ≤ d'.ops.length
  values : d.values.length ≤ d'.values.length
  noted : ∀ {e n}, n ∈ d'.attachments.attached e → ∃ e', n ∈ d.attachments.attached e'

namespace Design.Framed

variable {d d' d'' : Design}

theorem refl (d : Design) : d.Framed d :=
  ⟨rfl, rfl, rfl, rfl, rfl, rfl, Nat.le_refl _, Nat.le_refl _, fun h => ⟨_, h⟩⟩

theorem trans (F : d.Framed d') (F' : d'.Framed d'') : d.Framed d'' :=
  ⟨F'.name.trans F.name, F'.top.trans F.top, F'.pending.trans F.pending,
    F'.anchors.trans F.anchors, F'.symbols.trans F.symbols, F'.modules.trans F.modules,
    Nat.le_trans F.ops F'.ops, Nat.le_trans F.values F'.values,
    fun h => (F'.noted h).elim fun _ h => F.noted h⟩

theorem enterPorts (d : Design) (m : ModuleId) (base : Nat) (ports : List PortDecl) :
    d.Framed (d.enterPorts m base ports) :=
  ⟨rfl, rfl, rfl, rfl, rfl, List.length_modify .., Nat.le_refl _,
    List.length_append ▸ Nat.le_add_right .., fun h => ⟨_, h⟩⟩

theorem addOp (d : Design) (m : ModuleId) (kind : OpKind) (types : List SignalType)
    (place : OpId → List OpId → List OpId) : d.Framed (d.addOp m kind types place) :=
  ⟨rfl, rfl, rfl, rfl, rfl, List.length_modify .., length_ops_addOp ▸ Nat.le_succ _,
    List.length_append ▸ Nat.le_add_right .., fun h => ⟨_, h⟩⟩

theorem redirected (d : Design) (old new : ValueId) (body : List OpId) :
    d.Framed (d.redirected old new body) :=
  ⟨rfl, rfl, rfl, rfl, rfl, rfl, Nat.le_of_eq length_ops_redirected.symm, Nat.le_refl _,
    fun h => ⟨_, h⟩⟩

theorem withoutOp (d : Design) (o : OpId) (m : ModuleId) : d.Framed (d.withoutOp o m) := by
  refine ⟨rfl, rfl, rfl, rfl, rfl, List.length_modify .., Nat.le_of_eq length_ops_withoutOp.symm,
    Nat.le_refl _, fun {e n} h => ⟨e, ?_⟩⟩
  have h : n ∈ (d.attachments.forgetOp o).attached e := h
  rw [Attachments.attached_forgetOp] at h
  split at h
  · cases h
  · exact h

theorem moveOp (d : Design) (o p : OpId) :
    d.Framed { d with attachments := d.attachments.moveOp o p } :=
  ⟨rfl, rfl, rfl, rfl, rfl, rfl, Nat.le_refl _, Nat.le_refl _, Attachments.mem_attached_moveOp⟩

end Design.Framed

/-! ### Edits -/

namespace Edit

open Design

variable {α β : Type} {x : Edit α} {f : α → Edit β}

/-- An edit with a frame, whether it succeeds or not. -/
structure Frames (x : Edit α) : Prop where
  framed : ∀ d : Design, d.Framed (x.after d)

namespace Frames

theorem bind (hx : Frames x) (hf : ∀ a, Frames (f a)) : Frames (x >>= f) := ⟨fun d =>
  EStateM.after_bind (hx.framed d) fun a d' h =>
    (EStateM.after_of_ok h ▸ hx.framed d).trans ((hf a).framed d')⟩

theorem map (hx : Frames x) (g : α → β) : Frames (g <$> x) := ⟨fun d =>
  EStateM.after_map x g ▸ hx.framed d⟩

theorem pure (a : α) : Frames (Pure.pure a : Edit α) := ⟨.refl⟩

theorem throw (e : DesignError) : Frames (MonadExcept.throw e : Edit α) := ⟨.refl⟩

theorem get : Frames (MonadState.get : Edit Design) := ⟨.refl⟩

theorem ask (question : Design → Except DesignError α) : Frames (Edit.ask question) := by
  refine ⟨fun d => ?_⟩
  rw [EStateM.after, Edit.ask]
  cases question d <;> exact .refl d

/-- A step after a question. -/
theorem ask_bind {question : Design → Except DesignError α}
    (hf : ∀ (a : α) (d : Design), d.Framed ((f a).after d)) : Frames (Edit.ask question >>= f) :=
  bind (ask question) fun a => ⟨hf a⟩

theorem growPorts (m : ModuleId) (ports : List PortDecl) : Frames (growPorts m ports) := by
  rw [growPorts_eq]
  exact ask_bind fun _ d => .enterPorts d ..

theorem newOp (m : ModuleId) (kind : OpKind) (types : List SignalType) :
    Frames (newOp m kind types) := by
  rw [newOp_eq]
  exact ask_bind fun _ d => .addOp d m kind types fun o body => body ++ [o]

theorem newDefinition (m : ModuleId) (kind : OpKind) (type : SignalType) :
    Frames (newDefinition m kind type) := by
  rw [newDefinition_eq]
  exact ask_bind fun _ d => .addOp d m kind [type] fun o body => body ++ [o]

theorem connect (m : ModuleId) (dest src : ValueId) : Frames (connect m dest src) :=
  bind (ask _) fun _ => bind (ask _) fun _ => newOp ..

theorem newConversion (m : ModuleId) (kind : ValueId → OpKind)
    (convert : SignalType → SignalType) (v : ValueId) : Frames (newConversion m kind convert v) :=
  bind (ask _) fun _ => bind (ask _) fun _ => map (newDefinition ..) _

theorem drive (m : ModuleId) (dest src : ValueId) : Frames (drive m dest src) := by
  refine bind (ask _) fun destType => bind (ask _) fun srcType => ?_
  have rest : ∀ src, Frames (do let _ ← Edit.connect m dest src) := fun src =>
    bind (connect ..) fun _ => pure _
  split
  · exact bind (newConversion ..) rest
  · exact bind (newConversion ..) rest
  · exact rest src

theorem cloneInstance (o : OpId) (ports : List PortDecl) : Frames (cloneInstance o ports) := by
  rw [cloneInstance_eq]
  refine bind (ask _) fun op => ?_
  have copy : ∀ (types : List SignalType) (d : Design), d.Framed
      (d.addOp op.parent op.kind (types ++ ports.map (·.type)) (insertBehind o)) := fun types d =>
    .addOp d ..
  split
  · exact bind (throw _) fun _ => bind (ask _) fun _ => ask_bind copy
  · exact bind (ask _) fun _ => ask_bind copy

theorem redirectUses (old new : ValueId) : Frames (redirectUses old new) :=
  bind (ask _) fun _ => ask_bind fun _ d => .redirected d ..

theorem removeOp (o : OpId) : Frames (removeOp o) := by
  rw [removeOp_eq]
  exact bind (ask _) fun _ => ask_bind fun _ d => .withoutOp d ..

end Frames

end Edit

/-! ### Carrying out a plan -/

namespace Wiring

namespace Realize

variable {α β : Type} {x : Realize α} {f : α → Realize β}

/-- A step with a frame, whether it succeeds or not. -/
structure Frames (x : Realize α) : Prop where
  framed : ∀ s : Realizing, s.design.Framed (x.after s).design

namespace Frames

theorem bind (hx : Frames x) (hf : ∀ a, Frames (f a)) : Frames (x >>= f) := ⟨fun s =>
  EStateM.after_bind (P := fun s' : Realizing => s.design.Framed s'.design) (hx.framed s)
    fun a s' h => (EStateM.after_of_ok h ▸ hx.framed s).trans ((hf a).framed s')⟩

theorem pure (a : α) : Frames (Pure.pure a : Realize α) := ⟨fun s => .refl s.design⟩

theorem throw (e : DesignError) : Frames (MonadExcept.throw e : Realize α) :=
  ⟨fun s => .refl s.design⟩

theorem get : Frames (MonadState.get : Realize Realizing) := ⟨fun s => .refl s.design⟩

theorem modify {g : Realizing → Realizing} (h : ∀ s : Realizing, s.design.Framed (g s).design) :
    Frames (modify g : Realize Unit) := ⟨h⟩

theorem edit {x : Edit α} (hx : x.Frames) : Frames (edit x) := by
  refine ⟨fun s => ?_⟩
  have h := hx.framed s.design
  rw [EStateM.after] at h ⊢
  rw [Realize.edit]
  cases hxs : x s.design <;> rw [hxs] at h <;> exact h

theorem ask (question : Design → Except DesignError α) : Frames (ask question) :=
  edit (.ask question)

theorem recorded {x : Realize Unit} (hx : Frames x) : Frames (recorded x) := by
  refine ⟨fun s => ?_⟩
  have h := hx.framed s
  rw [EStateM.after] at h ⊢
  rw [Realize.recorded]
  cases hxs : x s <;> rw [hxs] at h <;> exact h

theorem forM {f : α → Realize PUnit} (hf : ∀ a, Frames (f a)) (l : List α) : Frames (l.forM f) :=
  ⟨fun s => EStateM.after_forM (P := fun s' : Realizing => s.design.Framed s'.design)
    (fun a s' h => h.trans ((hf a).framed s')) l (.refl s.design)⟩

theorem endpoint (m : ModuleId) (c : ModuleChanges) (request : Nat) :
    Frames (endpoint m c request) := by
  unfold Realize.endpoint
  split
  · exact bind get fun _ => pure _
  · exact bind get fun _ => throw _

theorem joinPort (m : ModuleId) (c : ModuleChanges) (p : PlannedPort) (port : ValueId) :
    Frames (joinPort m c p port) := by
  refine bind (endpoint ..) fun e => ?_
  split <;> exact bind (edit (.drive ..)) fun _ => modify fun s => Design.Framed.refl s.design

theorem close (m : ModuleId) (c : ModuleChanges) (e : Endpoint) (request : Nat) :
    Frames (close m c e request) := by
  refine bind (bind get fun _ => pure _) fun e => bind (endpoint ..) fun first => ?_
  split <;> exact bind (edit (.drive ..)) fun _ => modify fun s => Design.Framed.refl s.design

theorem redirectResult (old new : ValueId) : Frames (redirectResult old new) :=
  bind (edit (.redirectUses ..)) fun _ => modify fun s => Design.Framed.refl s.design

theorem replaceInPaths (old new : OpId) : Frames (replaceInPaths old new) := by
  refine ⟨fun s => ?_⟩
  rw [EStateM.after, Realize.replaceInPaths]
  cases s.table.replace old new <;> exact .refl s.design

theorem reissue (ports : List PlannedPort) (site : Site) : Frames (reissue ports site) := by
  refine bind (ask _) fun old => bind (edit (.cloneInstance ..)) fun copy => ?_
  refine bind (ask _) fun new => bind (forM (fun _ => redirectResult ..) _) fun _ => ?_
  refine bind (modify fun s => .moveOp s.design ..) fun _ => ?_
  refine bind (edit (.removeOp _)) fun _ => bind (replaceInPaths ..) fun _ => ?_
  exact modify fun s => Design.Framed.refl s.design

theorem realizeModule (m : ModuleId) (c : ModuleChanges) : Frames (realizeModule m c) := by
  refine bind ?_ fun _ => bind (forM (fun _ => recorded (close ..)) _) fun _ => ?_
  · refine bind (edit (.growPorts ..)) fun ports => ?_
    refine bind (modify fun s => Design.Framed.refl s.design) fun _ => ?_
    exact forM (fun _ => recorded (joinPort ..)) _
  · unfold reissueAll
    split
    · exact pure _
    · exact bind get fun _ => forM (fun _ => recorded (reissue ..)) _

theorem visit (m : ModuleId) : Frames (visit m) := by
  refine bind get fun s => ?_
  split
  · exact pure _
  · refine bind (modify fun s => Design.Framed.refl s.design) fun _ => ?_
    split
    · exact pure _
    · exact recorded (realizeModule ..)

end Frames

end Realize

theorem realize_framed (d : Design) (t : PathTable) (plan : Plan) :
    d.Framed (realize d t plan).design := by
  have h := (Realize.Frames.forM Realize.Frames.visit t.hierarchy.childrenFirst).framed
    ⟨d, t, plan, .empty, {}, []⟩
  rw [EStateM.after] at h
  rw [realize]
  split <;> rename_i hx <;> rw [hx] at h <;> exact h

end Wiring

end AnnotatedCircuit
