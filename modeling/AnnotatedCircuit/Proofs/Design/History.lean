import AnnotatedCircuit.Proofs.Design.Edits

/-!
# Designs with a history

What a call of an editing operation does is said once (`Design.Effect`): it does nothing, or one
change to the tables, with what the call has checked before. A built design comes from a new one by
a sequence of such calls, with any arguments and whether they succeed or not. Every built design is
coherent.
-/

namespace AnnotatedCircuit

/-- A call of an editing operation. The notes of a design can be set freely. -/
inductive Edit.Call where
  | newModule (name : String) (kind : ModuleKind)
  | newPort (m : ModuleId) (port : PortDecl)
  | growPorts (m : ModuleId) (ports : List PortDecl)
  | newWire (m : ModuleId) (name : String) (type : SignalType)
  | newReg (m : ModuleId) (name : String) (type : SignalType)
  | newNode (m : ModuleId) (name : String) (input : ValueId)
  | instantiate (m : ModuleId) (name : String) (child : ModuleId)
  | connect (m : ModuleId) (dest src : ValueId)
  | sendRef (m : ModuleId) (base : ValueId)
  | resolveRef (m : ModuleId) (reference : ValueId)
  | newAnchor (hint : String) (path : List PathStep) (leaf : String)
  | cloneInstance (o : OpId) (ports : List PortDecl)
  | redirectUses (old new : ValueId)
  | removeOp (o : OpId)
  | setNotes (pending : List Note) (attachments : Attachments)

namespace Edit

/-- The design that a call leaves. A call that runs out of names leaves none; the design is kept. -/
def Call.run : Call → Design → Design
  | .newModule name kind => (Edit.newModule name kind).after
  | .newPort m port => (Edit.newPort m port).after
  | .growPorts m ports => (Edit.growPorts m ports).after
  | .newWire m name type => (Edit.newWire m name type).after
  | .newReg m name type => (Edit.newReg m name type).after
  | .newNode m name input => (Edit.newNode m name input).after
  | .instantiate m name child => (Edit.instantiate m name child).after
  | .connect m dest src => (Edit.connect m dest src).after
  | .sendRef m base => (Edit.sendRef m base).after
  | .resolveRef m reference => (Edit.resolveRef m reference).after
  | .newAnchor hint path leaf => fun d =>
    match d.newAnchor hint path leaf with
    | .ok (_, d') => d'
    | .error _ => d
  | .cloneInstance o ports => (Edit.cloneInstance o ports).after
  | .redirectUses old new => (Edit.redirectUses old new).after
  | .removeOp o => (Edit.removeOp o).after
  | .setNotes pending attachments => fun d => { d with pending, attachments }

/-- The operation that a call asks for, and the module that it is for. -/
def Call.entry? : Call → Option (ModuleId × OpKind)
  | .newWire m name type => some (m, .wire name type)
  | .newReg m name type => some (m, .reg name type)
  | .newNode m name input => some (m, .node name input)
  | .instantiate m name child => some (m, .inst name child)
  | .connect m dest src => some (m, .connect dest src)
  | .sendRef m base => some (m, .refSend base)
  | .resolveRef m reference => some (m, .refResolve reference)
  | _ => none

end Edit

/-! ### Effects -/

/-- An operation that can be entered into the body of a module, and the types of its results. -/
inductive Design.Typing (d : Design) (m : ModuleId) : OpKind → List SignalType → Prop where
  | wire (name : String) (t : SignalType) : Typing d m (.wire name t) [t]
  | reg (name : String) (t : SignalType) : Typing d m (.reg name t) [t]
  | node {v : ValueId} {t : SignalType} (name : String) (visible : d.valueModule v = .ok m)
    (typed : d.valueType v = .ok t) : Typing d m (.node name v) [t]
  | inst {c : ModuleId} {y : Module} (name : String) (found : d.module? c = some y) :
    Typing d m (.inst name c) (y.ports.map (·.type))
  | connect {dest src : ValueId} (dest_visible : d.valueModule dest = .ok m)
    (src_visible : d.valueModule src = .ok m) : Typing d m (.connect dest src) []
  | refSend {v : ValueId} {t : SignalType} (visible : d.valueModule v = .ok m)
    (typed : d.valueType v = .ok t) : Typing d m (.refSend v) [t.toRef]
  | refResolve {v : ValueId} {t : SignalType} (visible : d.valueModule v = .ok m)
    (typed : d.valueType v = .ok t) : Typing d m (.refResolve v) [t.deref]

/-- What a call does: nothing, or what it asks for. -/
inductive Design.Effect (d : Design) : Edit.Call → Design → Prop where
  | none (c : Edit.Call) : Effect d c d
  | module {name : String} (kind : ModuleKind) (fresh : d.moduleNamed? name = none) :
    Effect d (.newModule name kind) { d with
      modules := d.modules ++ [Module.empty ⟨d.modules.length⟩ name kind]
      symbols := d.symbols.add name }
  | port {m : ModuleId} {x : Module} (found : d.module? m = some x)
    (unused : ∀ {o op}, d.op? o = some op → op.kind.child? ≠ some m) (p : PortDecl) :
    Effect d (.newPort m p) (d.enterPorts m x.ports.length [p])
  | ports {m : ModuleId} {x : Module} (found : d.module? m = some x) (ps : List PortDecl) :
    Effect d (.growPorts m ps) (d.enterPorts m x.ports.length ps)
  | op {c : Edit.Call} {m : ModuleId} {x : Module} {kind : OpKind} {types : List SignalType}
    (asked : c.entry? = some (m, kind)) (found : d.module? m = some x)
    (typing : d.Typing m kind types) :
    Effect d c (d.addOp m kind types fun o body => body ++ [o])
  | anchor {hint name : String} {symbols : NameSupply}
    (fresh : d.symbols.fresh hint = .ok (name, symbols)) (path : List PathStep) (leaf : String) :
    Effect d (.newAnchor hint path leaf) { d with
      symbols, anchors := d.anchors ++ [⟨⟨d.anchors.length⟩, name, path, leaf⟩] }
  | clone {o : OpId} {op : Op} {m : ModuleId} {x : Module} {types : List SignalType}
    (found : d.op? o = some op) (parent : d.module? op.parent = some x)
    (child : op.kind.child? = some m) (typed : op.results.mapM d.valueType = .ok types)
    (ports : List PortDecl) :
    Effect d (.cloneInstance o ports)
      (d.addOp op.parent op.kind (types ++ ports.map (·.type)) (insertBehind o))
  | uses {m : ModuleId} {x : Module} {v : ValueId} (found : d.module? m = some x)
    (owner : d.valueModule v = .ok m) (w : ValueId) :
    Effect d (.redirectUses v w) (d.redirected v w x.body)
  | removal {o : OpId} {op : Op} (found : d.op? o = some op) :
    Effect d (.removeOp o) (d.withoutOp o op.parent)
  | notes (pending : List Note) (attachments : Attachments) :
    Effect d (.setNotes pending attachments) { d with pending, attachments }

namespace Design.Typing

variable {d : Design} {m c : ModuleId} {kind : OpKind} {types : List SignalType}

theorem visible (T : d.Typing m kind types) : ∀ v ∈ kind.operands, d.valueModule v = .ok m := by
  cases T with
  | wire | reg | inst => exact fun _ h => nomatch h
  | node _ visible | refSend visible | refResolve visible => simpa [OpKind.operands] using visible
  | connect dest src => simpa [OpKind.operands] using ⟨dest, src⟩

/-- An instance has results for the ports of its child. -/
theorem child (T : d.Typing m kind types) (h : kind.child? = some c) :
    ∃ y, d.module? c = some y ∧ types = y.ports.map (·.type) := by
  cases T with
  | inst _ found =>
    cases h
    exact ⟨_, found, rfl⟩
  | _ => cases h

end Design.Typing

namespace Edit

open Design

variable {d : Design} {m : ModuleId} {kind : OpKind} {types : List SignalType} {c : Call}

theorem effect_newOp (asked : c.entry? = some (m, kind)) (typing : d.Typing m kind types) :
    d.Effect c ((newOp m kind types).after d) := by
  rw [newOp_eq]
  exact after_ask_bind (.none c) fun _ h => .op asked (module_eq_ok_iff.mp h) typing

theorem effect_newDefinition {t : SignalType} (asked : c.entry? = some (m, kind))
    (typing : d.Typing m kind [t]) : d.Effect c ((newDefinition m kind t).after d) :=
  after_newDefinition m kind t ▸ effect_newOp asked typing

theorem effect_newConversion {operation : ValueId → OpKind} {convert : SignalType → SignalType}
    {v : ValueId} (asked : c.entry? = some (m, operation v))
    (typing : ∀ {t}, d.valueModule v = .ok m → d.valueType v = .ok t →
      d.Typing m (operation v) [convert t]) :
    d.Effect c ((newConversion m operation convert v).after d) := by
  refine after_ask_bind (.none c) fun _ visible => after_ask_bind (.none c) fun t typed => ?_
  rw [EStateM.after_map]
  exact effect_newDefinition asked (typing (checkVisible_eq_ok_iff.mp visible) typed)

theorem effect_newModule (name : String) (kind : ModuleKind) :
    d.Effect (.newModule name kind) ((newModule name kind).after d) := by
  unfold newModule
  rw [after_get_bind]
  cases h : d.moduleNamed? name with
  | none =>
    simp only [Option.isSome_none, Bool.false_eq_true, if_false]
    exact .module kind h
  | some m =>
    simp only [Option.isSome_some, if_true]
    exact .none _

theorem effect_newPort (m : ModuleId) (p : PortDecl) :
    d.Effect (.newPort m p) ((newPort m p).after d) := by
  rw [newPort_eq, after_get_bind]
  cases h : d.liveOps.any fun op => op.kind.child? == some m with
  | true =>
    rw [if_pos rfl]
    exact after_ask_bind (.none _) fun _ _ => .none _
  | false =>
    have unused : ∀ {o op}, d.op? o = some op → op.kind.child? ≠ some m := by
      intro o op ho hc
      rw [List.any_eq_false] at h
      exact h op (mem_liveOps ho) (by simpa using hc)
    rw [if_neg Bool.false_ne_true]
    exact after_ask_bind (.none _) fun _ h => .port (module_eq_ok_iff.mp h) unused p

theorem effect_cloneInstance (o : OpId) (ports : List PortDecl) :
    d.Effect (.cloneInstance o ports) ((cloneInstance o ports).after d) := by
  rw [cloneInstance_eq]
  apply after_ask_bind (.none _)
  intro op h
  cases hk : op.kind.child? with
  | none =>
    simp only [Option.isNone_none, if_true]
    exact .none _
  | some c =>
    simp only [Option.isNone_some, Bool.false_eq_true, if_false]
    exact after_ask_bind (.none _) fun x hx => after_ask_bind (.none _) fun ts hts =>
      .clone (op_eq_ok_iff.mp h) (module_eq_ok_iff.mp hx) hk hts ports

theorem effect_growPorts (m : ModuleId) (ports : List PortDecl) :
    d.Effect (.growPorts m ports) ((growPorts m ports).after d) := by
  rw [growPorts_eq]
  exact after_ask_bind (.none _) fun _ h => .ports (module_eq_ok_iff.mp h) ports

theorem effect_removeOp (o : OpId) : d.Effect (.removeOp o) ((removeOp o).after d) := by
  rw [removeOp_eq]
  exact after_ask_bind (.none _) fun _ found => after_ask_bind (.none _) fun _ _ =>
    .removal (op_eq_ok_iff.mp found)

theorem effect_newAnchor (hint : String) (path : List PathStep) (leaf : String) :
    d.Effect (.newAnchor hint path leaf) ((Call.newAnchor hint path leaf).run d) := by
  simp only [Call.run, Design.newAnchor, bind, Except.bind]
  cases h : d.symbols.fresh hint with
  | error e => exact .none _
  | ok r => exact .anchor h path leaf

theorem effect_run (d : Design) : ∀ c : Call, d.Effect c (c.run d)
  | .newModule name kind => effect_newModule name kind
  | .newPort m p => effect_newPort m p
  | .growPorts m ports => effect_growPorts m ports
  | .newWire _ name t => effect_newDefinition rfl (.wire name t)
  | .newReg _ name t => effect_newDefinition rfl (.reg name t)
  | .newNode _ name _ => after_ask_bind (.none _) fun _ visible => after_ask_bind (.none _)
      fun _ typed => effect_newDefinition rfl (.node name (checkVisible_eq_ok_iff.mp visible) typed)
  | .instantiate _ name _ => after_ask_bind (.none _) fun _ found =>
      effect_newOp rfl (.inst name (module_eq_ok_iff.mp found))
  | .connect .. => after_ask_bind (.none _) fun _ dest => after_ask_bind (.none _) fun _ src =>
      effect_newOp rfl (.connect (checkVisible_eq_ok_iff.mp dest) (checkVisible_eq_ok_iff.mp src))
  | .sendRef .. => effect_newConversion rfl .refSend
  | .resolveRef .. => effect_newConversion rfl .refResolve
  | .newAnchor hint path leaf => effect_newAnchor hint path leaf
  | .cloneInstance o ports => effect_cloneInstance o ports
  | .redirectUses _ new => after_ask_bind (.none _) fun _ owner => after_ask_bind (.none _)
      fun _ found => .uses (module_eq_ok_iff.mp found) owner new
  | .removeOp o => effect_removeOp o
  | .setNotes pending attachments => .notes pending attachments

end Edit

namespace Design

/-- The design after a sequence of calls. -/
def edited (d : Design) (calls : List Edit.Call) : Design := calls.foldl (fun d c => c.run d) d

/-- A design that comes from a new one by calls of the editing operations. -/
inductive Built : Design → Prop where
  | new (name : String) : Built (.new name)
  | call {d : Design} (c : Edit.Call) : Built d → Built (c.run d)

variable {d : Design}

theorem Built.edited (H : d.Built) (calls : List Edit.Call) : (d.edited calls).Built := by
  induction calls generalizing d with
  | nil => exact H
  | cons c calls ih => exact ih (H.call c)

/-- Among other things, an effect is a change that keeps a design coherent. -/
theorem Effect.change {d' : Design} {c : Edit.Call} (h : d.Effect c d') : d.Change d' := by
  cases h with
  | none => exact .none
  | module kind fresh => exact .module kind fresh
  | port found _ p => exact .ports found [p]
  | ports found ps => exact .ports found ps
  | op _ found typing =>
    exact .op found _ _ _ typing.visible
      (fun _ hc => .inl ((typing.child hc).imp fun _ => And.left)) (List.perm_append_singleton ..)
  | anchor => exact .anchor ..
  | @clone o op _ _ _ found parent child =>
    refine .op parent op.kind _ _ (fun v hv => ?_) (fun _ hc => .inr ⟨o, op, found, hc⟩)
      (insertBehind_perm ..)
    obtain ⟨n, hk⟩ := OpKind.exists_inst_of_child? child
    rw [hk] at hv
    cases hv
  | uses found owner w => exact .uses found owner w
  | removal found => exact .removal found
  | notes => exact .notes ..

theorem change_call (d : Design) (c : Edit.Call) : d.Change (c.run d) := (Edit.effect_run d c).change

theorem Built.coherent (H : d.Built) : d.Coherent := by
  induction H with
  | new name => exact .new name
  | call c _ ih => exact ih.change (change_call _ c)

end Design

end AnnotatedCircuit
