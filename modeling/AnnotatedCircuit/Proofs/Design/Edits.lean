import AnnotatedCircuit.Proofs.Design.Coherent
import AnnotatedCircuit.Proofs.Outcome

/-!
# The edits as changes of the tables

An edit looks up again, behind its first changes, what it has found before; these look-ups cannot
fail, so an edit is one change behind all its questions (`Edit.newOp_eq` and its like).
`Design.Change` lists what the change can be, with what was checked before it. `Edit.drive` alone is
made of several edits, and the first of them stands when a later one fails.
-/

namespace AnnotatedCircuit

/-- A module of the design, or one that an instance already instantiates. -/
def Design.Mentions (d : Design) (c : ModuleId) : Prop :=
  (∃ x, d.module? c = some x) ∨ ∃ o op, d.op? o = some op ∧ op.kind.child? = some c

/-- What one edit can do to a design. -/
inductive Design.Change (d : Design) : Design → Prop where
  | none : Change d d
  | module {name : String} (kind : ModuleKind) (fresh : d.moduleNamed? name = none) :
    Change d { d with
      modules := d.modules ++ [Module.empty ⟨d.modules.length⟩ name kind]
      symbols := d.symbols.add name }
  | ports {m : ModuleId} {x : Module} (found : d.module? m = some x) (ports : List PortDecl) :
    Change d (d.enterPorts m x.ports.length ports)
  | op {m : ModuleId} {x : Module} (found : d.module? m = some x) (kind : OpKind)
    (types : List SignalType) (place : OpId → List OpId → List OpId)
    (visible : ∀ v ∈ kind.operands, d.valueModule v = .ok m)
    (known : ∀ c, kind.child? = some c → d.Mentions c)
    (placed : (place d.nextOp x.body).Perm (d.nextOp :: x.body)) :
    Change d (d.addOp m kind types place)
  | uses {m : ModuleId} {x : Module} {v : ValueId} (found : d.module? m = some x)
    (owner : d.valueModule v = .ok m) (w : ValueId) : Change d (d.redirected v w x.body)
  | removal {o : OpId} {op : Op} (found : d.op? o = some op) : Change d (d.withoutOp o op.parent)
  | notes (pending : List Note) (attachments : Attachments) :
    Change d { d with pending, attachments }
  | anchor (a : Anchor) (symbols : NameSupply) :
    Change d { d with anchors := d.anchors ++ [a], symbols }

theorem OpKind.exists_inst_of_child? {kind : OpKind} {c : ModuleId} (h : kind.child? = some c) :
    ∃ n, kind = .inst n c := by
  cases kind with
  | inst n c' => exact ⟨n, congrArg (OpKind.inst n) (Option.some.inj h)⟩
  | _ => cases h

/-- Only declarations instantiate modules. -/
theorem OpKind.child?_of_nameless {kind : OpKind} (h : kind.name? = none) : kind.child? = none := by
  cases kind <;> first | rfl | cases h

/-- The type of a value, or what becomes of it by a conversion from or to a reference. -/
def Design.Converts (d : Design) (t : SignalType) : Prop :=
  ∃ v t', d.valueType v = .ok t' ∧ (t = t'.toRef ∨ t = t'.deref)

/-- At most one operation that declares nothing is entered, at the end of a body. -/
inductive Design.Leaf (d : Design) : Design → Prop where
  | none : Leaf d d
  | op {m : ModuleId} {x : Module} {kind : OpKind} {types : List SignalType}
    (found : d.module? m = some x) (typed : ∀ t ∈ types, d.Converts t)
    (visible : ∀ v ∈ kind.operands, d.valueModule v = .ok m)
    (nameless : kind.name? = none) : Leaf d (d.addOp m kind types fun o body => body ++ [o])

theorem Design.Leaf.change {d d' : Design} (h : d.Leaf d') : d.Change d' := by
  cases h with
  | none => exact .none
  | op found typed visible nameless =>
    exact .op found _ _ _ visible
      (fun _ hc => nomatch (OpKind.child?_of_nameless nameless).symm.trans hc)
      (List.perm_append_singleton ..)

namespace Design

variable {d d' : Design} {m : ModuleId} {x : Module} {o : OpId} {op : Op} {v : ValueId}

theorem Coherent.change (H : d.Coherent) (h : d.Change d') : d'.Coherent := by
  cases h with
  | none => exact H
  | module kind _ => exact H.addModule _ kind _
  | ports found ports => exact H.enterPorts found
  | op found kind types place _ _ placed => exact H.addOp found placed
  | uses found _ w => exact H.redirected (H.nodup_body found) _ w
  | removal found => exact H.withoutOp found
  | notes | anchor => exact H.congr rfl rfl rfl rfl

/-- The names of the ports and the declarations of a module. -/
def namesOf (d : Design) (m : ModuleId) : List String :=
  (((d.module? m).map Module.ports).getD []).map (·.name) ++
    (d.opsIn m).filterMap (·.kind.name?)

theorem module_eq_ok_iff : d.module m = .ok x ↔ d.module? m = some x := by
  unfold Design.module
  cases d.module? m <;> simp

theorem op_eq_ok_iff : d.op o = .ok op ↔ d.op? o = some op := by
  unfold Design.op
  cases d.op? o <;> simp

theorem value_eq_ok_iff {a : Value} : d.value v = .ok a ↔ d.value? v = some a := by
  unfold Design.value
  cases d.value? v <;> simp

theorem valueType_eq_ok_iff {t : SignalType} :
    d.valueType v = .ok t ↔ ∃ a, d.value? v = some a ∧ a.type = t := by
  unfold valueType
  cases h : d.value v <;> simp [Functor.map, Except.map, ← value_eq_ok_iff, h]

/-- A value belongs to the module of its port, or to that of the operation that defines it. -/
theorem valueModule_eq_ok_iff :
    d.valueModule v = .ok m ↔ ∃ t, (∃ i, d.value? v = some ⟨t, .port m i⟩) ∨
      ∃ o i op, d.value? v = some ⟨t, .result o i⟩ ∧ d.op? o = some op ∧ op.parent = m := by
  unfold valueModule
  cases h : d.value v with
  | error e =>
    have hv : ∀ a, d.value? v ≠ some a := by
      intro a ha
      rw [value_eq_ok_iff.mpr ha] at h
      cases h
    simp [bind, Except.bind, hv]
  | ok a =>
    rw [value_eq_ok_iff] at h
    obtain ⟨t, m' | ⟨o, i⟩⟩ := a
    · simp [bind, Except.bind, h, pure, Except.pure]
    · cases ho : d.op o with
      | error e =>
        have hn : ∀ op, d.op? o ≠ some op := by
          intro op h'
          rw [op_eq_ok_iff.mpr h'] at ho
          cases ho
        simp [bind, Except.bind, h, ho, Functor.map, Except.map, hn]
      | ok op =>
        rw [op_eq_ok_iff] at ho
        simp [bind, Except.bind, h, op_eq_ok_iff.mpr ho, Functor.map, Except.map, ho]

theorem lt_of_valueModule (h : d.valueModule v = .ok m) : v.index < d.values.length := by
  obtain ⟨t, ⟨i, h⟩ | ⟨o, i, op, h, -⟩⟩ := valueModule_eq_ok_iff.mp h
  · exact value?_lt h
  · exact value?_lt h

theorem checkVisible_eq_ok_iff : d.checkVisible m v = .ok () ↔ d.valueModule v = .ok m := by
  unfold checkVisible
  cases h : d.valueModule v with
  | error e => simp [bind, Except.bind]
  | ok m' =>
    by_cases hm : m' = m
    · simp [bind, Except.bind, hm, pure, Except.pure]
    · simp only [bind, Except.bind, ne_eq, hm, not_false_eq_true, if_true, Except.ok.injEq,
        iff_false]
      cases d.moduleName m' with
      | error e => simp
      | ok s => cases d.moduleName m <;> simp [throw, throwThe, MonadExceptOf.throw]

theorem insertBehind_perm (o w : OpId) (body : List OpId) :
    (insertBehind o w body).Perm (w :: body) := by
  induction body with
  | nil => rfl
  | cons p body ih =>
    unfold insertBehind
    split
    · exact .swap ..
    · exact (ih.cons p).trans (.swap ..)

end Design

namespace Edit

open Design

variable {α β : Type} {d d' : Design} {m : ModuleId} {x : Module} {o : OpId} {op : Op} {v : ValueId}
  {a : α} {e : DesignError}

theorem after_ask_bind {P : Design → Prop} {question : Design → Except DesignError α}
    {f : α → Edit β} (h : P d) (hf : ∀ a, question d = .ok a → P ((f a).after d)) :
    P ((ask question >>= f).after d) := by
  simp only [EStateM.after, bind, EStateM.bind, ask]
  cases hq : question d with
  | ok a => exact hf a hq
  | error e => exact h

theorem after_get_bind (f : Design → Edit β) : (get >>= f).after d = (f d).after d := rfl

theorem ask_of_ok {question : Design → Except DesignError α} (h : question d = .ok a) :
    ask question d = .ok a d := by
  rw [ask, h]

theorem ask_of_error {question : Design → Except DesignError α} (h : question d = .error e) :
    ask question d = (.error e d : EStateM.Result _ _ α) := by
  rw [ask, h]

/-- The types of a list of values are a question to the design. -/
theorem mapM_ask (vs : List ValueId) :
    (vs.mapM fun v => ask (·.valueType v) : Edit _) = ask fun d => vs.mapM d.valueType := by
  induction vs with
  | nil => rfl
  | cons v vs ih =>
    rw [List.mapM_cons, ih]
    funext d
    simp only [List.mapM_cons, ask, bind, EStateM.bind, Except.bind]
    cases d.valueType v with
    | error e => rfl
    | ok t =>
      cases h : vs.mapM d.valueType with
      | error e => simp only [h]
      | ok ts => simp only [h]; rfl

/-! ### Look-ups behind changes -/

/-- What follows a question counts only where the question is answered. -/
theorem ask_bind_congr {question : Design → Except DesignError α} {f g : α → Edit β}
    (h : ∀ a, question d = .ok a → f a d = g a d) :
    (ask question >>= f) d = (ask question >>= g) d := by
  cases hq : question d with
  | ok a =>
    rw [EStateM.bind_of_ok (ask_of_ok hq), EStateM.bind_of_ok (ask_of_ok hq)]
    exact h a hq
  | error e => rw [EStateM.bind_of_error (ask_of_error hq), EStateM.bind_of_error (ask_of_error hq)]

theorem changeModule_of_found (hx : d.module? m = some x) (f : Module → Module) :
    changeModule m f d = .ok () (d.modifyModule m f) :=
  EStateM.bind_of_ok (ask_of_ok (module_eq_ok_iff.mpr hx))

/-- The module that was there is there when the operation comes into its body. -/
theorem newOp_eq (m : ModuleId) (kind : OpKind) (types : List SignalType) :
    newOp m kind types = (do
      let _ ← ask (·.module m)
      modifyGet fun d => (d.nextOp, d.addOp m kind types fun o body => body ++ [o])) := by
  funext d
  refine ask_bind_congr fun x hx => ?_
  have there : (d.enterOp m kind types).2.module? m = some x := module_eq_ok_iff.mp hx
  exact EStateM.bind_of_ok (changeModule_of_found there _)

/-- An operation just entered is there, and has its result. -/
theorem newDefinition_eq (m : ModuleId) (kind : OpKind) (type : SignalType) :
    newDefinition m kind type = (do
      let _ ← ask (·.module m)
      modifyGet fun d => ((d.nextOp, (⟨d.values.length⟩ : ValueId)),
        d.addOp m kind [type] fun o body => body ++ [o])) := by
  rw [newDefinition, newOp_eq, bind_assoc]
  funext d
  refine ask_bind_congr fun x hx => ?_
  have there := op_eq_ok_iff.mpr (op?_addOp_self d m kind [type] fun o body => body ++ [o])
  refine (EStateM.bind_of_ok rfl).trans ?_
  exact EStateM.bind_of_ok (x := ask (·.op d.nextOp)) (ask_of_ok there)

/-- A module stays where it is while its ports are entered. -/
theorem pushPorts_of_found (hx : d.module? m = some x) (base : Nat) (ports : List PortDecl) :
    pushPorts m base ports d = .ok (d.nextValues ports) (d.enterPorts m base ports) := by
  induction ports generalizing d x base with
  | nil => rw [enterPorts_nil]; rfl
  | cons p ports ih =>
    have valued : Design.module? { d with values := d.values ++ [⟨p.type, .port m base⟩] } m =
        some x := hx
    have there := module?_modifyModule { d with values := d.values ++ [⟨p.type, .port m base⟩] } m
      (fun x => { x with ports := x.ports ++ [⟨p, ⟨d.values.length⟩⟩] }) m
    rw [valued, Option.map_some] at there
    rw [enterPorts_cons, nextValues_cons]
    refine (EStateM.bind_of_ok rfl).trans
      ((EStateM.bind_of_ok (changeModule_of_found valued _)).trans
        ((EStateM.bind_of_ok (ih there (base + 1))).trans ?_))
    simp only [nextValues, modifyModule, List.length_append, List.length_singleton]
    rfl

theorem growPorts_eq (m : ModuleId) (ports : List PortDecl) :
    growPorts m ports = (do
      let x ← ask (·.module m)
      modifyGet fun d => (d.nextValues ports, d.enterPorts m x.ports.length ports)) := by
  funext d
  exact ask_bind_congr fun x hx => pushPorts_of_found (module_eq_ok_iff.mp hx) _ ports

/-- One new port has one value. -/
theorem newPort_eq (m : ModuleId) (port : PortDecl) :
    newPort m port = (do
      let d ← get
      if d.liveOps.any fun op => op.kind.child? == some m then
        throw (.inconsistent (.portOfInstantiated port.name (← ask (·.moduleName m))))
      let x ← ask (·.module m)
      modifyGet fun d =>
        ((⟨d.values.length⟩ : ValueId), d.enterPorts m x.ports.length [port])) := by
  unfold newPort
  simp only [growPorts_eq, bind_assoc]
  rfl

theorem cloneInstance_eq (o : OpId) (ports : List PortDecl) :
    cloneInstance o ports = (do
      let old ← ask (·.op o)
      if old.kind.child?.isNone then
        throw (.notAnInstance o)
      let _ ← ask (·.module old.parent)
      let types ← ask fun d => old.results.mapM d.valueType
      modifyGet fun d => (d.nextOp,
        d.addOp old.parent old.kind (types ++ ports.map (·.type)) (insertBehind o))) := by
  unfold cloneInstance
  simp only [mapM_ask]
  funext d
  refine ask_bind_congr fun old _ => ?_
  split
  · rfl
  · refine ask_bind_congr fun x hx => ask_bind_congr fun types _ => ?_
    have there :
        (d.enterOp old.parent old.kind (types ++ ports.map (·.type))).2.module? old.parent =
          some x := module_eq_ok_iff.mp hx
    exact EStateM.bind_of_ok (changeModule_of_found there _)

/-- The operation is still there when it is taken, and then its module. -/
theorem removeOp_eq (o : OpId) :
    removeOp o = (do
      let op ← ask (·.op o)
      let _ ← ask (·.module op.parent)
      modifyGet fun d => (op, d.withoutOp o op.parent)) := by
  funext d
  refine ask_bind_congr fun op ho => ask_bind_congr fun x hx => ?_
  have taken : takeOp o d = .ok op { d with ops := d.ops.set o.index none } :=
    EStateM.bind_of_ok (ask_of_ok ho)
  have there : Design.module? { d with ops := d.ops.set o.index none } op.parent = some x :=
    module_eq_ok_iff.mp hx
  exact (EStateM.bind_of_ok taken).trans (EStateM.bind_of_ok (changeModule_of_found there _))

/-! ### Edits that declare nothing -/

theorem leaf_newOp (kind : OpKind) (visible : ∀ v ∈ kind.operands, d.valueModule v = .ok m)
    (nameless : kind.name? = none) {types : List SignalType} (typed : ∀ t ∈ types, d.Converts t) :
    d.Leaf ((newOp m kind types).after d) := by
  rw [newOp_eq]
  exact after_ask_bind .none fun _ h => .op (module_eq_ok_iff.mp h) typed visible nameless

/-- Its result is of no concern to what an operation with one result does. -/
theorem after_newDefinition (m : ModuleId) (kind : OpKind) (type : SignalType) :
    (newDefinition m kind type).after d = (newOp m kind [type]).after d := by
  rw [newDefinition_eq, newOp_eq]
  cases hx : d.module m with
  | ok x =>
    rw [EStateM.after_bind_of_ok (ask_of_ok hx), EStateM.after_bind_of_ok (ask_of_ok hx)]
    rfl
  | error e =>
    rw [EStateM.after_bind_of_error (ask_of_error hx),
      EStateM.after_bind_of_error (ask_of_error hx)]

theorem leaf_newDefinition (kind : OpKind)
    (visible : ∀ v ∈ kind.operands, d.valueModule v = .ok m) (nameless : kind.name? = none)
    {type : SignalType} (typed : d.Converts type) : d.Leaf ((newDefinition m kind type).after d) :=
  after_newDefinition m kind type ▸ leaf_newOp kind visible nameless (by simpa using typed)

theorem visible_singleton (h : d.checkVisible m v = .ok ()) :
    ∀ w ∈ [v], d.valueModule w = .ok m := by
  intro w hw
  cases List.mem_singleton.mp hw
  exact checkVisible_eq_ok_iff.mp h

theorem leaf_connect (m : ModuleId) (dest src : ValueId) : d.Leaf ((connect m dest src).after d) :=
  after_ask_bind .none fun _ hd => after_ask_bind .none fun _ hs =>
    leaf_newOp (.connect dest src)
      (List.forall_mem_cons.mpr ⟨checkVisible_eq_ok_iff.mp hd, visible_singleton hs⟩) rfl nofun

theorem leaf_newConversion {kind : ValueId → OpKind} {convert : SignalType → SignalType}
    (operands : (kind v).operands = [v]) (nameless : (kind v).name? = none)
    (converts : ∀ t, convert t = t.toRef ∨ convert t = t.deref) :
    d.Leaf ((newConversion m kind convert v).after d) := by
  refine after_ask_bind .none fun _ h => after_ask_bind .none fun t ht => ?_
  rw [EStateM.after_map]
  exact leaf_newDefinition (kind v) (operands ▸ visible_singleton h) nameless
    ⟨v, t, ht, converts t⟩

theorem leaf_sendRef (m : ModuleId) (base : ValueId) : d.Leaf ((sendRef m base).after d) :=
  leaf_newConversion rfl rfl fun _ => .inl rfl

theorem leaf_resolveRef (m : ModuleId) (reference : ValueId) :
    d.Leaf ((resolveRef m reference).after d) :=
  leaf_newConversion rfl rfl fun _ => .inr rfl

end Edit

end AnnotatedCircuit
