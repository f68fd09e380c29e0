import AnnotatedCircuit.Proofs.Design.Drives
import AnnotatedCircuit.Proofs.Design.History

/-!
# Designs that are only added to

A call constructs if it leaves alone what a design has (`Edit.Call.constructs`). A design made by
such calls passes its check, and the results of its instances have the types of the ports that they
stand for (`Design.check_constructed`). That a port is refused to a module with instances keeps the
two in step.
-/

namespace AnnotatedCircuit

/-- The calls that change no operation, and not the ports of a module with instances. -/
def Edit.Call.constructs : Edit.Call → Bool
  | .growPorts .. | .cloneInstance .. | .redirectUses .. | .removeOp .. => false
  | _ => true

namespace Design

variable {d d' : Design} {m c : ModuleId} {op : Op} {kind : OpKind} {types : List SignalType}
  {call : Edit.Call}

/-- An operation uses values of its own module. As an instance it has one result for each port of
its child, of the type of the port. -/
structure Proper (d : Design) (op : Op) : Prop where
  visible : ∀ {v}, v ∈ op.kind.operands → d.valueModule v = .ok op.parent
  matching : ∀ {c}, op.kind.child? = some c → ∃ x, d.module? c = some x ∧
    List.Forall₂ (fun v (p : Port) => d.valueType v = .ok p.type) op.results x.ports

/-- An extension keeps an operation proper if the child of it keeps its ports. -/
theorem Proper.extended (P : d.Proper op) (E : d.Extends d')
    (same : ∀ {c x}, op.kind.child? = some c → d.module? c = some x →
      ∃ y, d'.module? c = some y ∧ y.ports = x.ports) : d'.Proper op where
  visible hv := E.valueModule (P.visible hv)
  matching hc := by
    obtain ⟨x, hx, typed⟩ := P.matching hc
    obtain ⟨y, hy, ports⟩ := same hc hx
    exact ⟨y, hy, ports ▸ typed.imp fun _ _ => E.valueType⟩

theorem valueType_nextValues (d : Design) (m : ModuleId) (kind : OpKind)
    (types : List SignalType) (place : OpId → List OpId → List OpId) :
    List.Forall₂ (fun v t => (d.addOp m kind types place).valueType v = .ok t)
      (d.nextValues types) types := by
  refine List.forall₂_iff_get.mpr ⟨length_nextValues, fun i _ h => ?_⟩
  refine valueType_eq_ok_iff.mpr ⟨_, value?_addOp.mpr (.inr ⟨i, _, ?_, ?_, rfl⟩), rfl⟩
  · exact List.getElem?_eq_getElem h
  · simp [nextValues]

/-- The operation that a call asks for is proper. -/
theorem Typing.proper (T : d.Typing m kind types) :
    (d.addOp m kind types fun o body => body ++ [o]).Proper
      ⟨d.nextOp, m, kind, d.nextValues types⟩ where
  visible hv := (extends_addOp d m kind types).valueModule (T.visible _ hv)
  matching hc := by
    obtain ⟨y, hy, rfl⟩ := T.child hc
    obtain ⟨y', hy', -, ports, -⟩ := exists_module?_addOp hy m kind (y.ports.map (·.type))
      fun o body => body ++ [o]
    have typed := valueType_nextValues d m kind (y.ports.map (·.type)) fun o body => body ++ [o]
    rw [List.forall₂_map_right_iff] at typed
    exact ⟨y', hy', ports.symm ▸ typed⟩

/-- All live operations are proper. -/
def AllProper (d : Design) : Prop := ∀ {o op}, d.op? o = some op → d.Proper op

theorem AllProper.effect (P : d.AllProper) (h : d.Effect call d') (hc : call.constructs = true) :
    d'.AllProper := by
  cases h with
  | none => exact P
  | anchor | notes =>
    exact fun ho => (P ho).extended (.of_tables rfl rfl rfl rfl) fun _ hx => ⟨_, hx, rfl⟩
  | @module name kind fresh =>
    intro o op ho
    have E := extends_addModule d (Module.empty ⟨d.modules.length⟩ name kind) (d.symbols.add name)
    exact (P ho).extended E fun _ hx =>
      ⟨_, getElem?_of_isPrefix (List.prefix_append ..) hx, rfl⟩
  | @port m x found unused p =>
    intro o op ho
    refine (P ho).extended (extends_enterPorts d m x.ports.length [p]) fun {c y} hc hy => ?_
    -- the module that gets the port is no child
    have ne : c ≠ m := fun e => unused ho (e ▸ hc)
    obtain ⟨y', hy', -, -, ports⟩ := exists_module?_enterPorts hy m x.ports.length [p]
    exact ⟨y', hy', by rw [ports, if_neg ne]⟩
  | op asked found typing =>
    intro o op ho
    rcases op?_addOp_cases ho with ⟨rfl, rfl⟩ | ho
    · exact typing.proper
    · refine (P ho).extended (extends_addOp ..) fun _ hx => ?_
      obtain ⟨y, hy, -, ports, -⟩ := exists_module?_addOp hx ..
      exact ⟨y, hy, ports⟩
  | ports | clone | uses | removal => cases hc

theorem AllProper.edited (P : d.AllProper) {calls : List Edit.Call}
    (h : ∀ c ∈ calls, c.constructs = true) : (d.edited calls).AllProper := by
  induction calls generalizing d with
  | nil => exact P
  | cons c calls ih =>
    obtain ⟨hc, h⟩ := List.forall_mem_cons.mp h
    exact ih (P.effect (Edit.effect_run d c) hc) h

theorem check_of_allProper (P : d.AllProper) (H : d.Coherent) : d.check = .ok () := by
  refine (check_eq_ok_iff H).mpr ⟨fun ho => (P ho).visible, fun ho hc => ?_⟩
  obtain ⟨x, hx, typed⟩ := (P ho).matching hc
  exact ⟨x, hx, typed.length_eq⟩

/-- Calls that construct, in any order and with any arguments, lead from a new design to one that
passes its check and in which every operation is proper. -/
theorem check_constructed (name : String) (calls : List Edit.Call)
    (h : ∀ c ∈ calls, c.constructs = true) :
    ((Design.new name).edited calls).check = .ok () ∧
      ∀ {o op}, ((Design.new name).edited calls).op? o = some op →
        ((Design.new name).edited calls).Proper op := by
  have P : (Design.new name).AllProper := fun ho => by simp at ho
  exact ⟨check_of_allProper (P.edited h) ((Built.new name).edited calls).coherent, P.edited h⟩

/-- A module that instantiates itself, ports refused to it, values from elsewhere, and an anchor. -/
def selfInstancing : List Edit.Call :=
  [.newPort ⟨0⟩ ⟨"in", .uint (some 8), .input⟩, .newModule "Leaf" .defined,
    .newModule "Leaf" .external, .newPort ⟨1⟩ ⟨"out", .clock, .output⟩, .instantiate ⟨0⟩ "self" ⟨0⟩,
    .newPort ⟨0⟩ ⟨"late", .clock, .input⟩, .instantiate ⟨0⟩ "leaf" ⟨1⟩, .connect ⟨0⟩ ⟨2⟩ ⟨0⟩,
    .connect ⟨0⟩ ⟨2⟩ ⟨1⟩, .sendRef ⟨0⟩ ⟨2⟩, .newAnchor "ref" [⟨"Top", "leaf"⟩] "Leaf",
    .newNode ⟨1⟩ "n" ⟨9⟩]

theorem check_constructed_selfInstancing : (∀ c ∈ selfInstancing, c.constructs = true) ∧
    ((Design.new "Top").edited selfInstancing).check = .ok () ∧
      ((Design.new "Top").edited selfInstancing).Proper ⟨⟨0⟩, ⟨0⟩, .inst "self" ⟨0⟩, [⟨2⟩]⟩ := by
  obtain ⟨checked, proper⟩ := check_constructed "Top" selfInstancing (by decide)
  exact ⟨by decide, checked, proper (o := ⟨0⟩) (by decide)⟩

end Design

end AnnotatedCircuit
