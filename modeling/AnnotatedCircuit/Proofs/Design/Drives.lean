import Mathlib.Logic.Relation
import AnnotatedCircuit.Proofs.Design.Verified

/-!
# Which value drives which

A value feeds another one through a connection, through a conversion from or to a reference, or
across the boundary of an instance (`Design.Feeds`). It drives what chains of such steps lead to.
Whatever is only added to a design keeps these relations (`Design.Extends`).
-/

namespace AnnotatedCircuit.Design

variable {d d' d'' : Design} {m : ModuleId} {x : Module} {o : OpId} {op : Op} {kind : OpKind}
  {types : List SignalType} {place : OpId → List OpId → List OpId} {ports : List PortDecl}
  {v w : ValueId}

theorem getElem?_of_isPrefix {l l' : List α} {i : Nat} {a : α} (h : l <+: l')
    (hi : l[i]? = some a) : l'[i]? = some a := by
  obtain ⟨hlt, rfl⟩ := List.getElem?_eq_some_iff.mp hi
  exact List.prefix_iff_getElem?.mp h i hlt

/-- One step of a signal. -/
inductive Feeds (d : Design) : ValueId → ValueId → Prop where
  | connect {o : OpId} {op : Op} {dest src : ValueId} (live : d.op? o = some op)
    (kind : op.kind = .connect dest src) : Feeds d src dest
  | refSend {o : OpId} {op : Op} {base w : ValueId} (live : d.op? o = some op)
    (kind : op.kind = .refSend base) (result : op.results[0]? = some w) : Feeds d base w
  | refResolve {o : OpId} {op : Op} {reference w : ValueId} (live : d.op? o = some op)
    (kind : op.kind = .refResolve reference) (result : op.results[0]? = some w) :
    Feeds d reference w
  /-- From outside an instance to an input port of its module. -/
  | enter {o : OpId} {op : Op} {c : ModuleId} {x : Module} {i : Nat} {p : Port} {w : ValueId}
    (live : d.op? o = some op) (child : op.kind.child? = some c) (found : d.module? c = some x)
    (port : x.ports[i]? = some p) (result : op.results[i]? = some w)
    (input : p.direction = .input) : Feeds d w p.value
  /-- From an output port of a module to the outside of an instance of it. -/
  | leave {o : OpId} {op : Op} {c : ModuleId} {x : Module} {i : Nat} {p : Port} {w : ValueId}
    (live : d.op? o = some op) (child : op.kind.child? = some c) (found : d.module? c = some x)
    (port : x.ports[i]? = some p) (result : op.results[i]? = some w)
    (output : p.direction = .output) : Feeds d p.value w

/-- A chain of steps of a signal. -/
def Drives (d : Design) : ValueId → ValueId → Prop := Relation.ReflTransGen d.Feeds

theorem Feeds.drives (h : d.Feeds v w) : d.Drives v w := .single h

/-! ### Extensions of a design -/

theorem valueType_of_value {t : SignalType}
    (value : ∀ {v a}, d.value? v = some a → d'.value? v = some a)
    (h : d.valueType v = .ok t) : d'.valueType v = .ok t := by
  obtain ⟨a, ha, rfl⟩ := valueType_eq_ok_iff.mp h
  exact valueType_eq_ok_iff.mpr ⟨a, value ha, rfl⟩

/-- Nothing is lost or changed: ports and bodies become longer at their ends, and what was removed
does not come back. -/
structure Extends (d d' : Design) : Prop where
  top : d'.top = d.top
  op : ∀ {o op}, d.op? o = some op → d'.op? o = some op
  gone : ∀ {o}, o.index < d.ops.length → d.op? o = none →
    o.index < d'.ops.length ∧ d'.op? o = none
  value : ∀ {v a}, d.value? v = some a → d'.value? v = some a
  module : ∀ {m x}, d.module? m = some x →
    ∃ y, d'.module? m = some y ∧ y.name = x.name ∧ x.ports <+: y.ports ∧ x.body <+: y.body

namespace Extends

theorem refl (d : Design) : d.Extends d :=
  ⟨rfl, id, fun h h' => ⟨h, h'⟩, id, fun h => ⟨_, h, rfl, List.prefix_rfl, List.prefix_rfl⟩⟩

/-- The other tables do not matter. -/
theorem of_tables (top : d'.top = d.top) (modules : d'.modules = d.modules)
    (ops : d'.ops = d.ops) (values : d'.values = d.values) : d.Extends d' where
  top := top
  op h := by rwa [op?, ops]
  gone h h' := by rw [op?, ops]; exact ⟨h, h'⟩
  value h := by rwa [value?, values]
  module h := by
    refine ⟨_, ?_, rfl, List.prefix_rfl, List.prefix_rfl⟩
    rwa [module?, modules]

theorem trans (E : d.Extends d') (E' : d'.Extends d'') : d.Extends d'' where
  top := E'.top.trans E.top
  op h := E'.op (E.op h)
  gone h h' := by
    obtain ⟨hl, hn⟩ := E.gone h h'
    exact E'.gone hl hn
  value h := E'.value (E.value h)
  module h := by
    obtain ⟨y, hy, hn, hp, hb⟩ := E.module h
    obtain ⟨z, hz, hn', hp', hb'⟩ := E'.module hy
    exact ⟨z, hz, hn'.trans hn, hp.trans hp', hb.trans hb'⟩

theorem length (E : d.Extends d') : d.ops.length ≤ d'.ops.length := by
  by_contra hlt
  rw [Nat.not_le] at hlt
  -- the operation there now would have to be there later on
  cases ho : d.op? ⟨d'.ops.length⟩ with
  | some op => exact Nat.lt_irrefl _ (op?_lt (E.op ho))
  | none => exact Nat.lt_irrefl _ (E.gone hlt ho).1

theorem valueModule (E : d.Extends d') (h : d.valueModule v = .ok m) :
    d'.valueModule v = .ok m := by
  obtain ⟨t, ⟨i, hv⟩ | ⟨o, i, op, hv, ho, hm⟩⟩ := valueModule_eq_ok_iff.mp h
  · exact valueModule_eq_ok_iff.mpr ⟨t, .inl ⟨i, E.value hv⟩⟩
  · exact valueModule_eq_ok_iff.mpr ⟨t, .inr ⟨o, i, op, E.value hv, E.op ho, hm⟩⟩

theorem valueType {t : SignalType} (E : d.Extends d') (h : d.valueType v = .ok t) :
    d'.valueType v = .ok t := valueType_of_value E.value h

theorem feeds (E : d.Extends d') (h : d.Feeds v w) : d'.Feeds v w := by
  cases h with
  | connect live kind => exact .connect (E.op live) kind
  | refSend live kind result => exact .refSend (E.op live) kind result
  | refResolve live kind result => exact .refResolve (E.op live) kind result
  | enter live child found port result input =>
    obtain ⟨y, hy, -, hp, -⟩ := E.module found
    exact .enter (E.op live) child hy (getElem?_of_isPrefix hp port) result input
  | leave live child found port result output =>
    obtain ⟨y, hy, -, hp, -⟩ := E.module found
    exact .leave (E.op live) child hy (getElem?_of_isPrefix hp port) result output

theorem drives (E : d.Extends d') (h : d.Drives v w) : d'.Drives v w :=
  Relation.ReflTransGen.mono (p := d'.Feeds) (fun _ _ => E.feeds) _ _ h

end Extends

/-- A module at the end of the table extends the design. -/
theorem extends_addModule (d : Design) (x : Module) (symbols : NameSupply) :
    d.Extends { d with modules := d.modules ++ [x], symbols } where
  top := rfl
  op := id
  gone h h' := ⟨h, h'⟩
  value := id
  module h :=
    ⟨_, getElem?_of_isPrefix (List.prefix_append ..) h, rfl, List.prefix_rfl, List.prefix_rfl⟩

theorem extends_enterPorts (d : Design) (m : ModuleId) (base : Nat) (ports : List PortDecl) :
    d.Extends (d.enterPorts m base ports) where
  top := rfl
  op := id
  gone h h' := ⟨h, h'⟩
  value h := value?_enterPorts.mpr (.inl h)
  module h := by
    obtain ⟨y, hy, hname, hbody, hports⟩ := exists_module?_enterPorts h m base ports
    refine ⟨y, hy, hname, ?_, hbody ▸ List.prefix_rfl⟩
    rw [hports]
    split
    · exact List.prefix_append ..
    · exact List.prefix_rfl

/-- An operation at the end of a body extends the design. -/
theorem extends_addOp (d : Design) (m : ModuleId) (kind : OpKind) (types : List SignalType) :
    d.Extends (d.addOp m kind types fun o body => body ++ [o]) where
  top := rfl
  op := op?_addOp_of_some
  gone h h' := by
    rw [length_ops_addOp, op?_addOp, if_neg (ne_nextOp_of_lt h)]
    exact ⟨Nat.lt_succ_of_lt h, h'⟩
  value h := value?_addOp.mpr (.inl h)
  module h := by
    obtain ⟨y, hy, hname, hports, hbody⟩ :=
      exists_module?_addOp h m kind types fun o body => body ++ [o]
    refine ⟨y, hy, hname, hports ▸ List.prefix_rfl, ?_⟩
    rw [hbody]
    split
    · exact List.prefix_append ..
    · exact List.prefix_rfl

end AnnotatedCircuit.Design
