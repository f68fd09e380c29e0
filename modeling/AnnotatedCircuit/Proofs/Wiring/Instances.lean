import AnnotatedCircuit.Proofs.Design.Continued
import AnnotatedCircuit.Proofs.Wiring.Soundness

/-!
# Instances while a plan is carried out

A copy takes the name of the instance that it replaces, in the same module and with the same child,
and it is there before the instance goes (`Design.Twins`). So every operation has a successor when a
plan has been carried out: on any design and for any plan, also where steps fail
(`Wiring.realize_retains`).
-/

namespace AnnotatedCircuit

namespace Design

variable {d d' : Design} {o copy : OpId} {op : Op}

theorem retains_addOp (d : Design) (m : ModuleId) (kind : OpKind) (types : List SignalType)
    (place : OpId → List OpId → List OpId) : d.Retains (d.addOp m kind types place) id where
  module hx :=
    let ⟨y, hy, hn, _⟩ := exists_module?_addOp hx m kind types place
    ⟨y, hy, hn⟩
  op {_ op} ho := ⟨op, op?_addOp_of_some ho, rfl, rfl, rfl⟩

theorem retains_redirected (d : Design) (old new : ValueId) (body : List OpId) :
    d.Retains (d.redirected old new body) id where
  module {_ x} hx := ⟨x, hx, rfl⟩
  op {o op} ho := by
    obtain ⟨f, hf⟩ := op?_redirected_eq d old new body o
    rw [ho] at hf
    exact ⟨_, hf, rfl, OpKind.name?_mapOperands .., OpKind.child?_mapOperands ..⟩

/-- Notes and anchors say nothing about operations. -/
theorem retains_annotated (d : Design) (pending : List Note) (attachments : Attachments)
    (anchors : List Anchor) (symbols : NameSupply) :
    d.Retains { d with pending, attachments, anchors, symbols } id where
  module {_ x} hx := ⟨x, hx, rfl⟩
  op {_ op} ho := ⟨op, ho, rfl, rfl, rfl⟩

/-- Two live operations in one module, with one name and one child. -/
structure Twins (d : Design) (o copy : OpId) : Prop where
  apart : copy ≠ o
  alike : ∃ op op', d.op? o = some op ∧ d.op? copy = some op' ∧ op'.parent = op.parent ∧
    op'.kind.name? = op.kind.name? ∧ op'.kind.child? = op.kind.child?

theorem twins_addOp (ho : d.op? o = some op) (types : List SignalType)
    (place : OpId → List OpId → List OpId) :
    (d.addOp op.parent op.kind types place).Twins o d.nextOp where
  apart := (ne_nextOp ho).symm
  alike := ⟨op, _, op?_addOp_of_some ho, op?_addOp_self .., rfl, rfl, rfl⟩

/-- An operation with a twin can be taken out. -/
theorem Twins.withoutOp (T : d.Twins o copy) (R : d.Retains d' id) (m : ModuleId) :
    d.Retains (d'.withoutOp o m) (exchange o copy) where
  module hx := by
    obtain ⟨y, hy, hn⟩ := R.module hx
    rw [module?_withoutOp, hy]
    refine ⟨_, rfl, Eq.trans ?_ hn⟩
    split <;> rfl
  op {p q} hp := by
    rw [op?_withoutOp]
    by_cases h : p = o
    · obtain ⟨op, op', ho, hc, parent, name, child⟩ := T.alike
      subst h
      obtain rfl := Option.some.inj (ho.symm.trans hp)
      obtain ⟨q', hq', parent', name', child'⟩ := R.op hc
      rw [exchange_self, if_neg T.apart]
      exact ⟨q', hq', parent'.trans parent, name'.trans name, child'.trans child⟩
    · rw [exchange_of_ne h, if_neg h]
      exact R.op hp

end Design

/-! ### Edits -/

namespace Edit

open Design

variable {α β : Type}

/-- A step after a question is taken if the question is answered. -/
theorem ask_bind_cases (question : Design → Except DesignError α) (f : α → Edit β) (d : Design) :
    (∃ e, (ask question >>= f) d = .error e d) ∨
      ∃ a, question d = .ok a ∧ (ask question >>= f) d = f a d := by
  simp only [bind, EStateM.bind, ask]
  cases question d with
  | ok a => exact .inr ⟨a, rfl, rfl⟩
  | error e => exact .inl ⟨e, rfl⟩

/-- Either nothing happens, or there is a twin. -/
theorem cloneInstance_cases (o : OpId) (ports : List PortDecl) (d : Design) :
    (∃ e, cloneInstance o ports d = .error e d) ∨ ∃ copy d',
      cloneInstance o ports d = .ok copy d' ∧ d.Retains d' id ∧ d'.Twins o copy := by
  rw [cloneInstance_eq]
  rcases ask_bind_cases (·.op o) _ d with ⟨e, h⟩ | ⟨op, ho, h⟩
  · exact .inl ⟨e, h⟩
  · rw [h]
    cases hc : op.kind.child? with
    | none => exact .inl ⟨_, by simp only [Option.isNone_none, if_true]; rfl⟩
    | some c =>
      simp only [Option.isNone_some, Bool.false_eq_true, if_false]
      rcases ask_bind_cases (·.module op.parent) _ d with ⟨e, h⟩ | ⟨_, -, h⟩
      · exact .inl ⟨e, h⟩
      · rw [h]
        rcases ask_bind_cases (fun d => op.results.mapM d.valueType) _ d with ⟨e, h⟩ | ⟨_, -, h⟩
        · exact .inl ⟨e, h⟩
        · exact .inr ⟨_, _, h, retains_addOp .., twins_addOp (op_eq_ok_iff.mp ho) ..⟩

theorem removeOp_cases (o : OpId) (d : Design) :
    (∃ e, removeOp o d = .error e d) ∨ ∃ op, removeOp o d = .ok op (d.withoutOp o op.parent) := by
  rw [removeOp_eq]
  rcases ask_bind_cases (·.op o) _ d with ⟨e, h⟩ | ⟨op, -, h⟩
  · exact .inl ⟨e, h⟩
  · rw [h]
    rcases ask_bind_cases (·.module op.parent) _ d with ⟨e, h⟩ | ⟨_, -, h⟩
    · exact .inl ⟨e, h⟩
    · exact .inr ⟨op, h⟩

theorem retains_redirectUses (old new : ValueId) (d : Design) :
    d.Retains ((redirectUses old new).after d) id :=
  after_ask_bind (P := (d.Retains · id)) (.refl d) fun _ _ =>
    after_ask_bind (P := (d.Retains · id)) (.refl d) fun x _ => retains_redirected d old new x.body

theorem retains_growPorts (m : ModuleId) (ports : List PortDecl) (d : Design) :
    d.Retains ((growPorts m ports).after d) id := by
  rw [growPorts_eq]
  exact after_ask_bind (P := (d.Retains · id)) (.refl d) fun x _ =>
    (continues_enterPorts d m x.ports.length ports).retains

end Edit

/-! ### Carrying out a plan -/

namespace Wiring

open Design

variable {α β : Type}

namespace Realize

variable {d : Design} {s : Realizing} {x : Realize α} {f : α → Realize β}

theorem after_ask (question : Design → Except DesignError α) (s : Realizing) :
    (ask question).after s = s := by
  rw [ask, after_edit]
  simp only [EStateM.after, Edit.ask]
  cases question s.design <;> rfl

theorem retains_redirectResult (old new : ValueId) (s : Realizing) :
    s.design.Retains ((redirectResult old new).after s).design id := by
  have edited : s.design.Retains ((edit (Edit.redirectUses old new)).after s).design id := by
    rw [after_edit]
    exact Edit.retains_redirectUses old new s.design
  exact EStateM.after_bind (P := fun s' : Realizing => s.design.Retains s'.design id) edited
    fun _ _ h => EStateM.after_of_ok h ▸ edited

theorem retains_removeOp {o copy : OpId} (T : d.Twins o copy) (R : d.Retains s.design id) :
    ∃ g, d.Retains ((edit (Edit.removeOp o)).after s).design g := by
  rw [after_edit]
  rcases Edit.removeOp_cases o s.design with ⟨e, h⟩ | ⟨op, h⟩
  · refine ⟨id, ?_⟩
    rw [EStateM.after, h]
    exact R
  · refine ⟨exchange o copy, ?_⟩
    rw [EStateM.after, h]
    exact T.withoutOp R op.parent

/-- Before a further step, one that leaves the operations where they are. -/
theorem retains_bind (R : d.Retains s.design id) (hx : s.design.Retains (x.after s).design id)
    (hf : ∀ a s', d.Retains s'.design id → ∃ g, d.Retains ((f a).after s').design g) :
    ∃ g, d.Retains ((x >>= f).after s).design g :=
  EStateM.after_bind (P := fun s' : Realizing => ∃ g, d.Retains s'.design g) ⟨id, R.trans hx⟩
    fun a s' h => hf a s' (EStateM.after_of_ok h ▸ R.trans hx)

/-- A step after which every operation has a successor, whether it succeeds or not. -/
structure Retaining (x : Realize α) : Prop where
  retains : ∀ s : Realizing, ∃ g, s.design.Retains (x.after s).design g

namespace Retaining

theorem bind (hx : Retaining x) (hf : ∀ a, Retaining (f a)) : Retaining (x >>= f) := by
  refine ⟨fun s => EStateM.after_bind
    (P := fun s' : Realizing => ∃ g, s.design.Retains s'.design g) (hx.retains s) ?_⟩
  intro a s' h
  obtain ⟨_, R⟩ := EStateM.after_of_ok h ▸ hx.retains s
  exact R.exists_trans ((hf a).retains s')

/-- A step that leaves the design as it is. -/
theorem of_design (h : ∀ s : Realizing, (x.after s).design = s.design) : Retaining x :=
  ⟨fun s => ⟨id, (h s).symm ▸ .refl s.design⟩⟩

theorem of_filled {x : Realize Unit} (h : ∀ s : Realizing, s.Filled (x.after s)) : Retaining x :=
  ⟨fun s => ⟨id, (h s).design.continues.retains⟩⟩

theorem ask (question : Design → Except DesignError α) : Retaining (ask question) :=
  of_design fun s => congrArg Realizing.design (after_ask question s)

theorem recorded {x : Realize Unit} (hx : Retaining x) : Retaining (recorded x) := by
  refine ⟨fun s => ?_⟩
  obtain ⟨errors, h⟩ := recorded_ok x s
  rw [EStateM.after_of_ok h]
  exact hx.retains s

theorem forM {f : α → Realize PUnit} (hf : ∀ a, Retaining (f a)) (l : List α) :
    Retaining (l.forM f) := by
  refine ⟨fun s => EStateM.after_forM
    (P := fun s' : Realizing => ∃ g, s.design.Retains s'.design g) ?_ l ⟨id, .refl s.design⟩⟩
  rintro a s' ⟨_, R⟩
  exact R.exists_trans ((hf a).retains s')

theorem replaceInPaths (old new : OpId) : Retaining (replaceInPaths old new) :=
  of_design fun s => by
    rw [EStateM.after, Realize.replaceInPaths]
    cases s.table.replace old new <;> rfl

theorem reissue (ports : List PlannedPort) (site : Site) : Retaining (reissue ports site) := by
  refine bind (.ask _) fun old => ⟨fun s => ?_⟩
  rcases Edit.cloneInstance_cases site.op (ports.map (·.port)) s.design with
    ⟨e, h⟩ | ⟨copy, d, h, R, T⟩
  · have refused : edit (Edit.cloneInstance site.op (ports.map (·.port))) s = .error e s := by
      rw [edit, h]
    rw [EStateM.after_bind_of_error refused]
    exact ⟨id, .refl s.design⟩
  · -- From the copy on, the instance has a twin until it is taken out.
    rw [EStateM.after_bind_of_ok (edit_of_ok h)]
    refine R.exists_trans (retains_bind (.refl d) ?_ fun new s R => ?_)
    · rw [after_ask]
      exact .refl d
    refine retains_bind R ?_ fun _ s R => ?_
    · exact EStateM.after_forM (P := fun s' : Realizing => s.design.Retains s'.design id)
        (fun r s' R => R.trans (retains_redirectResult r.1 r.2 s')) _ (.refl _)
    refine retains_bind R (retains_annotated ..) fun _ s R => ?_
    have removed := retains_removeOp T R
    refine EStateM.after_bind (P := fun s' : Realizing => ∃ g, d.Retains s'.design g) removed ?_
    intro _ s' h
    obtain ⟨_, R⟩ := EStateM.after_of_ok h ▸ removed
    exact R.exists_trans ((bind (replaceInPaths ..) fun _ => of_design fun _ => rfl).retains s')

theorem growPorts (m : ModuleId) (ports : List PortDecl) :
    Retaining (edit (Edit.growPorts m ports)) :=
  ⟨fun s => ⟨id, by rw [after_edit]; exact Edit.retains_growPorts m ports s.design⟩⟩

theorem realizeModule (m : ModuleId) (c : ModuleChanges) : Retaining (realizeModule m c) := by
  refine bind ?_ fun _ => bind ?_ fun _ => ?_
  · refine bind (growPorts ..) fun ports => bind (of_design fun _ => rfl) fun _ => ?_
    exact forM (fun _ => recorded (of_filled fun s => filled_joinPort m c _ _ s)) _
  · exact forM (fun _ => recorded (of_filled fun s => filled_close m c _ _ s)) _
  · unfold reissueAll
    split
    · exact of_design fun _ => rfl
    · exact bind (of_design fun _ => rfl) fun s => forM (fun _ => recorded (reissue ..)) _

theorem visit (m : ModuleId) : Retaining (visit m) := by
  refine bind (of_design fun _ => rfl) fun s => ?_
  split
  · exact of_design fun _ => rfl
  · refine bind (of_design fun _ => rfl) fun _ => ?_
    split
    · exact of_design fun _ => rfl
    · exact recorded (realizeModule ..)

end Retaining

end Realize

/-- Whatever a plan asks for, and whatever fails, every instance goes on under its name. -/
theorem realize_retains (d : Design) (t : PathTable) (plan : Plan) :
    ∃ f, d.Retains (realize d t plan).design f := by
  obtain ⟨f, R⟩ := (Realize.Retaining.forM Realize.Retaining.visit t.hierarchy.childrenFirst).retains
    ⟨d, t, plan, .empty, {}, []⟩
  rw [EStateM.after] at R
  refine ⟨f, ?_⟩
  rw [realize]
  split <;> rename_i hx <;> rw [hx] at R <;> exact R

end Wiring

end AnnotatedCircuit
