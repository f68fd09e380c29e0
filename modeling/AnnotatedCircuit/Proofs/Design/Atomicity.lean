import AnnotatedCircuit.Proofs.Design.Growth
import AnnotatedCircuit.Proofs.Design.History

/-!
# Refused edits

An editing operation looks up its module again when it has entered something, but it finds what it
has found before. So a refused call leaves the whole design as it was, however inconsistent that
design is (`Edit.Call.unchanged_of_refused`).
`Edit.drive` puts two operations one behind the other: it leaves a conversion behind exactly when
the conversion can be entered and the destination is not visible in the module
(`Edit.drive_strands_iff`).
-/

namespace AnnotatedCircuit

namespace Edit

variable {α β : Type} {x : Edit α} {f : α → Edit β}

/-- Whenever the edit is refused, the design is as before. -/
structure Atomic (x : Edit α) : Prop where
  unchanged : ∀ {d e d'}, x d = .error e d' → d' = d

namespace Atomic

theorem of_ok (h : ∀ d, ∃ a d', x d = .ok a d') : Atomic x := by
  refine ⟨fun {d e d'} he => ?_⟩
  obtain ⟨a, d'', ha⟩ := h d
  rw [ha] at he
  contradiction

theorem throw (e : DesignError) (f : α → Edit β) : Atomic (throw e >>= f) :=
  ⟨fun h => (EStateM.Result.error.inj h).2.symm⟩

/-- A question does not change the design, so what follows it counts alone. -/
theorem after_ask {question : Design → Except DesignError α} (h : ∀ a, Atomic (f a)) :
    Atomic (ask question >>= f) := by
  refine ⟨fun {d e d'} he => ?_⟩
  simp only [bind, EStateM.bind, ask] at he
  cases hq : question d with
  | ok a =>
    rw [hq] at he
    exact (h a).unchanged he
  | error e' =>
    rw [hq] at he
    exact (EStateM.Result.error.inj he).2.symm

theorem after_get {f : Design → Edit β} (h : ∀ d, Atomic (f d)) : Atomic (get >>= f) :=
  ⟨fun {d _ _} he => (h d).unchanged he⟩

/-- What cannot be refused may follow anything. -/
theorem then_ok (hx : Atomic x) (h : ∀ a d, ∃ b d', f a d = .ok b d') : Atomic (x >>= f) := by
  refine ⟨fun {d e d'} he => ?_⟩
  cases hd : x d with
  | ok a d₁ =>
    obtain ⟨b, d₂, hb⟩ := h a d₁
    rw [EStateM.bind_of_ok hd, hb] at he
    contradiction
  | error e₁ d₁ =>
    rw [EStateM.bind_of_error hd] at he
    cases he
    exact hx.unchanged hd

theorem map (hx : Atomic x) (g : α → β) : Atomic (g <$> x) :=
  then_ok (f := fun a => pure (g a)) hx fun _ _ => ⟨_, _, rfl⟩

end Atomic

/-! ### The operations -/

theorem atomic_newModule (name : String) (kind : ModuleKind) : Atomic (newModule name kind) := by
  refine .after_get fun d => ?_
  split
  · exact .throw ..
  · exact .of_ok fun _ => ⟨_, _, rfl⟩

theorem atomic_growPorts (m : ModuleId) (ports : List PortDecl) : Atomic (growPorts m ports) := by
  rw [growPorts_eq]
  exact .after_ask fun _ => .of_ok fun _ => ⟨_, _, rfl⟩

theorem atomic_newPort (m : ModuleId) (port : PortDecl) : Atomic (newPort m port) := by
  rw [newPort_eq]
  refine .after_get fun d => ?_
  split
  · exact .after_ask fun _ => .throw ..
  · exact .after_ask fun _ => .of_ok fun _ => ⟨_, _, rfl⟩

theorem atomic_newOp (m : ModuleId) (kind : OpKind) (types : List SignalType) :
    Atomic (newOp m kind types) := by
  rw [newOp_eq]
  exact .after_ask fun _ => .of_ok fun _ => ⟨_, _, rfl⟩

theorem atomic_newDefinition (m : ModuleId) (kind : OpKind) (type : SignalType) :
    Atomic (newDefinition m kind type) := by
  rw [newDefinition_eq]
  exact .after_ask fun _ => .of_ok fun _ => ⟨_, _, rfl⟩

theorem atomic_newNode (m : ModuleId) (name : String) (input : ValueId) :
    Atomic (newNode m name input) :=
  .after_ask fun _ => .after_ask fun _ => atomic_newDefinition ..

theorem atomic_instantiate (m : ModuleId) (name : String) (child : ModuleId) :
    Atomic (instantiate m name child) :=
  .after_ask fun _ => atomic_newOp ..

theorem atomic_connect (m : ModuleId) (dest src : ValueId) : Atomic (connect m dest src) :=
  .after_ask fun _ => .after_ask fun _ => atomic_newOp ..

theorem atomic_newConversion (m : ModuleId) (kind : ValueId → OpKind)
    (convert : SignalType → SignalType) (v : ValueId) : Atomic (newConversion m kind convert v) :=
  .after_ask fun _ => .after_ask fun _ => (atomic_newDefinition ..).map _

theorem atomic_cloneInstance (o : OpId) (ports : List PortDecl) :
    Atomic (cloneInstance o ports) := by
  rw [cloneInstance_eq]
  refine .after_ask fun op => ?_
  split
  · exact .throw ..
  · exact .after_ask fun _ => .after_ask fun _ => .of_ok fun _ => ⟨_, _, rfl⟩

theorem atomic_redirectUses (old new : ValueId) : Atomic (redirectUses old new) :=
  .after_ask fun _ => .after_ask fun _ => .of_ok fun _ => ⟨_, _, rfl⟩

theorem atomic_removeOp (o : OpId) : Atomic (removeOp o) := by
  rw [removeOp_eq]
  exact .after_ask fun _ => .after_ask fun _ => .of_ok fun _ => ⟨_, _, rfl⟩

/-! ### The calls -/

/-- Make a call, whatever it answers. Notes can always be set, and an anchor that cannot be named
is not entered. -/
def Call.perform : Call → Edit PUnit
  | .newModule name kind => discard (Edit.newModule name kind)
  | .newPort m port => discard (Edit.newPort m port)
  | .growPorts m ports => discard (Edit.growPorts m ports)
  | .newWire m name type => discard (Edit.newWire m name type)
  | .newReg m name type => discard (Edit.newReg m name type)
  | .newNode m name input => discard (Edit.newNode m name input)
  | .instantiate m name child => discard (Edit.instantiate m name child)
  | .connect m dest src => discard (Edit.connect m dest src)
  | .sendRef m base => discard (Edit.sendRef m base)
  | .resolveRef m reference => discard (Edit.resolveRef m reference)
  | .newAnchor hint path leaf => modify (Call.newAnchor hint path leaf).run
  | .cloneInstance o ports => discard (Edit.cloneInstance o ports)
  | .redirectUses old new => discard (Edit.redirectUses old new)
  | .removeOp o => discard (Edit.removeOp o)
  | .setNotes pending attachments => modify (Call.setNotes pending attachments).run

theorem after_discard (x : Edit α) (d : Design) : (discard x).after d = x.after d :=
  EStateM.after_map x fun _ => PUnit.unit

/-- The histories of designs are made of these calls. -/
theorem Call.after_perform (c : Call) (d : Design) : c.perform.after d = c.run d := by
  cases c with
  | newAnchor | setNotes => rfl
  | _ => exact after_discard _ d

theorem Call.atomic_perform : ∀ c : Call, Atomic c.perform
  | .newModule name kind => (atomic_newModule name kind).map _
  | .newPort m port => (atomic_newPort m port).map _
  | .growPorts m ports => (atomic_growPorts m ports).map _
  | .newWire m name type => (atomic_newDefinition m (.wire name type) type).map _
  | .newReg m name type => (atomic_newDefinition m (.reg name type) type).map _
  | .newNode m name input => (atomic_newNode m name input).map _
  | .instantiate m name child => (atomic_instantiate m name child).map _
  | .connect m dest src => (atomic_connect m dest src).map _
  | .sendRef m base => (atomic_newConversion m .refSend .toRef base).map _
  | .resolveRef m reference => (atomic_newConversion m .refResolve .deref reference).map _
  | .newAnchor .. => .of_ok fun _ => ⟨_, _, rfl⟩
  | .cloneInstance o ports => (atomic_cloneInstance o ports).map _
  | .redirectUses old new => (atomic_redirectUses old new).map _
  | .removeOp o => (atomic_removeOp o).map _
  | .setNotes .. => .of_ok fun _ => ⟨_, _, rfl⟩

/-- A refused call changes nothing, wherever in the call it is refused. The design need not be
consistent. -/
theorem Call.unchanged_of_refused {c : Call} {d d' : Design} {e : DesignError}
    (h : c.perform d = .error e d') : d' = d := c.atomic_perform.unchanged h

/-- An instance that names a module outside the design as its parent. -/
def strayInstance : Design :=
  { Design.new "Top" with
    modules := [⟨⟨0⟩, "Top", .defined, [], [⟨0⟩]⟩]
    ops := [some ⟨⟨0⟩, ⟨7⟩, .inst "i" ⟨0⟩, []⟩] }

theorem Call.unchanged_of_refused_strayInstance :
    (∃ d', (Call.cloneInstance ⟨0⟩ []).perform strayInstance = .error (.unknownModule ⟨7⟩) d' ∧
      d' = strayInstance) ∧
    (∃ d', (Call.removeOp ⟨0⟩).perform strayInstance = .error (.unknownModule ⟨7⟩) d' ∧
      d' = strayInstance) ∧
    ∃ d', (Call.newWire ⟨7⟩ "w" .clock).perform strayInstance = .error (.unknownModule ⟨7⟩) d' ∧
      d' = strayInstance :=
  ⟨⟨_, rfl, Call.unchanged_of_refused (c := .cloneInstance ⟨0⟩ []) (e := .unknownModule ⟨7⟩) rfl⟩,
    ⟨_, rfl, Call.unchanged_of_refused (c := .removeOp ⟨0⟩) (e := .unknownModule ⟨7⟩) rfl⟩,
    _, rfl, Call.unchanged_of_refused (c := .newWire ⟨7⟩ "w" .clock) (e := .unknownModule ⟨7⟩) rfl⟩

end Edit

/-! ### Driving a value -/

/-- The operation between the two ends of a connection if one of them alone is a reference, and the
type of its result. -/
def OpKind.conversion? (destType srcType : SignalType) (src : ValueId) :
    Option (OpKind × SignalType) :=
  match destType.isRef, srcType.isRef with
  | true, false => some (.refSend src, srcType.toRef)
  | false, true => some (.refResolve src, srcType.deref)
  | _, _ => none

/-- The design with a conversion for a connection that is then refused: the destination is not
visible in the module. -/
structure Design.Stranded (d : Design) (m : ModuleId) (dest src : ValueId) (e : DesignError)
    (d' : Design) : Prop where
  converted : ∃ destType srcType kind t, d.valueType dest = .ok destType ∧
    d.valueType src = .ok srcType ∧ OpKind.conversion? destType srcType src = some (kind, t) ∧
    d' = d.addOp m kind [t] fun o body => body ++ [o]
  found : ∃ x, d.module? m = some x
  visible : d.valueModule src = .ok m
  refused : d'.checkVisible m dest = .error e

namespace Edit

open Design

variable {d d' d₁ : Design} {m : ModuleId} {x : Module} {dest src w : ValueId} {e : DesignError}
  {dt st : SignalType}

/-- Convert the source of a connection if its types ask for it. -/
def convert (m : ModuleId) (destType srcType : SignalType) (src : ValueId) : Edit ValueId :=
  match destType.isRef, srcType.isRef with
  | true, false => sendRef m src
  | false, true => resolveRef m src
  | _, _ => pure src

theorem drive_eq (m : ModuleId) (dest src : ValueId) : drive m dest src =
    ask (·.valueType dest) >>= fun dt => ask (·.valueType src) >>= fun st =>
      convert m dt st src >>= fun w => connect m dest w >>= fun _ => pure () := by
  unfold drive convert
  congr 1; funext dt; congr 1; funext st
  cases dt.isRef <;> cases st.isRef <;> rfl

theorem atomic_convert (m : ModuleId) (dt st : SignalType) (src : ValueId) :
    Atomic (convert m dt st src) := by
  unfold convert
  split
  · exact atomic_newConversion m .refSend .toRef src
  · exact atomic_newConversion m .refResolve .deref src
  · exact .of_ok fun _ => ⟨_, _, rfl⟩

theorem ask_bind_eq_ok_iff {α β : Type} {question : Design → Except DesignError α}
    {f : α → Edit β} {b : β} :
    (ask question >>= f) d = .ok b d' ↔ ∃ a, question d = .ok a ∧ f a d = .ok b d' := by
  simp only [bind, EStateM.bind, ask]
  cases question d <;> simp

theorem ask_bind_eq_error_iff {α β : Type} {question : Design → Except DesignError α}
    {f : α → Edit β} : (ask question >>= f) d = .error e d' ↔
      (question d = .error e ∧ d' = d) ∨ ∃ a, question d = .ok a ∧ f a d = .error e d' := by
  simp only [bind, EStateM.bind, ask]
  cases question d <;> simp [eq_comm]

theorem definition_eq_ok_iff {kind : OpKind} {t : SignalType} :
    (Prod.snd <$> newDefinition m kind t) d = .ok w d' ↔ (∃ x, d.module? m = some x) ∧
      w = ⟨d.values.length⟩ ∧ d' = d.addOp m kind [t] fun o body => body ++ [o] := by
  cases hx : d.module? m with
  | none =>
    have unknown : d.module m = .error (.unknownModule m) := by rw [Design.module, hx]
    have refused : newDefinition m kind t d = .error (.unknownModule m) d := by
      rw [newDefinition_eq]
      exact EStateM.bind_of_error (ask_of_error unknown)
    simp [Functor.map, EStateM.map, refused]
  | some x => simp [Functor.map, EStateM.map, newDefinition_ok hx, eq_comm]

/-- A conversion is entered if the source is visible, unless none is asked for. -/
theorem convert_eq_ok_iff (hs : d.valueType src = .ok st) :
    convert m dt st src d = .ok w d' ↔ match OpKind.conversion? dt st src with
      | none => w = src ∧ d' = d
      | some (kind, t) => d.valueModule src = .ok m ∧ (∃ x, d.module? m = some x) ∧
        w = ⟨d.values.length⟩ ∧ d' = d.addOp m kind [t] fun o body => body ++ [o] := by
  unfold convert OpKind.conversion?
  cases dt.isRef <;> cases st.isRef
  · simp [pure, EStateM.pure, eq_comm]
  · simp [resolveRef, newConversion, ask_bind_eq_ok_iff, definition_eq_ok_iff, Unique.exists_iff,
      checkVisible_eq_ok_iff, hs]
  · simp [sendRef, newConversion, ask_bind_eq_ok_iff, definition_eq_ok_iff, Unique.exists_iff,
      checkVisible_eq_ok_iff, hs]
  · simp [pure, EStateM.pure, eq_comm]

/-- A connection that is refused has its destination to blame if the module and the source are as
they should be. -/
theorem checkVisible_of_connect (hx : d.module? m = some x) (hs : d.valueModule src = .ok m)
    (h : connect m dest src d = .error e d') : d.checkVisible m dest = .error e := by
  cases hd : d.checkVisible m dest with
  | error e' =>
    have refused : connect m dest src d = .error e' d := EStateM.bind_of_error (by rw [ask, hd])
    rw [refused] at h
    cases h
    rfl
  | ok u =>
    have entered : connect m dest src d = newOp m (.connect dest src) [] d :=
      (EStateM.bind_of_ok (ask_of_ok hd)).trans
        (EStateM.bind_of_ok (ask_of_ok (checkVisible_eq_ok_iff.mpr hs)))
    rw [entered, newOp_ok hx] at h
    contradiction

theorem refused_of_dropped {x : Edit α}
    (h : (x >>= fun _ => (pure () : Edit Unit)) d = .error e d') : x d = .error e d' := by
  cases hx : x d with
  | error e₁ d₁ =>
    rw [EStateM.bind_of_error hx] at h
    cases h
    rfl
  | ok a d₁ =>
    rw [EStateM.bind_of_ok hx] at h
    contradiction

/-- A drive that is refused changes the design exactly by stranding a conversion. -/
theorem drive_strands_iff :
    drive m dest src d = .error e d' ∧ d' ≠ d ↔ d.Stranded m dest src e d' := by
  constructor
  · rintro ⟨h, changed⟩
    -- up to the end of the conversion, a refusal leaves the design as it is
    simp only [drive_eq, ask_bind_eq_error_iff, changed, and_false, false_or] at h
    obtain ⟨dt, hdt, st, hst, h⟩ := h
    cases hc : convert m dt st src d with
    | error e' d₁ =>
      rw [EStateM.bind_of_error hc] at h
      cases h
      exact absurd ((atomic_convert m dt st src).unchanged hc) changed
    | ok w d₁ =>
      rw [EStateM.bind_of_ok hc] at h
      have refused := refused_of_dropped h
      obtain rfl := (atomic_connect m dest w).unchanged refused
      rw [convert_eq_ok_iff hst] at hc
      cases hk : OpKind.conversion? dt st src with
      | none =>
        rw [hk] at hc
        exact absurd hc.2 changed
      | some k =>
        rw [hk] at hc
        obtain ⟨hs, ⟨x, hx⟩, rfl, rfl⟩ := hc
        obtain ⟨y, hy, -⟩ := exists_module?_addOp hx m k.1 [k.2] fun o body => body ++ [o]
        exact ⟨⟨dt, st, k.1, k.2, hdt, hst, hk, rfl⟩, ⟨x, hx⟩, hs,
          checkVisible_of_connect hy (valueModule_addOp_self ..) refused⟩
  · rintro ⟨⟨dt, st, kind, t, hdt, hst, hc, rfl⟩, hx, hs, refused⟩
    have converted : convert m dt st src d = .ok ⟨d.values.length⟩ _ :=
      (convert_eq_ok_iff hst).mpr (by rw [hc]; exact ⟨hs, hx, rfl, rfl⟩)
    refine ⟨?_, fun same => ?_⟩
    · rw [drive_eq, EStateM.bind_of_ok (ask_of_ok hdt), EStateM.bind_of_ok (ask_of_ok hst),
        EStateM.bind_of_ok converted]
      exact EStateM.bind_of_error (EStateM.bind_of_error (ask_of_error refused))
    · have longer := congrArg (fun d : Design => d.ops.length) same
      simp at longer

/-- A wire of the top module, and a wire for a reference in another module. -/
def apartWires : Design :=
  { Design.new "Top" with
    modules := [⟨⟨0⟩, "Top", .defined, [], [⟨0⟩]⟩, ⟨⟨1⟩, "A", .defined, [], [⟨1⟩]⟩]
    ops := [some ⟨⟨0⟩, ⟨0⟩, .wire "w" .clock, [⟨0⟩]⟩,
      some ⟨⟨1⟩, ⟨1⟩, .wire "r" (.ref .clock), [⟨1⟩]⟩]
    values := [⟨.clock, .result ⟨0⟩ 0⟩, ⟨.ref .clock, .result ⟨1⟩ 0⟩] }

example : drive ⟨0⟩ ⟨1⟩ ⟨0⟩ apartWires =
    .error (.inconsistent (.foreignValue ⟨1⟩ "A" "Top"))
      (apartWires.addOp ⟨0⟩ (.refSend ⟨0⟩) [.ref .clock] fun o body => body ++ [o]) := rfl

end Edit

end AnnotatedCircuit
