import AnnotatedCircuit.Proofs.Design.Growth
import AnnotatedCircuit.Proofs.Design.History

/-!
# Tables that point at each other

A value is held by a slot, a port of a module or a result of a live operation (`Design.Holds`). In a
coherent design the origin of a value names the one slot that holds it, unless the value is left
over from an operation that was removed. Together with identities, bodies and names this is what
the tables of every built design look like (`Design.crossLinked_edited`).
-/

namespace AnnotatedCircuit.Design

variable {d d' : Design} {m : ModuleId} {x : Module} {o : OpId} {v : ValueId} {a : Value}
  {s : ValueOrigin} {c : Edit.Call}

/-! ### Names of modules -/

theorem names_eq {f : ModuleId → Module → Module}
    (h : ∀ m, d'.module? m = (d.module? m).map (f m)) (hf : ∀ m x, (f m x).name = x.name) :
    d'.modules.map Module.name = d.modules.map Module.name := by
  refine map_modules_eq fun m => ?_
  rw [h, Option.map_map]
  exact congrArg (Option.map · _) (funext (hf m))

theorem names_enterPorts (d : Design) (m : ModuleId) (base : Nat) (ports : List PortDecl) :
    (d.enterPorts m base ports).modules.map Module.name = d.modules.map Module.name :=
  names_eq (module?_enterPorts d m base ports) fun _ _ => by split <;> rfl

theorem names_addOp (d : Design) (m : ModuleId) (kind : OpKind) (types : List SignalType)
    (place : OpId → List OpId → List OpId) :
    (d.addOp m kind types place).modules.map Module.name = d.modules.map Module.name :=
  names_eq (module?_addOp d m kind types place) fun _ _ => by split <;> rfl

theorem names_withoutOp (d : Design) (o : OpId) (m : ModuleId) :
    (d.withoutOp o m).modules.map Module.name = d.modules.map Module.name :=
  names_eq (module?_withoutOp d o m) fun _ _ => by split <;> rfl

/-- A change keeps the names of all modules; a new module has a new name. -/
theorem names_change (h : d.Change d') : d'.modules.map Module.name = d.modules.map Module.name ∨
    ∃ name, d'.modules.map Module.name = d.modules.map Module.name ++ [name] ∧
      name ∉ d.modules.map Module.name := by
  cases h with
  | none | uses | notes | anchor => exact .inl rfl
  | @module name kind fresh =>
    refine .inr ⟨name, by simp [Module.empty], fun h => ?_⟩
    obtain ⟨x, hx, rfl⟩ := List.mem_map.mp h
    rw [moduleNamed?, Option.map_eq_none_iff, List.find?_eq_none] at fresh
    exact fresh x hx (beq_self_eq_true _)
  | ports => exact .inl (names_enterPorts ..)
  | op => exact .inl (names_addOp ..)
  | removal => exact .inl (names_withoutOp ..)

theorem Built.nodup_names (H : d.Built) : (d.modules.map Module.name).Nodup := by
  induction H with
  | new name => exact List.nodup_singleton _
  | call c _ ih =>
    rcases names_change (change_call _ c) with e | ⟨name, e, fresh⟩
    · rwa [e]
    · rw [e]
      exact List.nodup_append.mpr ⟨ih, List.nodup_singleton _, by simpa using fresh⟩

/-- A module of a built design is known by its name. -/
theorem Built.module_unique {n : ModuleId} {x y : Module} (H : d.Built) (hx : d.module? m = some x)
    (hy : d.module? n = some y) (same : x.name = y.name) : m = n := by
  have e := List.inj_on_of_nodup_map H.nodup_names (module?_mem hx) (module?_mem hy) same
  rw [← H.coherent.module_id hx, e, H.coherent.module_id hy]

/-! ### Anchors -/

/-- An anchor stands at the place that its identity names. -/
def AnchorsPlaced (d : Design) : Prop := ∀ {a x}, d.anchor? a = some x → x.id = a

theorem AnchorsPlaced.effect (P : d.AnchorsPlaced) (h : d.Effect c d') : d'.AnchorsPlaced := by
  cases h with
  | anchor =>
    intro a x ha
    rw [anchor?, List.getElem?_append] at ha
    split at ha
    · exact P ha
    · rename_i hlt
      obtain ⟨hi, rfl⟩ := List.getElem?_eq_some_iff.mp ha
      rw [List.length_singleton] at hi
      obtain ⟨i⟩ := a
      simp only [List.getElem_singleton, AnchorId.mk.injEq] at hlt hi ⊢
      omega
  | _ => exact P

theorem Built.anchorsPlaced (H : d.Built) : d.AnchorsPlaced := by
  induction H with
  | new name => exact fun h => nomatch h
  | call c _ ih => exact ih.effect (Edit.effect_run _ c)

/-! ### Slots -/

/-- A slot of the tables holds a value. -/
inductive Holds (d : Design) : ValueOrigin → ValueId → Prop where
  | port {m : ModuleId} {x : Module} {i : Nat} {p : Port} (found : d.module? m = some x)
    (port : x.ports[i]? = some p) : Holds d (.port m i) p.value
  | result {o : OpId} {op : Op} {i : Nat} {v : ValueId} (live : d.op? o = some op)
    (result : op.results[i]? = some v) : Holds d (.result o i) v

/-- An operation has been entered and taken out again. -/
def Removed (d : Design) (o : OpId) : Prop := d.ops[o.index]? = some none

theorem removed_iff : d.Removed o ↔ o.index < d.ops.length ∧ d.op? o = none := by
  unfold Removed op?
  cases h : d.ops[o.index]? with
  | none => simp [List.getElem?_eq_none_iff.mp h]
  | some op => simp [(List.getElem?_eq_some_iff.mp h).1]

/-- What a slot holds is a value of the table, with the slot for its origin. -/
theorem Coherent.value_of_holds (H : d.Coherent) (h : d.Holds s v) :
    ∃ t, d.value? v = some ⟨t, s⟩ := by
  cases h with
  | port found port => exact ⟨_, H.port_value found port⟩
  | result live result => exact H.result_value live result

theorem Coherent.eq_origin_of_holds (H : d.Coherent) (hv : d.value? v = some a)
    (h : d.Holds s v) : s = a.origin := by
  obtain ⟨t, ht⟩ := H.value_of_holds h
  rw [hv] at ht
  cases ht
  rfl

/-- The origin of a value is the one slot that holds it, or a result of an operation that was
removed. -/
theorem Coherent.origin_cases (H : d.Coherent) (hv : d.value? v = some a) :
    (∀ s, d.Holds s v ↔ s = a.origin) ∨
      ∃ o i, a.origin = .result o i ∧ d.Removed o ∧ ∀ s, ¬d.Holds s v := by
  have only : d.Holds a.origin v → ∀ s, d.Holds s v ↔ s = a.origin := fun h s =>
    ⟨H.eq_origin_of_holds hv, fun e => e ▸ h⟩
  obtain ⟨t, m | ⟨o, i⟩⟩ := a
  · obtain ⟨x, p, hx, hp, rfl⟩ := H.port_origin hv
    exact .inl (only (.port hx hp))
  · obtain ⟨hlt, hresult⟩ := H.result_origin hv
    cases ho : d.op? o with
    | some op => exact .inl (only (.result ho (hresult op ho)))
    | none =>
      refine .inr ⟨o, i, rfl, removed_iff.mpr ⟨hlt, ho⟩, fun s h => ?_⟩
      obtain rfl := H.eq_origin_of_holds hv h
      cases h with
      | result live =>
        rw [ho] at live
        cases live

/-! ### All tables -/

/-- The tables of a design point at each other, in both directions. -/
structure CrossLinked (d : Design) : Prop where
  module_id : ∀ {m x}, d.module? m = some x → x.id = m
  op_id : ∀ {o op}, d.op? o = some op → op.id = o
  anchor_id : ∀ {a x}, d.anchor? a = some x → x.id = a
  /-- A live operation stands once in the body of its module. -/
  listed_once : ∀ {o op}, d.op? o = some op →
    ∃ x, d.module? op.parent = some x ∧ x.body.count o = 1
  /-- Nothing else stands in the body of a module. -/
  listed_live : ∀ {m x o}, d.module? m = some x → o ∈ x.body →
    ∃ op, d.op? o = some op ∧ op.parent = m
  value_of_slot : ∀ {s v}, d.Holds s v → ∃ a, d.value? v = some a
  slot_of_value : ∀ {v a}, d.value? v = some a → (∀ s, d.Holds s v ↔ s = a.origin) ∨
    ∃ o i, a.origin = .result o i ∧ d.Removed o ∧ ∀ s, ¬d.Holds s v
  port_type : ∀ {m x p a}, d.module? m = some x → p ∈ x.ports → d.value? p.value = some a →
    a.type = p.type
  nodup_names : (d.modules.map Module.name).Nodup

theorem Built.crossLinked (H : d.Built) : d.CrossLinked where
  module_id := H.coherent.module_id
  op_id := H.coherent.op_id
  anchor_id := H.anchorsPlaced
  listed_once {o op} ho := by
    obtain ⟨x, hx⟩ := H.coherent.parent_module ho
    have listed : o ∈ x.body := (H.coherent.mem_body hx).mpr ⟨op, ho, rfl⟩
    exact ⟨x, hx, List.count_eq_one_of_mem (H.coherent.nodup_body hx) listed⟩
  listed_live hx ho := (H.coherent.mem_body hx).mp ho
  value_of_slot h := (H.coherent.value_of_holds h).imp' _ fun _ => id
  slot_of_value := H.coherent.origin_cases
  port_type hx hp ha := by
    obtain ⟨i, hi⟩ := List.mem_iff_getElem?.mp hp
    rw [H.coherent.port_value hx hi] at ha
    cases ha
    rfl
  nodup_names := H.nodup_names

/-- Whatever calls of the editing operations have come and failed since a design was new, its tables
point at each other. -/
theorem crossLinked_edited (name : String) (calls : List Edit.Call) :
    ((Design.new name).edited calls).CrossLinked :=
  ((Built.new name).edited calls).crossLinked

end AnnotatedCircuit.Design
