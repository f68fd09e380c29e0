import AnnotatedCircuit.Proofs.Design.Reissue
import AnnotatedCircuit.Proofs.Design.Text
import AnnotatedCircuit.Proofs.NameSupply

/-!
# The numbers in a design

In a coherent design the tables refer to each other, so as long as they are no longer than their
indices reach (`Design.Room`), these indices can be written down. What coherence does not speak of
are the types, the operands, the entities with notes and the values that a removed operation has
left (`Design.Ranged`), and also the anchors and the names for them (`Design.Numbered`). In a sound
design the operands need no word of their own, but the notes have numbers, too (`Design.Stored`).
All changes made by wiring keep what is stored, and they do not touch the anchors.
-/

namespace AnnotatedCircuit

/-- The type in a declaration fits into its written form. -/
def OpKind.Typed : OpKind → Prop
  | .wire _ type | .reg _ type => type.Writable
  | _ => True

theorem OpKind.typed_mapOperands {f : ValueId → ValueId} {k : OpKind} (h : k.Typed) :
    (k.mapOperands f).Typed := by
  cases k <;> exact h

theorem OpKind.typed_of_nameless {k : OpKind} (h : k.name? = none) : k.Typed := by
  cases k <;> trivial

/-- The suffix that comes next is a word, too. -/
theorem NameSupply.Writable.fresh {s s' : NameSupply} {hint name : String} (W : s.Writable)
    (h : s.fresh hint = .ok (name, s')) : s'.Writable := by
  obtain ⟨-, rfl, rfl⟩ | ⟨-, k, hk, rfl, rfl⟩ := cases_of_fresh h
  · exact W
  · intro hint' n hn
    rw [OrderedMap.find?_insert] at hn
    split at hn
    · cases hn
      exact (freeSuffix_lt hk).1
    · exact W hint' n hn

namespace Design

variable {d d' : Design} {m : ModuleId} {x : Module} {o : OpId} {op : Op} {v : ValueId}
  {types : List SignalType} {lag : OpId → Nat}

/-- The tables are no longer than their indices reach. -/
structure Room (d : Design) : Prop where
  modules : d.modules.length ≤ Word.limit
  ops : d.ops.length ≤ Word.limit
  values : d.values.length ≤ Word.limit

/-- What coherence does not say about the numbers in a design. -/
structure Ranged (d : Design) : Prop where
  types : ∀ {v a}, d.value? v = some a → a.type.Writable
  declared : ∀ {o op}, d.op? o = some op → op.kind.Typed
  /-- An operand may name no value at all. -/
  operands : ∀ {o op v}, d.op? o = some op → v ∈ op.kind.operands →
    v.index < Word.limit ∨ v.index < d.values.length
  /-- The place of a result, also of an operation that was removed. -/
  places : ∀ {v t o i}, d.value? v = some ⟨t, .result o i⟩ →
    i < Word.limit * Word.limit ∨ i ≤ v.index
  entities : ∀ e ∈ d.attachments.table.keys, e.Writable

/-- What soundness does not say about the numbers in a design. -/
structure Stored (d : Design) : Prop where
  types : ∀ {v a}, d.value? v = some a → a.type.Writable
  declared : ∀ {o op}, d.op? o = some op → op.kind.Typed
  /-- The place of a result, also of an operation that was removed. -/
  places : ∀ {v t o i}, d.value? v = some ⟨t, .result o i⟩ →
    i < Word.limit * Word.limit ∨ i ≤ v.index
  entities : d.ops.length ≤ Word.limit → ∀ e ∈ d.attachments.table.keys, e.Writable
  notes : ∀ e, ∀ n ∈ d.attachments.attached e, n.Plain

/-- The anchors have numbers that fit, unless there are too many of them, and so have the suffixes
of the names in use. -/
structure Numbered (d : Design) : Prop where
  anchors : d.anchors.length ≤ Word.limit → ∀ a ∈ d.anchors, a.id.index < Word.limit
  symbols : d.symbols.Writable

theorem lt_square {n : Nat} (h : n < Word.limit) : n < Word.limit * Word.limit :=
  Nat.lt_of_lt_of_le h (Nat.le_mul_of_pos_left _ (by decide))

/-! ### From coherence -/

/-- Values that come from different places are different. -/
theorem length_le_of_origins {vs : List ValueId} {f : Nat → ValueOrigin} (inj : f.Injective)
    (h : ∀ {i v}, vs[i]? = some v → ∃ t, d.value? v = some ⟨t, f i⟩) :
    vs.length ≤ d.values.length := by
  have nodup : (vs.map ValueId.index).Nodup := by
    refine List.Nodup.map (fun v w e => by cases v; cases w; cases e; rfl) ?_
    refine List.nodup_iff_getElem?_ne_getElem?.mpr fun i j hij hj e => ?_
    rw [List.getElem?_eq_getElem hj] at e
    obtain ⟨t, ht⟩ := h e
    obtain ⟨t', ht'⟩ := h (List.getElem?_eq_getElem hj)
    rw [ht] at ht'
    exact Nat.ne_of_lt hij (inj (congrArg Value.origin (Option.some.inj ht')))
  have subset : vs.map ValueId.index ⊆ List.range d.values.length := by
    intro n hn
    obtain ⟨v, hv, rfl⟩ := List.mem_map.mp hn
    obtain ⟨i, hi⟩ := List.mem_iff_getElem?.mp hv
    obtain ⟨t, ht⟩ := h hi
    exact List.mem_range.mpr (value?_lt ht)
  simpa using (nodup.subperm subset).length_le

theorem Coherent.length_ports_le (H : d.Coherent) (hx : d.module? m = some x) :
    x.ports.length ≤ d.values.length := by
  refine (List.length_map Port.value).symm.trans_le
    (length_le_of_origins (f := .port m) (fun _ _ e => by cases e; rfl) fun h => ?_)
  rw [List.getElem?_map] at h
  obtain ⟨p, hp, rfl⟩ := Option.map_eq_some_iff.mp h
  exact ⟨_, H.port_value hx hp⟩

section

variable (R : d.Room)
include R

theorem Room.module_lt (hx : d.module? m = some x) : m.index < Word.limit :=
  Nat.lt_of_lt_of_le (Coherent.module_index_lt hx) R.modules

theorem Room.op_lt (ho : d.op? o = some op) : o.index < Word.limit :=
  Nat.lt_of_lt_of_le (op?_lt ho) R.ops

theorem Room.value_lt {a : Value} (hv : d.value? v = some a) : v.index < Word.limit :=
  Nat.lt_of_lt_of_le (value?_lt hv) R.values

theorem Room.place_lt {n i : Nat} (hi : i < n) (hn : n ≤ d.values.length) :
    i < Word.limit * Word.limit :=
  lt_square (Nat.lt_of_lt_of_le hi (Nat.le_trans hn R.values))

variable (H : d.Coherent) (W : d.Ranged)
include H W

/-- The numbers of a value fit: what defined it lies in the tables, and so does its place there. -/
theorem Coherent.writable_value {a : Value} (hv : d.value? v = some a) : a.Writable := by
  obtain ⟨t, m | ⟨o, i⟩⟩ := a
  · obtain ⟨x, p, hx, hp, -⟩ := H.port_origin hv
    exact ⟨W.types hv, R.module_lt hx, R.place_lt (List.getElem?_eq_some_iff.mp hp).1
      (H.length_ports_le hx)⟩
  · obtain ⟨ho, -⟩ := H.result_origin hv
    refine ⟨W.types hv, Nat.lt_of_lt_of_le ho R.ops, ?_⟩
    rcases W.places hv with h | h
    · exact h
    · exact R.place_lt (Nat.lt_succ_of_le h) (value?_lt hv)

omit H in
theorem ChildrenKnown.writable_kind (K : d.ChildrenKnown) (ho : d.op? o = some op) :
    op.kind.Writable := by
  have operand : ∀ v ∈ op.kind.operands, v.index < Word.limit := fun v hv =>
    (W.operands ho hv).elim id fun h => Nat.lt_of_lt_of_le h R.values
  have typed := W.declared ho
  have known := @K o op
  cases hk : op.kind <;> rw [hk] at operand typed known
  case inst n c =>
    obtain ⟨x, hx⟩ := known ho rfl
    exact R.module_lt hx
  case wire => exact typed
  case reg => exact typed
  case node => exact operand _ List.mem_cons_self
  case connect =>
    exact ⟨operand _ List.mem_cons_self, operand _ (List.mem_cons_of_mem _ List.mem_cons_self)⟩
  case refSend => exact operand _ List.mem_cons_self
  case refResolve => exact operand _ List.mem_cons_self

theorem Coherent.writable_op (K : d.ChildrenKnown) (ho : d.op? o = some op) : op.Writable where
  id := H.op_id ho ▸ R.op_lt ho
  parent := by
    obtain ⟨x, hx⟩ := H.parent_module ho
    exact R.module_lt hx
  kind := K.writable_kind R W ho
  results v hv := by
    obtain ⟨i, hi⟩ := List.mem_iff_getElem?.mp hv
    obtain ⟨t, ht⟩ := H.result_value ho hi
    exact R.value_lt ht

theorem Coherent.writable_module (hx : d.module? m = some x) : x.Writable where
  id := H.module_id hx ▸ R.module_lt hx
  ports p hp := by
    obtain ⟨i, hi⟩ := List.mem_iff_getElem?.mp hp
    have hv := H.port_value hx hi
    exact ⟨W.types hv, R.value_lt hv⟩
  body o ho := by
    obtain ⟨op, hop, -⟩ := (H.mem_body hx).mp ho
    exact R.op_lt hop

/-- A coherent design with room in its tables can be written down. -/
theorem Coherent.writable (K : d.ChildrenKnown) (N : d.Numbered)
    (few : d.anchors.length ≤ Word.limit) : d.Writable where
  top := by
    obtain ⟨x, hx⟩ := H.top_module
    exact R.module_lt hx
  modules x hx := by
    obtain ⟨i, hi⟩ := List.mem_iff_getElem?.mp hx
    exact H.writable_module R W (m := ⟨i⟩) hi
  ops op hop := by
    obtain ⟨i, hi⟩ := List.mem_iff_getElem?.mp hop
    exact H.writable_op R W K (o := ⟨i⟩) (Option.join_eq_some_iff.mpr hi)
  values a ha := by
    obtain ⟨i, hi⟩ := List.mem_iff_getElem?.mp ha
    exact H.writable_value R W (v := ⟨i⟩) hi
  attachments := W.entities
  anchors := N.anchors few
  symbols := N.symbols

end

/-! ### From soundness -/

theorem Sound.ranged (R : d.Room) (S : d.Sound fun _ => 0) (W : d.Stored) : d.Ranged where
  types := W.types
  declared := W.declared
  operands ho hv := .inr (lt_of_valueModule (S.visible ho hv))
  places := W.places
  entities := W.entities R.ops

/-- A sound design with room in its tables can be written down. -/
theorem Sound.writable (R : d.Room) (S : d.Sound fun _ => 0) (W : d.Stored) (N : d.Numbered)
    (few : d.anchors.length ≤ Word.limit) : d.Writable :=
  S.coherent.writable R (S.ranged R W) (Fits.childrenKnown S.fits) N few

/-- A design that can be written down, with notes that can. -/
theorem Writable.stored (W : d.Writable) (N : d.PlainNotes) : d.Stored where
  types h := (W.values _ (List.mem_of_getElem? h)).type
  declared {o op} h := by
    have fits := (W.ops op (List.mem_of_getElem? (Option.join_eq_some_iff.mp h))).kind
    cases hk : op.kind <;> rw [hk] at fits <;> first | exact fits | trivial
  places h := .inl (W.values _ (List.mem_of_getElem? h)).origin.2
  entities _ := W.attachments
  notes := N.attached

/-! ### Changes -/

theorem Stored.converts (W : d.Stored) {t : SignalType} (h : d.Converts t) : t.Writable := by
  obtain ⟨v, t', hv, rfl | rfl⟩ := h
  · obtain ⟨a, ha, rfl⟩ := valueType_eq_ok_iff.mp hv
    exact (W.types ha).toRef
  · obtain ⟨a, ha, rfl⟩ := valueType_eq_ok_iff.mp hv
    exact (W.types ha).deref

theorem Stored.enterPorts (W : d.Stored) {ports : List PortDecl}
    (typed : ∀ p ∈ ports, p.type.Writable) (m : ModuleId) (base : Nat) :
    (d.enterPorts m base ports).Stored where
  types {v a} h := by
    rcases value?_enterPorts.mp h with h | ⟨i, p, hp, -, rfl⟩
    · exact W.types h
    · exact typed p (List.mem_of_getElem? hp)
  declared := W.declared
  places h := by
    rcases value?_enterPorts.mp h with h | ⟨_, _, _, _, e⟩
    · exact W.places h
    · cases e
  entities := W.entities
  notes := W.notes

theorem Stored.leaf (W : d.Stored) (h : d.Leaf d') : d'.Stored := by
  cases h with
  | none => exact W
  | op _ typed _ nameless =>
    refine ⟨fun h => ?_, fun h => ?_, fun h => ?_, fun room => ?_, W.notes⟩
    · rcases value?_addOp.mp h with h | ⟨i, t, ht, -, rfl⟩
      · exact W.types h
      · exact W.converts (typed t (List.mem_of_getElem? ht))
    · rcases op?_addOp_cases h with ⟨-, rfl⟩ | h
      · exact OpKind.typed_of_nameless nameless
      · exact W.declared h
    · rcases value?_addOp.mp h with h | ⟨i, t, -, rfl, e⟩
      · exact W.places h
      · cases e
        exact .inr (Nat.le_add_left ..)
    · rw [length_ops_addOp] at room
      exact W.entities (Nat.le_of_succ_le room)

theorem Stored.filled (W : d.Stored) (h : d.Filled d') : d'.Stored := by
  induction h with
  | refl => exact W
  | tail _ h ih => exact ih.leaf h

theorem Entity.writable_withOp {e : Entity} (h : e.Writable) (ho : o.index < Word.limit) :
    (e.withOp o).Writable := by
  cases e with
  | op => exact ho
  | port owner i =>
    cases owner with
    | inst => exact ⟨ho, h.2⟩
    | module => exact h
  | _ => exact h

/-- A copy has the types of its original and of the new ports, and gets the notes. -/
theorem Stored.reissued (W : d.Stored) (ho : d.op? o = some op) (R : d.Reissued o op types d')
    (typed : ∀ t ∈ types, t.Writable)
    (notes : d'.attachments = d.attachments.moveOp o d.nextOp) : d'.Stored where
  types h := by
    rcases (R.value _ _).mp h with h | ⟨i, t, ht, -, rfl⟩
    · exact W.types h
    · exact typed t (List.mem_of_getElem? ht)
  declared {p q} h := by
    rw [R.op] at h
    split at h
    · cases h
      exact show op.kind.Typed from W.declared ho
    · split at h
      · cases h
      · obtain ⟨q', hq', rfl⟩ := Option.map_eq_some_iff.mp h
        exact OpKind.typed_mapOperands (W.declared hq')
  places h := by
    rcases (R.value _ _).mp h with h | ⟨i, t, -, rfl, e⟩
    · exact W.places h
    · cases e
      exact .inr (Nat.le_add_left ..)
  entities room e he := by
    rw [R.length] at room
    have old := W.entities (Nat.le_of_succ_le room)
    rw [notes] at he
    rcases (Attachments.mem_keys_moveOp (ne_nextOp ho) he).2 with he | ⟨a, ha, -, rfl⟩
    · exact old e he
    · exact Entity.writable_withOp (old a ha) room
  notes e n hn := by
    rw [notes, Attachments.attached_moveOp (ne_nextOp ho)] at hn
    split at hn
    · cases hn
    · split at hn
      · rcases List.mem_append.mp hn with hn | hn
        · exact W.notes _ n hn
        · exact W.notes _ n hn
      · exact W.notes _ n hn

end Design

end AnnotatedCircuit
