import AnnotatedCircuit.Proofs.Design.Mirrors

/-!
# Designs that go on

A design goes on in a later one (`Continues`) if modules get ports and nameless operations at their
ends only, and each operation has a successor in its place: itself, or the instance that replaced
it. Entering ports, filling bodies and replacing instances are such steps. Less is left where steps
may fail: the operations keep their places, names and children (`Retains`).
-/

namespace AnnotatedCircuit.Design

variable {d d' d'' : Design} {f g : OpId → OpId} {o : OpId} {op op' op'' : Op}
  {types ts : List SignalType} {c : ModuleId}

/-! ### Successors -/

/-- An operation does in a later design what another one does in an earlier design, in the same
module, with results of the same types and perhaps more. -/
structure Succeeds (d : Design) (op : Op) (d' : Design) (op' : Op) : Prop where
  parent : op'.parent = op.parent
  kind : ∃ f, op'.kind = op.kind.mapOperands f
  result : ∀ {i : Nat} {v t}, op.results[i]? = some v → d.valueType v = .ok t →
    ∃ v', op'.results[i]? = some v' ∧ d'.valueType v' = .ok t

namespace Succeeds

theorem of_value (value : ∀ {v a}, d.value? v = some a → d'.value? v = some a) (op : Op) :
    Succeeds d op d' op :=
  ⟨rfl, ⟨id, op.kind.mapOperands_id.symm⟩, fun hv ht => ⟨_, hv, valueType_of_value value ht⟩⟩

theorem trans (S : Succeeds d op d' op') (S' : Succeeds d' op' d'' op'') :
    Succeeds d op d'' op'' where
  parent := S'.parent.trans S.parent
  kind := by
    obtain ⟨f, hf⟩ := S.kind
    obtain ⟨g, hg⟩ := S'.kind
    exact ⟨g ∘ f, by rw [hg, hf, OpKind.mapOperands_mapOperands]⟩
  result hv ht := by
    obtain ⟨v', hv', ht'⟩ := S.result hv ht
    exact S'.result hv' ht'

theorem name? (S : Succeeds d op d' op') : op'.kind.name? = op.kind.name? := by
  obtain ⟨f, hf⟩ := S.kind
  rw [hf, OpKind.name?_mapOperands]

theorem child? (S : Succeeds d op d' op') : op'.kind.child? = op.kind.child? := by
  obtain ⟨f, hf⟩ := S.kind
  rw [hf, OpKind.child?_mapOperands]

theorem tag (S : Succeeds d op d' op') : op'.kind.tag = op.kind.tag := by
  obtain ⟨f, hf⟩ := S.kind
  rw [hf, OpKind.tag_mapOperands]

end Succeeds

/-! ### Continued designs -/

/-- The operations of a design go on in a later one as `f` says. -/
structure Continues (d d' : Design) (f : OpId → OpId) : Prop where
  name : d'.name = d.name
  anchors : d'.anchors = d.anchors
  length : d.ops.length ≤ d'.ops.length
  module : ∀ {m x}, d.module? m = some x → ∃ y extra, d'.module? m = some y ∧ y.name = x.name ∧
    x.ports <+: y.ports ∧ y.body = x.body.map f ++ extra ∧
    ∀ o ∈ extra, ∃ op, d'.op? o = some op ∧ op.kind.name? = none
  op : ∀ {o op}, d.op? o = some op → ∃ op', d'.op? (f o) = some op' ∧ Succeeds d op d' op'
  value : ∀ {v a}, d.value? v = some a → d'.value? v = some a
  gone : ∀ {o}, o.index < d.ops.length → d.op? o = none → d'.op? o = none
  /-- Only instances are replaced, by later ones. -/
  replaced : ∀ {o op}, d.op? o = some op → f o ≠ o →
    d'.op? o = none ∧ op.kind.child?.isSome ∧ d.ops.length ≤ (f o).index

namespace Continues

theorem refl (d : Design) : d.Continues d id where
  name := rfl
  anchors := rfl
  length := Nat.le_refl _
  module {_ x} h := ⟨x, [], h, rfl, List.prefix_rfl, by simp, nofun⟩
  op {_ op} h := ⟨op, h, .of_value id op⟩
  value := id
  gone _ := id
  replaced _ h := absurd rfl h

theorem trans (C : d.Continues d' f) (C' : d'.Continues d'' g) : d.Continues d'' (g ∘ f) where
  name := C'.name.trans C.name
  anchors := C'.anchors.trans C.anchors
  length := Nat.le_trans C.length C'.length
  module hx := by
    obtain ⟨y, extra, hy, hn, hp, hb, hextra⟩ := C.module hx
    obtain ⟨z, extra', hz, hn', hp', hb', hextra'⟩ := C'.module hy
    refine ⟨z, extra.map g ++ extra', hz, hn'.trans hn, hp.trans hp', by simp [hb', hb], ?_⟩
    intro o ho
    rcases List.mem_append.mp ho with ho | ho
    · obtain ⟨p, hp, rfl⟩ := List.mem_map.mp ho
      -- What filled a body before is succeeded as well, without a name.
      obtain ⟨op, hop, hname⟩ := hextra p hp
      obtain ⟨op', hop', S⟩ := C'.op hop
      exact ⟨op', hop', S.name?.trans hname⟩
    · exact hextra' o ho
  op ho := by
    obtain ⟨op', ho', S⟩ := C.op ho
    obtain ⟨op'', ho'', S'⟩ := C'.op ho'
    exact ⟨op'', ho'', S.trans S'⟩
  value h := C'.value (C.value h)
  gone hlt h := C'.gone (Nat.lt_of_lt_of_le hlt C.length) (C.gone hlt h)
  replaced {o op} ho hne := by
    obtain ⟨op', ho', S⟩ := C.op ho
    -- A replaced operation stays removed, also when its replacement is replaced.
    by_cases hf : f o = o
    · rw [Function.comp_apply, hf] at hne ⊢
      rw [hf] at ho'
      obtain ⟨hgone, hchild, hlen⟩ := C'.replaced ho' hne
      exact ⟨hgone, S.child? ▸ hchild, Nat.le_trans C.length hlen⟩
    · obtain ⟨hgone, hchild, hlen⟩ := C.replaced ho hf
      refine ⟨C'.gone (Nat.lt_of_lt_of_le (op?_lt ho) C.length) hgone, hchild, ?_⟩
      rw [Function.comp_apply]
      by_cases hg : g (f o) = f o
      · rwa [hg]
      · exact Nat.le_trans C.length (C'.replaced ho' hg).2.2

theorem congr (C : d.Continues d' f) (H : d.Coherent)
    (h : ∀ {o op}, d.op? o = some op → g o = f o) : d.Continues d' g :=
  { C with
    module := fun {_ x} hx => by
      obtain ⟨y, extra, hy, hn, hp, hb, hextra⟩ := C.module hx
      refine ⟨y, extra, hy, hn, hp, ?_, hextra⟩
      rw [hb]
      refine congrArg (· ++ extra) (List.map_congr_left fun o ho => ?_)
      obtain ⟨op, hop, -⟩ := (H.mem_body hx).mp ho
      exact (h hop).symm
    op := fun ho => h ho ▸ C.op ho
    replaced := fun ho => h ho ▸ C.replaced ho }

end Continues

/-! ### Retained operations -/

/-- The operations of a design go on in a later one as `f` says, in modules of the same names: where
they stood, under their names and with their children. -/
structure Retains (d d' : Design) (f : OpId → OpId) : Prop where
  module : ∀ {m x}, d.module? m = some x → ∃ y, d'.module? m = some y ∧ y.name = x.name
  op : ∀ {o op}, d.op? o = some op → ∃ op', d'.op? (f o) = some op' ∧ op'.parent = op.parent ∧
    op'.kind.name? = op.kind.name? ∧ op'.kind.child? = op.kind.child?

theorem Continues.retains (C : d.Continues d' f) : d.Retains d' f where
  module hx := by
    obtain ⟨y, -, hy, hn, -⟩ := C.module hx
    exact ⟨y, hy, hn⟩
  op ho := by
    obtain ⟨op', ho', S⟩ := C.op ho
    exact ⟨op', ho', S.parent, S.name?, S.child?⟩

namespace Retains

theorem refl (d : Design) : d.Retains d id := (Continues.refl d).retains

theorem trans (R : d.Retains d' f) (R' : d'.Retains d'' g) : d.Retains d'' (g ∘ f) where
  module hx := by
    obtain ⟨y, hy, hn⟩ := R.module hx
    obtain ⟨z, hz, hn'⟩ := R'.module hy
    exact ⟨z, hz, hn'.trans hn⟩
  op ho := by
    obtain ⟨op', ho', hp, hn, hc⟩ := R.op ho
    obtain ⟨op'', ho'', hp', hn', hc'⟩ := R'.op ho'
    exact ⟨op'', ho'', hp'.trans hp, hn'.trans hn, hc'.trans hc⟩

theorem exists_trans (R : d.Retains d' f) (h : ∃ g, d'.Retains d'' g) : ∃ g, d.Retains d'' g :=
  h.elim fun _ R' => ⟨_, R.trans R'⟩

end Retains

/-- The operation of a later design in the place of an operation. -/
def standIn (d d' : Design) (o : OpId) : OpId :=
  Option.getD (do
    let op ← d.op? o
    let x ← d.module? op.parent
    let y ← d'.module? op.parent
    y.body[x.body.idxOf o]?) o

/-- Operations are succeeded in their places. -/
theorem Continues.standIn_eq (C : d.Continues d' f) (H : d.Coherent) (ho : d.op? o = some op) :
    d.standIn d' o = f o := by
  obtain ⟨x, hx⟩ := H.parent_module ho
  obtain ⟨y, extra, hy, -, -, hb, -⟩ := C.module hx
  have hmem : o ∈ x.body := (H.mem_body hx).mpr ⟨op, ho, rfl⟩
  have place : y.body[x.body.idxOf o]? = some (f o) := by
    rw [hb, List.getElem?_append_left (by simpa using List.idxOf_lt_length_iff.mpr hmem),
      List.getElem?_map, List.getElem?_idxOf hmem]
    rfl
  simp [Design.standIn, ho, hx, hy, place]

theorem Continues.standIn (C : d.Continues d' f) (H : d.Coherent) :
    d.Continues d' (d.standIn d') :=
  C.congr H (C.standIn_eq H)

/-- Nothing stands in for an operation that was removed. -/
theorem standIn_of_gone (d' : Design) (h : d.op? o = none) : d.standIn d' o = o := by
  simp [standIn, h]

/-! ### Steps -/

theorem continues_enterPorts (d : Design) (m : ModuleId) (base : Nat) (ports : List PortDecl) :
    d.Continues (d.enterPorts m base ports) id where
  name := rfl
  anchors := rfl
  length := Nat.le_refl _
  module hx := by
    obtain ⟨y, hy, hn, hb, hp⟩ := exists_module?_enterPorts hx m base ports
    refine ⟨y, [], hy, hn, ?_, by simp [hb], nofun⟩
    rw [hp]
    split
    · exact List.prefix_append ..
    · exact List.prefix_rfl
  op {_ op} h := ⟨op, h, .of_value (extends_enterPorts ..).value op⟩
  value := (extends_enterPorts ..).value
  gone _ := id
  replaced _ h := absurd rfl h

theorem Leaf.continues (h : d.Leaf d') : d.Continues d' id := by
  cases h with
  | none => exact .refl d
  | @op m _ kind types _ _ _ nameless =>
    have E := extends_addOp d m kind types
    exact {
      name := rfl
      anchors := rfl
      length := length_ops_addOp ▸ Nat.le_succ _
      module := fun {m' x} hx => by
        obtain ⟨y, hy, hn, hp, hb⟩ := exists_module?_addOp hx m kind types fun o body => body ++ [o]
        refine ⟨y, if m' = m then [d.nextOp] else [], hy, hn, hp ▸ List.prefix_rfl, ?_, ?_⟩
        · rw [hb]
          split <;> simp
        · intro o ho
          split at ho
          · obtain rfl := List.mem_singleton.mp ho
            exact ⟨_, op?_addOp_self .., nameless⟩
          · cases ho
      op := fun {_ op} h => ⟨op, E.op h, .of_value E.value op⟩
      value := E.value
      gone := fun hlt h => (E.gone hlt h).2
      replaced := fun _ h => absurd rfl h }

theorem Filled.continues (h : d.Filled d') : d.Continues d' id := by
  induction h with
  | refl => exact .refl d
  | tail _ h ih => exact ih.trans h.continues

/-- The copy of an instance succeeds it. -/
theorem Reissued.continues (R : d.Reissued o op types d') (ho : d.op? o = some op)
    (hc : op.kind.child? = some c) (htypes : ts <+: types)
    (hts : List.Forall₂ (fun v t => d.valueType v = .ok t) op.results ts) :
    d.Continues d' (exchange o d.nextOp) where
  name := R.name
  anchors := R.anchors
  length := R.length ▸ Nat.le_succ _
  module {_ x} hx := ⟨_, [], R.module_some hx, rfl, List.prefix_rfl, by simp, nofun⟩
  op {p q} hq := by
    have value : ∀ {v a}, d.value? v = some a → d'.value? v = some a := fun h =>
      (R.value ..).mpr (.inl h)
    by_cases hp : p = o
    · subst hp
      obtain rfl := Option.some.inj (ho.symm.trans hq)
      rw [exchange_self]
      refine ⟨_, R.op_copy, rfl, ⟨id, op.kind.mapOperands_id.symm⟩, fun {i v t} hv ht => ?_⟩
      have hi : i < ts.length := hts.length_eq ▸ (List.getElem?_eq_some_iff.mp hv).1
      have hti := List.getElem?_eq_getElem hi
      obtain rfl := Except.ok.inj (ht.symm.trans (valueType_getElem? hts hv hti))
      have htype : types[i]? = some ts[i] := getElem?_of_isPrefix htypes hti
      exact ⟨_, getElem?_nextValues.mpr ⟨(List.getElem?_eq_some_iff.mp htype).1, rfl⟩,
        R.valueType_new htype⟩
    · rw [exchange_of_ne hp]
      refine ⟨_, R.op_other hq hp, .trans (.of_value value q) ⟨rfl, ⟨_, rfl⟩, fun hv ht => ?_⟩⟩
      exact ⟨_, hv, ht⟩
  value h := (R.value ..).mpr (.inl h)
  gone {p} hlt h := by
    rw [R.op, if_neg (ne_nextOp_of_lt hlt), h]
    split <;> rfl
  replaced {p q} hq hne := by
    obtain rfl : p = o := by
      by_contra hp
      exact hne (exchange_of_ne hp)
    obtain rfl := Option.some.inj (ho.symm.trans hq)
    refine ⟨by rw [R.op, if_neg (ne_nextOp ho), if_pos rfl], by rw [hc]; rfl, ?_⟩
    rw [exchange_self]
    exact Nat.le_refl _

end AnnotatedCircuit.Design
