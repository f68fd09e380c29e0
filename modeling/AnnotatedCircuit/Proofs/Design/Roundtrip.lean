import AnnotatedCircuit.Proofs.Design.CrossLinks
import AnnotatedCircuit.Proofs.Design.Decoded
import AnnotatedCircuit.Proofs.Design.Stored
import AnnotatedCircuit.Proofs.Hierarchy.Acyclic

/-!
# Writing designs down and reading them again

A design that can be written down is read again from what was written, if the names of its tables
are in use (`Design.exists_ofInput?_toJson`). Both hold of what is decoded, and of what is built by
calls with arguments that fit, as long as the tables have room. So writing and reading keep all of
these designs (`Design.toJson_roundtrip`).
-/

namespace AnnotatedCircuit

/-- The numbers in the arguments of a call fit where the call enters them. -/
def Edit.Call.Ranged : Edit.Call → Prop
  | .newPort _ port => port.type.Writable
  | .growPorts _ ports | .cloneInstance _ ports => ∀ p ∈ ports, p.type.Writable
  | .newWire _ _ type | .newReg _ _ type => type.Writable
  | .redirectUses _ new => new.index < Word.limit
  | .setNotes _ attachments => ∀ e ∈ attachments.table.keys, e.Writable
  | _ => True

theorem Edit.Call.Ranged.typed {c : Edit.Call} {m : ModuleId} {kind : OpKind} (h : c.Ranged)
    (asked : c.entry? = some (m, kind)) : kind.Typed := by
  cases c <;> cases asked <;> exact h

/-- Notes with the same values are the same notes. -/
theorem Note.eq_of_like {n n' : Note} (h : n.Like Eq n') : n = n' := by
  obtain ⟨fields, rfl, all⟩ := h
  have same : List.Forall₂ Eq n.fields.entries fields := all.imp fun _ _ h => Prod.ext h.1 h.2
  rw [List.forall₂_eq_eq_eq] at same
  rw [← same, OrderedMap.ofList_entries]

theorem Note.eq_of_forall₂_like {ns ns' : List Note} (h : List.Forall₂ (Note.Like Eq) ns ns') :
    ns = ns' := by
  rw [← List.forall₂_eq_eq_eq]
  exact h.imp fun _ _ => eq_of_like

theorem Attachments.eq_of_like {t t' : Attachments} (h : t.Like Eq t') : t = t' := by
  obtain ⟨entries, rfl, all⟩ := h
  have same : List.Forall₂ Eq t.table.entries entries :=
    all.imp fun _ _ h => Prod.ext h.1 (Note.eq_of_forall₂_like h.2)
  rw [List.forall₂_eq_eq_eq] at same
  rw [← same, OrderedMap.ofList_entries]

namespace Design

variable {d d' : Design} {m : ModuleId} {kind : OpKind} {types : List SignalType} {c : Edit.Call}

/-- The same design; the names in use may be listed in another order. -/
def Same (d d' : Design) : Prop := ∃ symbols, d' = { d with symbols } ∧ d.symbols.Same symbols

/-- A design is read again from what was written of it. -/
theorem exists_ofInput?_toJson (W : d.Writable) (N : d.NamesUsed) :
    ∃ d', ofInput? (.value d.toJson) = some d' ∧ d.Same d' := by
  obtain ⟨pending, attachments, symbols, h, notes, attached, same⟩ :=
    ofInput?_of_reading Json.Reading.direct W rfl
  obtain rfl := Note.eq_of_forall₂_like notes
  obtain rfl := Attachments.eq_of_like attached
  exact ⟨_, h, _, rfl, same.addAll N⟩

/-! ### Names in use -/

theorem NamesUsed.congr (N : d.NamesUsed) (name : d'.name = d.name)
    (modules : d'.modules.map Module.name = d.modules.map Module.name)
    (anchors : d'.anchors = d.anchors) (symbols : d'.symbols = d.symbols) : d'.NamesUsed := by
  rwa [NamesUsed, tableNames, name, modules, anchors, symbols]

theorem NamesUsed.effect (N : d.NamesUsed) (h : d.Effect c d') : d'.NamesUsed := by
  cases h with
  | none | notes | uses => exact N
  | @module name kind fresh =>
    intro n hn
    refine NameSupply.mem_add.mpr ?_
    by_cases e : n = name
    · exact .inr e
    · refine .inl (N n ?_)
      simpa [tableNames, Module.empty, e] using hn
  | anchor fresh =>
    obtain ⟨-, used, -⟩ := NameSupply.fresh_ok fresh
    intro n hn
    refine used ▸ List.mem_cons.mpr ?_
    rw [tableNames, List.map_append, ← List.append_assoc, List.mem_append] at hn
    rcases hn with hn | hn
    · exact .inr (N n hn)
    · exact .inl (List.mem_singleton.mp hn)
  | port | ports => exact N.congr rfl (names_enterPorts ..) rfl rfl
  | op | clone => exact N.congr rfl (names_addOp ..) rfl rfl
  | removal => exact N.congr rfl (names_withoutOp ..) rfl rfl

theorem Built.namesUsed (H : d.Built) : d.NamesUsed := by
  induction H with
  | new name =>
    have names : (Design.new name).tableNames = [name, name] := rfl
    exact fun n hn => NameSupply.mem_ofNames.mpr (by simpa [names] using hn)
  | call c _ ih => exact ih.effect (Edit.effect_run _ c)

/-! ### Numbers that fit -/

theorem writable_symbols_effect (W : d.symbols.Writable) (h : d.Effect c d') :
    d'.symbols.Writable := by
  cases h with
  | module => exact W.add _
  | anchor fresh => exact W.fresh fresh
  | _ => exact W

/-- The results of an operation that can be entered have types that fit. -/
theorem Typing.writable (T : d.Typing m kind types) (H : d.Coherent) (W : d.Ranged)
    (declared : kind.Typed) : ∀ t ∈ types, t.Writable := by
  have known : ∀ {v t}, d.valueType v = .ok t → t.Writable := by
    intro v t h
    obtain ⟨a, ha, rfl⟩ := valueType_eq_ok_iff.mp h
    exact W.types ha
  cases T with
  | wire | reg => exact List.forall_mem_singleton.mpr declared
  | node _ _ typed => exact List.forall_mem_singleton.mpr (known typed)
  | connect => exact fun _ h => nomatch h
  | refSend _ typed => exact List.forall_mem_singleton.mpr (known typed).toRef
  | refResolve _ typed => exact List.forall_mem_singleton.mpr (known typed).deref
  | inst _ found =>
    intro t ht
    obtain ⟨p, hp, rfl⟩ := List.mem_map.mp ht
    obtain ⟨i, hi⟩ := List.mem_iff_getElem?.mp hp
    exact W.types (H.port_value found hi)

namespace Ranged

theorem new (name : String) : (Design.new name).Ranged where
  types h := by simp at h
  declared h := by simp at h
  operands h := by simp at h
  places h := by simp at h
  entities _ h := nomatch h

theorem enterPorts (W : d.Ranged) {ports : List PortDecl} (typed : ∀ p ∈ ports, p.type.Writable)
    (m : ModuleId) (base : Nat) : (d.enterPorts m base ports).Ranged where
  types h := by
    rcases value?_enterPorts.mp h with h | ⟨i, p, hp, -, rfl⟩
    · exact W.types h
    · exact typed p (List.mem_of_getElem? hp)
  declared := W.declared
  operands ho hv := (W.operands ho hv).imp_right fun h => by
    rw [Design.enterPorts, List.length_append]
    exact Nat.lt_add_right _ h
  places h := by
    rcases value?_enterPorts.mp h with h | ⟨_, _, _, _, e⟩
    · exact W.places h
    · cases e
  entities := W.entities

theorem addOp (W : d.Ranged) (typed : ∀ t ∈ types, t.Writable) (declared : kind.Typed)
    (visible : ∀ v ∈ kind.operands, d.valueModule v = .ok m)
    (place : OpId → List OpId → List OpId) : (d.addOp m kind types place).Ranged where
  types h := by
    rcases value?_addOp.mp h with h | ⟨i, t, ht, -, rfl⟩
    · exact W.types h
    · exact typed t (List.mem_of_getElem? ht)
  declared h := by
    rcases op?_addOp_cases h with ⟨-, rfl⟩ | h
    · exact declared
    · exact W.declared h
  operands {p q v} ho hv := by
    have more : (d.addOp m kind types place).values.length = d.values.length + types.length := by
      simp [Design.addOp, modifyModule, enterOp]
    rw [more]
    rcases op?_addOp_cases ho with ⟨-, rfl⟩ | ho
    · exact .inr (Nat.lt_add_right _ (lt_of_valueModule (visible v hv)))
    · exact (W.operands ho hv).imp_right (Nat.lt_add_right _)
  places h := by
    rcases value?_addOp.mp h with h | ⟨i, t, -, rfl, e⟩
    · exact W.places h
    · cases e
      exact .inr (Nat.le_add_left ..)
  entities := W.entities

theorem redirected (W : d.Ranged) {body : List OpId} (nodup : body.Nodup) (v : ValueId)
    {w : ValueId} (hw : w.index < Word.limit) : (d.redirected v w body).Ranged where
  types := W.types
  declared ho := by
    rw [op?_redirected nodup] at ho
    split at ho
    · obtain ⟨op, hop, rfl⟩ := Option.map_eq_some_iff.mp ho
      exact OpKind.typed_mapOperands (W.declared hop)
    · exact W.declared ho
  operands ho hu := by
    rw [op?_redirected nodup] at ho
    split at ho
    · obtain ⟨op, hop, rfl⟩ := Option.map_eq_some_iff.mp ho
      rw [Op.rebind, OpKind.operands_mapOperands] at hu
      obtain ⟨u, used, rfl⟩ := List.mem_map.mp hu
      unfold exchange
      split
      · exact .inl hw
      · exact W.operands hop used
    · exact W.operands ho hu
  places := W.places
  entities := W.entities

theorem withoutOp (W : d.Ranged) (o : OpId) (m : ModuleId) : (d.withoutOp o m).Ranged where
  types := W.types
  declared ho := W.declared (op?_withoutOp_cases ho).2
  operands ho hv := W.operands (op?_withoutOp_cases ho).2 hv
  places := W.places
  entities e he := W.entities e (OrderedMap.mem_keys_filterKeys.mp he).1

theorem effect (W : d.Ranged) (H : d.Coherent) (hc : c.Ranged) (h : d.Effect c d') :
    d'.Ranged := by
  cases h with
  | none => exact W
  | module | anchor => exact ⟨W.types, W.declared, W.operands, W.places, W.entities⟩
  | port _ _ p => exact W.enterPorts (List.forall_mem_singleton.mpr hc) ..
  | ports _ ps => exact W.enterPorts hc ..
  | op asked _ typing =>
    exact W.addOp (typing.writable H W (hc.typed asked)) (hc.typed asked) typing.visible _
  | @clone o op m x types found parent child typed ports =>
    refine W.addOp (fun t ht => ?_) (W.declared found) (fun v hv => ?_) _
    · rcases List.mem_append.mp ht with ht | ht
      · obtain ⟨v, -, hv⟩ := Checked.exists_of_mem_mapM typed ht
        obtain ⟨a, ha, rfl⟩ := valueType_eq_ok_iff.mp hv
        exact W.types ha
      · obtain ⟨p, hp, rfl⟩ := List.mem_map.mp ht
        exact hc p hp
    · obtain ⟨n, hk⟩ := OpKind.exists_inst_of_child? child
      rw [hk] at hv
      cases hv
  | uses found _ w => exact W.redirected (H.nodup_body found) _ hc
  | removal found => exact W.withoutOp ..
  | notes pending attachments => exact ⟨W.types, W.declared, W.operands, W.places, hc⟩

end Ranged

/-- Calls with arguments that fit lead to numbers that fit, as far as the tables have room. -/
theorem writable_edited {name : String} {calls : List Edit.Call} (hc : ∀ c ∈ calls, c.Ranged)
    (room : ((Design.new name).edited calls).Room)
    (few : ((Design.new name).edited calls).anchors.length ≤ Word.limit) :
    ((Design.new name).edited calls).Writable := by
  have B : ((Design.new name).edited calls).Built := (Built.new name).edited calls
  have start : (Design.new name).symbols.Writable :=
    NameSupply.Writable.addAll (fun _ _ h => by cases h) _
  obtain ⟨-, W, S⟩ : ((Design.new name).edited calls).Coherent ∧
      ((Design.new name).edited calls).Ranged ∧
      ((Design.new name).edited calls).symbols.Writable :=
    List.foldlRecOn calls _ (motive := fun d => d.Coherent ∧ d.Ranged ∧ d.symbols.Writable)
      ⟨.new name, .new name, start⟩ fun d ⟨H, W, S⟩ c hmem =>
        have h := Edit.effect_run d c
        ⟨H.change h.change, W.effect H (hc c hmem) h, writable_symbols_effect S h⟩
  refine B.coherent.writable room W B.childrenKnown ⟨fun few a ha => ?_, S⟩ few
  obtain ⟨i, hi⟩ := List.mem_iff_getElem?.mp ha
  have placed := B.anchorsPlaced (a := ⟨i⟩) hi
  rw [placed]
  exact Nat.lt_of_lt_of_le (List.getElem?_eq_some_iff.mp hi).1 few

/-- Writing a design down and reading it again changes nothing, for every design that is built by
calls with arguments that fit and for every design that is read itself. -/
theorem toJson_roundtrip :
    (∀ (name : String) (calls : List Edit.Call), (∀ c ∈ calls, c.Ranged) →
      ((Design.new name).edited calls).Room →
      ((Design.new name).edited calls).anchors.length ≤ Word.limit →
      ∃ d, ofInput? (.value ((Design.new name).edited calls).toJson) = some d ∧
        ((Design.new name).edited calls).Same d) ∧
    ∀ (v : Json) (d : Design), ofInput? (.value v) = some d →
      ∃ d', ofInput? (.value d.toJson) = some d' ∧ d.Same d' := by
  refine ⟨fun name calls hc room few => ?_, fun v d h => ?_⟩
  · exact exists_ofInput?_toJson (writable_edited hc room few)
      ((Built.new name).edited calls).namesUsed
  · exact exists_ofInput?_toJson (writable_of_ofInput? h) (namesUsed_of_ofInput? h)

/-- An instance with notes, a removed operation, a use of a value that does not exist, and a name
that got a suffix. -/
def storedCalls : List Edit.Call :=
  [.newModule "Leaf" .external,
    .growPorts ⟨1⟩ [⟨"io", .bundle (.cons "a" true (.vector (.uint (some 8)) 4) .nil), .input⟩],
    .instantiate ⟨0⟩ "leaf" ⟨1⟩, .newWire ⟨0⟩ "w" (.sint none), .removeOp ⟨1⟩,
    .connect ⟨0⟩ ⟨1⟩ ⟨1⟩, .redirectUses ⟨1⟩ ⟨7⟩, .newAnchor "Leaf" [⟨"Top", "leaf"⟩] "Leaf",
    .setNotes [⟨.ofList [("target", .str "~Top"), ("class", .arr [.null, .int (-3)])]⟩]
      ⟨.ofList [(.port (.inst ⟨0⟩) 0, [.ofClass "a", .ofClass "a"]), (.circuit, [])]⟩]

/-- Without symbols, with an entity listed twice and a field given twice. -/
def storedJson : Json :=
  .obj [("name", .str "Top"), ("top", .int 0),
    ("modules", .arr [.obj [("id", .int 0), ("name", .str "Main"), ("kind", .str "Module"),
      ("ports", .arr []), ("body", .arr [])]]),
    ("ops", .arr [.null]), ("values", .arr []), ("comment", .bool true),
    ("annotations", .arr [.obj [("target", .str "Circuit"), ("annotations", .arr [])],
      .obj [("target", .str "Circuit"), ("annotations", .arr [.obj [("b", .int 1), ("a", .null)]])]])]

theorem ranged_storedCalls : ∀ c ∈ storedCalls, c.Ranged := by
  have entities : ∀ e ∈ [Entity.port (.inst ⟨0⟩) 0, .circuit], e.Writable := by
    simp [Entity.Writable, PortOwner.Writable, Word.limit]
  have type : (SignalType.bundle (.cons "a" true (.vector (.uint (some 8)) 4) .nil)).Writable := by
    simp [SignalType.Writable, Fields.Writable, Word.limit]
  have unknown : (SignalType.sint none).Writable := by simp [SignalType.Writable]
  simp only [storedCalls, List.forall_mem_cons]
  exact ⟨trivial, List.forall_mem_singleton.mpr type, trivial, unknown, trivial, trivial,
    show 7 < Word.limit by decide, trivial, entities, List.forall_mem_nil _⟩

theorem toJson_roundtrip_stored : (∀ c ∈ storedCalls, c.Ranged) ∧
    ((Design.new "Top").edited storedCalls).Room ∧
    ((Design.new "Top").edited storedCalls).anchors.length ≤ Word.limit ∧
    (∃ d, ofInput? (.value ((Design.new "Top").edited storedCalls).toJson) = some d ∧
      ((Design.new "Top").edited storedCalls).Same d) ∧
    ∃ d d', ofInput? (.value storedJson) = some d ∧ ofInput? (.value d.toJson) = some d' ∧
      d.Same d' := by
  have room : ((Design.new "Top").edited storedCalls).Room :=
    ⟨by decide +kernel, by decide +kernel, by decide +kernel⟩
  have few : ((Design.new "Top").edited storedCalls).anchors.length ≤ Word.limit := by
    decide +kernel
  obtain ⟨built, read⟩ := toJson_roundtrip
  obtain ⟨d, hd⟩ : ∃ d, ofInput? (.value storedJson) = some d :=
    Option.isSome_iff_exists.mp (by decide +kernel)
  obtain ⟨d', hd', same⟩ := read storedJson d hd
  exact ⟨ranged_storedCalls, room, few, built _ _ ranged_storedCalls room few, d, d', hd, hd', same⟩

end Design

end AnnotatedCircuit
