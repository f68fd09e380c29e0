import AnnotatedCircuit.Proofs.Design.Continued
import AnnotatedCircuit.Proofs.Target.Resolution

/-!
# Targets in a design that goes on

Where a design goes on in a later one and the new ports shadow no name, every path goes on to
resolve to the same target, with its operations exchanged for their successors
(`Continues.resolves`), and wherever the operations are retained, anchors lead along the successors
of their instances (`Retains.anchored`).
-/

namespace AnnotatedCircuit

/-- Exchange the operation of an entity. -/
def Entity.mapOp (f : OpId → OpId) : Entity → Entity
  | .op o => .op (f o)
  | .port (.inst o) i => .port (.inst (f o)) i
  | e => e

namespace Entity

variable {f g : OpId → OpId} {e : Entity} {o : OpId}

@[simp] theorem op?_mapOp (f : OpId → OpId) (e : Entity) : (e.mapOp f).op? = e.op?.map f := by
  cases e with
  | port owner i => cases owner <;> rfl
  | _ => rfl

@[simp] theorem mapOp_mapOp (f g : OpId → OpId) (e : Entity) :
    (e.mapOp f).mapOp g = e.mapOp (g ∘ f) := by
  cases e with
  | port owner i => cases owner <;> rfl
  | _ => rfl

/-- Only the operation of the entity itself is exchanged. -/
theorem mapOp_congr (h : ∀ o, e.op? = some o → f o = g o) : e.mapOp f = e.mapOp g := by
  cases e with
  | op o => exact congrArg Entity.op (h o rfl)
  | port owner i =>
    cases owner with
    | inst o => exact congrArg (fun o => Entity.port (.inst o) i) (h o rfl)
    | module m => rfl
  | _ => rfl

theorem mapOp_eq_self (h : ∀ o, e.op? = some o → f o = o) : e.mapOp f = e := by
  refine (mapOp_congr h).trans ?_
  cases e with
  | port owner i => cases owner <;> rfl
  | _ => rfl

@[simp] theorem mapOp_id (e : Entity) : e.mapOp id = e := mapOp_eq_self fun _ _ => rfl

theorem mapOp_eq_withOp (h : e.op? = some o) : e.mapOp f = e.withOp (f o) := by
  cases e with
  | op o' => exact congrArg (fun o => Entity.op (f o)) (Option.some.inj h)
  | port owner i =>
    cases owner with
    | inst o' => exact congrArg (fun o => Entity.port (.inst (f o)) i) (Option.some.inj h)
    | module m => cases h
  | _ => cases h

end Entity

/-- Exchange the operations of a target. -/
def Target.mapOps (f : OpId → OpId) (t : Target) : Target :=
  { t with entity := t.entity.mapOp f, route := t.route.map f }

namespace Design

open TargetPath

variable {d d' : Design} {f : OpId → OpId} {h h' : Hierarchy} {m : ModuleId} {name : String}
  {e : Entity} {accesses : List Access}

/-- The ports that a module has got have names that stood for nothing. -/
def Unshadowed (d d' : Design) : Prop := ∀ ⦃m x y⦄, d.module? m = some x →
  d'.module? m = some y → ∀ p ∈ y.ports.drop x.ports.length, ∀ e, ¬d.Denotes m p.name e

theorem entityType_eq_some_iff {t : SignalType} : d.entityType e = .ok (some t) ↔
    ∃ v, d.entityValue e = .ok (some v) ∧ d.valueType v = .ok t := by
  unfold entityType
  rw [Checked.bind_eq_ok_iff]
  constructor
  · rintro ⟨_ | v, hv, h⟩
    · cases h
    · refine ⟨v, hv, ?_⟩
      cases ht : d.valueType v with
      | error e => simp [ht, Functor.map, Except.map] at h
      | ok t' => simpa [ht, Functor.map, Except.map] using h
  · rintro ⟨v, hv, ht⟩
    exact ⟨some v, hv, by simp [ht, Functor.map, Except.map]⟩

theorem portEntries_append (m : ModuleId) (ports added : List Port) :
    ∃ rest, portEntries m (ports ++ added) = portEntries m ports ++ rest :=
  ⟨_, List.mapIdx_append⟩

/-- Wires, registers and nodes have a value. -/
theorem entityValue_op_eq_some_iff {o : OpId} {v : ValueId} :
    d.entityValue (.op o) = .ok (some v) ↔ ∃ op, d.op? o = some op ∧
      op.kind.tag ∈ [.wire, .reg, .node] ∧ op.results.head? = some v := by
  simp only [entityValue, Checked.bind_eq_ok_iff, op_eq_ok_iff]
  refine exists_congr fun op => and_congr_right fun _ => ?_
  cases op.kind <;> simp [OpKind.tag]

/-- Ports stand for themselves. -/
theorem lookup_portEntries_port {ports : List Port}
    (he : OrderedMap.lookup name (portEntries m ports) = some e) :
    ∃ i, e = .port (.module m) i := by
  obtain ⟨i, _, h⟩ := List.mem_mapIdx.mp (OrderedMap.mem_of_lookup he)
  exact ⟨i, (congrArg Prod.snd h).symm⟩

/-- Live instances lead along the steps of an anchor: each has the name of its step, and stands in a
module of the name of its step, which is the one that the instance before instantiates. -/
inductive Leads (d : Design) : ModuleId → List PathStep → List OpId → ModuleId → Prop where
  | nil (m : ModuleId) : Leads d m [] [] m
  | cons {m c last : ModuleId} {x : Module} {step : PathStep} {steps : List PathStep} {o : OpId}
    {op : Op} {os : List OpId} (found : d.module? m = some x) (module : x.name = step.module)
    (live : d.op? o = some op) (parent : op.parent = m) (name : op.kind.name? = some step.name)
    (child : op.kind.child? = some c) (rest : Leads d c steps os last) :
    Leads d m (step :: steps) (o :: os) last

/-- Live instances lead along an anchor, from a module down to one of the name of its leaf. -/
def Anchored (d : Design) (a : Anchor) (m : ModuleId) (os : List OpId) : Prop :=
  ∃ last x, d.Leads m a.path os last ∧ d.module? last = some x ∧ x.name = a.leaf

namespace Retains

variable (R : d.Retains d' f)
include R

theorem leads {steps : List PathStep} {os : List OpId} {last : ModuleId}
    (L : d.Leads m steps os last) : d'.Leads m steps (os.map f) last := by
  induction L with
  | nil m => exact .nil m
  | cons found module live parent name child _ ih =>
    obtain ⟨y, hy, hn⟩ := R.module found
    obtain ⟨op', ho', parent', name', child'⟩ := R.op live
    exact .cons hy (hn.trans module) ho' (parent'.trans parent) (name'.trans name)
      (child'.trans child) ih

theorem anchored {a : Anchor} {os : List OpId} (A : d.Anchored a m os) :
    d'.Anchored a m (os.map f) := by
  obtain ⟨last, x, L, hx, hname⟩ := A
  obtain ⟨y, hy, hn⟩ := R.module hx
  exact ⟨last, y, R.leads L, hy, hn.trans hname⟩

end Retains

namespace Continues

variable (C : d.Continues d' f)
include C

theorem entry? (H : d.Coherent) (H' : d'.Coherent) {o : OpId} {op : Op} (ho : d.op? o = some op) :
    d'.entry? (f o) = (d.entry? o).map fun e => (e.1, e.2.mapOp f) := by
  obtain ⟨op', ho', S⟩ := C.op ho
  rw [Design.entry?, Design.entry?, ho, ho', Option.bind_some, Option.bind_some, S.name?,
    H.op_id ho, H'.op_id ho', Option.map_map]
  rfl

/-- What a name stands for goes on. -/
theorem denotes (H : d.Coherent) (H' : d'.Coherent) (fresh : d.Unshadowed d')
    (he : d.Denotes m name e) : d'.Denotes m name (e.mapOp f) := by
  obtain ⟨x, hx, cases⟩ := denotes_iff.mp he
  obtain ⟨y, extra, hy, -, hports, hbody, -⟩ := C.module hx
  refine denotes_iff.mpr ⟨y, hy, ?_⟩
  obtain ⟨added, hadded⟩ := hports
  rcases cases with hp | ⟨hp, ho⟩
  · obtain ⟨rest, hrest⟩ := portEntries_append m x.ports added
    obtain ⟨i, rfl⟩ := lookup_portEntries_port hp
    refine .inl ?_
    rw [← hadded, hrest, OrderedMap.lookup_append, hp]
    rfl
  · -- A declaration is found as long as no new port has its name.
    refine .inr ⟨fun hmem => ?_, ?_⟩
    · rw [← hadded, List.map_append, List.mem_append] at hmem
      obtain ⟨p, hpa, rfl⟩ := List.mem_map.mp (hmem.resolve_left hp)
      exact fresh hx hy p (by rw [← hadded, List.drop_left]; exact hpa) e he
    · have live : x.body.filterMap (d'.entry? ∘ f) =
          (x.body.filterMap d.entry?).map fun e => (e.1, e.2.mapOp f) := by
        rw [List.map_filterMap]
        refine List.filterMap_congr fun o hmem => ?_
        obtain ⟨op, hop, -⟩ := (H.mem_body hx).mp hmem
        exact C.entry? H H' hop
      rw [hbody, List.filterMap_append, List.filterMap_map, live, OrderedMap.lookup_append,
        OrderedMap.lookup_map, ho]
      rfl

section

variable (H : d.Coherent) (H' : d'.Coherent) (fresh : d.Unshadowed d')
  (named : ∀ name, h'.named name = h.named name)
include H H' fresh named

theorem takes {reached : Option ModuleId} {hop : Hop} {o : OpId} {c : ModuleId}
    (T : Takes d h reached hop o c) : Takes d' h' reached hop (f o) c := by
  obtain ⟨⟨m, hm, hr, he⟩, op, ho, hc⟩ := T
  obtain ⟨op', ho', S⟩ := C.op ho
  exact ⟨⟨m, (named _).trans hm, hr, C.denotes H H' fresh he⟩, op', ho', S.child?.trans hc⟩

theorem route {reached last : Option ModuleId} {hops : List Hop} {os : List OpId}
    (R : Route d h reached hops os last) : Route d' h' reached hops (os.map f) last := by
  induction R with
  | nil reached => exact .nil reached
  | cons first _ ih => exact .cons (C.takes H H' fresh named first) ih

end

theorem selects {e' : Entity} {accesses' : List Access} (S : Selects d e accesses e' accesses') :
    Selects d' (e.mapOp f) accesses (e'.mapOp f) accesses' := by
  cases S with
  | @port o op c x field _ i ho hc hx hi =>
    obtain ⟨op', ho', S⟩ := C.op ho
    obtain ⟨y, -, hy, -, ⟨added, hports⟩, -⟩ := C.module hx
    refine .port ho' (S.child?.trans hc) hy ?_
    rw [Module.portIndex?, ← hports, List.findIdx?_append]
    exact Option.or_eq_some_iff.mpr (.inl hi)
  | whole ho plain =>
    obtain ⟨op', ho', S⟩ := C.op ho
    exact .whole ho' (plain.imp_left S.child?.trans)
  | other other =>
    refine .other fun o he => ?_
    cases e with
    | op o => exact other o rfl
    | port owner => cases owner <;> cases he
    | _ => cases he

theorem entityValue {v : ValueId} {t : SignalType} (hv : d.entityValue e = .ok (some v))
    (ht : d.valueType v = .ok t) :
    ∃ v', d'.entityValue (e.mapOp f) = .ok (some v') ∧ d'.valueType v' = .ok t := by
  match e with
  | .circuit | .module _ => cases hv
  | .op o =>
    obtain ⟨op, ho, tag, hv⟩ := entityValue_op_eq_some_iff.mp hv
    obtain ⟨op', ho', S⟩ := C.op ho
    rw [List.head?_eq_getElem?] at hv
    obtain ⟨v', hv', ht'⟩ := S.result hv ht
    rw [← List.head?_eq_getElem?] at hv'
    exact ⟨v', entityValue_op_eq_some_iff.mpr ⟨op', ho', S.tag ▸ tag, hv'⟩, ht'⟩
  | .port (.module m) i =>
    obtain ⟨x, hx, hv⟩ := Checked.bind_eq_ok_iff.mp hv
    obtain ⟨y, -, hy, -, hports, -⟩ := C.module (module_eq_ok_iff.mp hx)
    obtain ⟨p, hp, rfl⟩ := Option.map_eq_some_iff.mp (Checked.pure_eq_ok_iff.mp hv)
    refine ⟨p.value, Checked.bind_eq_ok_iff.mpr ⟨y, module_eq_ok_iff.mpr hy, ?_⟩,
      valueType_of_value C.value ht⟩
    rw [getElem?_of_isPrefix hports hp]
    rfl
  | .port (.inst o) i =>
    obtain ⟨op, ho, hv⟩ := Checked.bind_eq_ok_iff.mp hv
    obtain ⟨op', ho', S⟩ := C.op (op_eq_ok_iff.mp ho)
    obtain ⟨v', hv', ht'⟩ := S.result (Checked.pure_eq_ok_iff.mp hv) ht
    exact ⟨v', Checked.bind_eq_ok_iff.mpr ⟨op', op_eq_ok_iff.mpr ho',
      Checked.pure_eq_ok_iff.mpr hv'⟩, ht'⟩

theorem isPart {n : Nat} (P : IsPart d e accesses n) : IsPart d' (e.mapOp f) accesses n := by
  cases accesses with
  | nil => exact P
  | cons a accesses =>
    obtain ⟨t, ht, hn⟩ := P
    obtain ⟨v, hv, ht⟩ := entityType_eq_some_iff.mp ht
    exact ⟨t, entityType_eq_some_iff.mpr (C.entityValue hv ht), hn⟩

/-- A path goes on to resolve to its target. -/
theorem resolves (H : d.Coherent) (H' : d'.Coherent) (fresh : d.Unshadowed d')
    (named : ∀ name, h'.named name = h.named name) {p : TargetPath} {t : Target}
    (R : p.Resolves d h t) : p.Resolves d' h' (t.mapOps f) := by
  cases R with
  | circuit circuit bare => exact .circuit (C.name ▸ circuit) bare
  | entity circuit module hops found leaf denoted selected part =>
    refine .entity (C.name ▸ circuit) module (C.route H H' fresh named hops)
      ((named _).trans found) leaf ?_ (C.selects selected) (C.isPart part)
    cases hp : p.name with
    | none =>
      rw [hp] at denoted
      obtain rfl := denoted
      rfl
    | some name =>
      rw [hp] at denoted
      exact C.denotes H H' fresh denoted

/-- An anchor leads along the successors of its instances. -/
theorem anchored {a : Anchor} {os : List OpId} (A : d.Anchored a m os) :
    d'.Anchored a m (os.map f) := C.retains.anchored A

end Continues

end Design

end AnnotatedCircuit
