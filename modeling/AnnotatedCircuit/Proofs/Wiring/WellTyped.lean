import AnnotatedCircuit.Proofs.Design.Atomicity
import AnnotatedCircuit.Proofs.Design.Mirrors
import AnnotatedCircuit.Proofs.Wiring.Delivery
import AnnotatedCircuit.Proofs.Wiring.PlannedNames
import AnnotatedCircuit.Proofs.Wiring.Run

/-!
# The types of the connections that wiring makes

All values that stand for a request have the type of its sink, up to one reference (`Carried`): its
two sides, the ports planned for it and the results of instances for these ports, also when they are
renamed. Two such types are the same, or one is the reference type of the other, and then a
conversion goes in between. So each connection that is made joins two values of one type, and each
conversion leads from a type to its reference type or back (`wellTyped_realize_plan`).
-/

namespace AnnotatedCircuit

namespace SignalType

variable {t u : SignalType}

@[simp] theorem deref_toRef (t : SignalType) : t.toRef.deref = t.deref := by
  cases t <;> rfl

theorem eq_ref_deref (h : t.isRef = true) : t = .ref t.deref := by
  cases t with
  | ref t => rfl
  | _ => cases h

theorem deref_of_plain (h : t.isRef = false) : t.deref = t := by
  cases t with
  | ref t => cases h
  | _ => rfl

theorem toRef_of_plain (h : t.isRef = false) : t.toRef = .ref t := by
  cases t with
  | ref t => cases h
  | _ => rfl

end SignalType

namespace Design

variable {d d' d'' : Design} {m : ModuleId} {kind : OpKind} {op : Op} {t u : SignalType}
  {dest src : ValueId}

/-- A connection joins values of one type. A conversion leads from a type to its reference type, or
from that to the type. -/
def WellTyped (d : Design) (op : Op) : Prop :=
  match op.kind with
  | .connect dest src => ∃ t, d.valueType dest = .ok t ∧ d.valueType src = .ok t
  | .refSend base => ∃ t v, op.results = [v] ∧ d.valueType base = .ok t ∧
    d.valueType v = .ok (.ref t)
  | .refResolve reference => ∃ t v, op.results = [v] ∧ d.valueType reference = .ok (.ref t) ∧
    d.valueType v = .ok t
  | _ => True

theorem wellTyped_of_child? {c : ModuleId} (h : op.kind.child? = some c) : d.WellTyped op := by
  obtain ⟨n, hk⟩ := OpKind.exists_inst_of_child? h
  rw [WellTyped, hk]
  trivial

/-- The operands may move to values of the same types. -/
theorem WellTyped.moved {f : ValueId → ValueId} (W : d.WellTyped op)
    (operand : ∀ {v t}, d.valueType v = .ok t → d'.valueType (f v) = .ok t)
    (result : ∀ {v t}, d.valueType v = .ok t → d'.valueType v = .ok t) :
    d'.WellTyped (Op.rebind f op) := by
  obtain ⟨o, parent, kind, results⟩ := op
  cases kind with
  | connect dest src =>
    obtain ⟨t, hd, hs⟩ := W
    exact ⟨t, operand hd, operand hs⟩
  | refSend base =>
    obtain ⟨t, v, hr, hb, hv⟩ := W
    exact ⟨t, v, hr, operand hb, result hv⟩
  | refResolve reference =>
    obtain ⟨t, v, hr, hb, hv⟩ := W
    exact ⟨t, v, hr, operand hb, result hv⟩
  | _ => trivial

theorem WellTyped.extends (W : d.WellTyped op) (E : d.Extends d') : d'.WellTyped op := by
  have same : Op.rebind id op = op := Op.rebind_eq_self fun _ _ => rfl
  exact same ▸ W.moved E.valueType E.valueType

/-- Nothing is lost, and the operations that are entered are well-typed. -/
structure Enters (d d' : Design) : Prop where
  extension : d.Extends d'
  added : ∀ {o op}, d.op? o = none → d'.op? o = some op → d'.WellTyped op

namespace Enters

theorem refl (d : Design) : d.Enters d where
  extension := .refl d
  added h h' := by
    rw [h] at h'
    cases h'

/-- An operation is well-typed if it is new or was well-typed before. -/
theorem wellTyped (E : d.Enters d') {o : OpId} (old : ∀ op, d.op? o = some op → d.WellTyped op)
    (h' : d'.op? o = some op) : d'.WellTyped op := by
  cases h : d.op? o with
  | none => exact E.added h h'
  | some op₀ =>
    rw [E.extension.op h] at h'
    obtain rfl := Option.some.inj h'
    exact (old op₀ h).extends E.extension

theorem trans (E : d.Enters d') (E' : d'.Enters d'') : d.Enters d'' where
  extension := E.extension.trans E'.extension
  added h := E'.wellTyped fun _ => E.added h

theorem enterPorts (d : Design) (m : ModuleId) (base : Nat) (ports : List PortDecl) :
    d.Enters (d.enterPorts m base ports) where
  extension := extends_enterPorts ..
  added h h' := by
    have h' : d.op? _ = some _ := h'
    rw [h] at h'
    cases h'

theorem addOp {types : List SignalType}
    (W : (d.addOp m kind types fun o body => body ++ [o]).WellTyped
      ⟨d.nextOp, m, kind, d.nextValues types⟩) :
    d.Enters (d.addOp m kind types fun o body => body ++ [o]) where
  extension := extends_addOp ..
  added h h' := by
    rcases op?_addOp_cases h' with ⟨-, rfl⟩ | h'
    · exact W
    · rw [h] at h'
      cases h'

end Enters

theorem valueType_addOp_self (d : Design) (m : ModuleId) (kind : OpKind) (t : SignalType)
    (place : OpId → List OpId → List OpId) :
    (d.addOp m kind [t] place).valueType ⟨d.values.length⟩ = .ok t :=
  valueType_eq_ok_iff.mpr ⟨_, value?_addOp.mpr (.inr ⟨0, t, rfl, rfl, rfl⟩), rfl⟩

/-- Types that are the same up to one reference are the same if no conversion is asked for. -/
theorem eq_of_no_conversion (same : t.deref = u.deref)
    (h : OpKind.conversion? t u src = none) : t = u := by
  unfold OpKind.conversion? at h
  cases ht : t.isRef <;> cases hu : u.isRef <;> simp only [ht, hu] at h
  · rwa [SignalType.deref_of_plain ht, SignalType.deref_of_plain hu] at same
  · cases h
  · cases h
  · rw [SignalType.eq_ref_deref ht, SignalType.eq_ref_deref hu, same]

/-- The conversion between two types that are the same up to one reference leads from one to the
other. -/
theorem enters_conversion (hs : d.valueType src = .ok u) (same : t.deref = u.deref)
    {t' : SignalType} (h : OpKind.conversion? t u src = some (kind, t')) :
    t' = t ∧ d.Enters (d.addOp m kind [t'] fun o body => body ++ [o]) := by
  unfold OpKind.conversion? at h
  split at h
  · rename_i ht hu
    cases h
    rw [SignalType.deref_of_plain hu] at same
    rw [SignalType.toRef_of_plain hu, ← same]
    refine ⟨(SignalType.eq_ref_deref ht).symm, .addOp ⟨u, _, rfl, ?_, ?_⟩⟩
    · exact (extends_addOp ..).valueType hs
    · rw [same]
      exact valueType_addOp_self ..
  · rename_i ht hu
    cases h
    rw [SignalType.deref_of_plain ht] at same
    refine ⟨same.symm, .addOp ⟨u.deref, _, rfl, ?_, valueType_addOp_self ..⟩⟩
    rw [← SignalType.eq_ref_deref hu]
    exact (extends_addOp ..).valueType hs
  · cases h

end Design

namespace Edit

open Design

variable {d d' : Design} {m : ModuleId} {dest src w : ValueId} {t u : SignalType}

theorem enters_connect (hd : d.valueType dest = .ok t) (hs : d.valueType src = .ok t) :
    d.Enters ((connect m dest src).after d) := by
  refine after_ask_bind (.refl d) fun _ _ => after_ask_bind (.refl d) fun _ _ => ?_
  rw [newOp_eq]
  refine after_ask_bind (.refl d) fun _ _ => .addOp ⟨t, ?_, ?_⟩
  · exact (extends_addOp ..).valueType hd
  · exact (extends_addOp ..).valueType hs

/-- A conversion that is not refused answers a value of the type that is to be driven. -/
theorem enters_convert (hs : d.valueType src = .ok u) (same : t.deref = u.deref)
    (h : convert m t u src d = .ok w d') : d'.valueType w = .ok t ∧ d.Enters d' := by
  rw [convert_eq_ok_iff hs] at h
  cases hc : OpKind.conversion? t u src with
  | none =>
    rw [hc] at h
    obtain ⟨rfl, rfl⟩ := h
    exact ⟨eq_of_no_conversion same hc ▸ hs, .refl d'⟩
  | some k =>
    rw [hc] at h
    obtain ⟨-, -, rfl, rfl⟩ := h
    obtain ⟨ht, E⟩ := enters_conversion (m := m) hs same hc
    exact ⟨ht ▸ valueType_addOp_self .., E⟩

/-- A value that is driven by one of the same type up to one reference. -/
theorem enters_drive (hd : d.valueType dest = .ok t) (hs : d.valueType src = .ok u)
    (same : t.deref = u.deref) : d.Enters ((drive m dest src).after d) := by
  rw [drive_eq, EStateM.after_bind_of_ok (ask_of_ok hd), EStateM.after_bind_of_ok (ask_of_ok hs)]
  cases hc : convert m t u src d with
  | error e d' =>
    rw [EStateM.after_bind_of_error hc, (atomic_convert m t u src).unchanged hc]
    exact .refl d
  | ok w d' =>
    obtain ⟨hw, E⟩ := enters_convert hs same hc
    rw [EStateM.after_bind_of_ok hc, EStateM.after_bind_pure]
    exact E.trans (enters_connect (E.extension.valueType hd) hw)

end Edit

namespace Wiring

open Design

variable {d : Design} {h : Hierarchy} {rs : List WireRequest} {n : Nat} {m : ModuleId}
  {t u : SignalType}

/-- A type that the request of a number is wired with: that of its sink, up to one reference. -/
def Carried (d : Design) (rs : List WireRequest) (n : Nat) (t : SignalType) : Prop :=
  ∃ r u, rs[n]? = some r ∧ d.valueType r.sink = .ok u ∧ t.deref = u.deref

theorem Carried.same (h : Carried d rs n t) (h' : Carried d rs n u) : t.deref = u.deref := by
  obtain ⟨r, v, hr, hv, e⟩ := h
  obtain ⟨r', v', hr', hv', e'⟩ := h'
  obtain rfl := Option.some.inj (hr.symm.trans hr')
  obtain rfl := Except.ok.inj (hv.symm.trans hv')
  exact e.trans e'.symm

namespace Realize

variable {s s' s'' : Realizing} {c : ModuleChanges} {dest src v : ValueId} {e : Endpoint}
  {ports : List PlannedPort} {site : Site} {sites : List Site} {op : Op} {types : List SignalType}
  {lag : OpId → Nat}

/-- A value of a type that a request is wired with. -/
def Suits (d : Design) (rs : List WireRequest) (s : Realizing) (n : Nat) (v : ValueId) : Prop :=
  ∃ t, s.design.valueType v = .ok t ∧ Carried d rs n t

/-- A step that enters well-typed operations and leaves the plan and the renames alone. -/
structure Enters (s s' : Realizing) : Prop where
  design : s.design.Enters s'.design
  plan : s'.plan = s.plan
  renames : s'.renames = s.renames

theorem Enters.refl (s : Realizing) : Enters s s := ⟨.refl _, rfl, rfl⟩

theorem Enters.trans (E : Enters s s') (E' : Enters s' s'') : Enters s s'' :=
  ⟨E.design.trans E'.design, E'.plan.trans E.plan, E'.renames.trans E.renames⟩

theorem Suits.enters (h : Suits d rs s n v) (E : Enters s s') : Suits d rs s' n v := by
  obtain ⟨t, ht, carried⟩ := h
  exact ⟨t, E.design.extension.valueType ht, carried⟩

/-! ### Joining and closing -/

theorem enters_drive_count (hd : Suits d rs s n dest) (hs : Suits d rs s n src) :
    Enters s ((edit (Edit.drive m dest src) >>= fun _ => countConnection).after s) := by
  obtain ⟨t, ht, carried⟩ := hd
  obtain ⟨u, hu, carried'⟩ := hs
  have E : Enters s ((edit (Edit.drive m dest src)).after s) := by
    rw [after_edit]
    exact ⟨Edit.enters_drive ht hu (carried.same carried'), rfl, rfl⟩
  exact EStateM.after_bind_keeps E fun _ _ E => ⟨E.design, E.plan, E.renames⟩

/-- The endpoints of a module stand for their requests. -/
def EndsSuit (d : Design) (rs : List WireRequest) (c : ModuleChanges) (s : Realizing) : Prop :=
  ∀ n, ∀ e ∈ c.ends n, Suits d rs s n (follow s.renames e.value)

theorem EndsSuit.enters (A : EndsSuit d rs c s) (E : Enters s s') : EndsSuit d rs c s' := by
  intro n e he
  rw [E.renames]
  exact (A n e he).enters E

/-- A request without an endpoint is not joined. -/
theorem endpoint_of_none (hf : c.endpoints.find? n = none) (m : ModuleId) (s : Realizing) :
    ∃ x, endpoint m c n s = .error x s := by
  unfold endpoint
  rw [hf]
  exact ⟨_, rfl⟩

theorem mem_ends_of_find? {f : Endpoint} (hf : c.endpoints.find? n = some f) : f ∈ c.ends n := by
  rw [ModuleChanges.ends, hf]
  exact List.mem_append_left _ List.mem_cons_self

theorem enters_joinPort {p : PlannedPort} {port : ValueId} (A : EndsSuit d rs c s)
    (hp : Suits d rs s p.request port) : Enters s ((joinPort m c p port).after s) := by
  cases hf : c.endpoints.find? p.request with
  | none =>
    obtain ⟨x, hx⟩ := endpoint_of_none hf m s
    rw [joinPort, EStateM.after_bind_of_error hx]
    exact .refl s
  | some f =>
    have he := A _ _ (mem_ends_of_find? hf)
    rw [joinPort, EStateM.after_bind_of_ok (endpoint_ok hf m s)]
    cases p.port.direction
    · exact enters_drive_count he hp
    · exact enters_drive_count hp he

theorem enters_close {r : Endpoint × Nat} (A : EndsSuit d rs c s) (hr : r ∈ c.closings) :
    Enters s ((close m c r.1 r.2).after s) := by
  cases hf : c.endpoints.find? r.2 with
  | none =>
    obtain ⟨x, hx⟩ := endpoint_of_none hf m s
    have failed : close m c r.1 r.2 s = .error x s :=
      (EStateM.bind_of_ok (x := current r.1)
        (a := { r.1 with value := follow s.renames r.1.value }) rfl).trans
        (EStateM.bind_of_error hx)
    rw [EStateM.after, failed]
    exact .refl s
  | some f =>
    have he := A _ _ (mem_ends_of_closing hr)
    have first := A _ _ (mem_ends_of_find? hf)
    rw [EStateM.after, close_eq hf, ← EStateM.after]
    cases r.1.role
    · exact enters_drive_count first he
    · exact enters_drive_count he first

/-- A loop of steps, each of which may rely on what its element needs and entering keeps. -/
theorem enters_forM {α : Type} {f : α → Realize Unit} {D : α → Realizing → Prop} {l : List α}
    (step : ∀ {a s}, D a s → Enters s ((f a).after s))
    (keep : ∀ {a s s'}, D a s → Enters s s' → D a s') (hl : ∀ a ∈ l, D a s)
    (h : (l.forM fun a => recorded (f a)) s = .ok () s') : Enters s s' := by
  induction l generalizing s with
  | nil =>
    cases h
    exact .refl _
  | cons a l ih =>
    obtain ⟨ha, hl⟩ := List.forall_mem_cons.mp hl
    obtain ⟨errors, hfirst⟩ := recorded_ok (f a) s
    have E := step ha
    have first : Enters s { (f a).after s with errors } := ⟨E.design, E.plan, E.renames⟩
    obtain ⟨_, s₁, h₁, h⟩ := EStateM.bind_eq_ok_iff.mp h
    obtain rfl := (EStateM.Result.ok.inj (hfirst.symm.trans h₁)).2
    exact first.trans (ih (fun b hb => keep (hl b hb) first) h)

/-- The value of a new port has the type of the port. -/
theorem valueType_grown {x : Module} {r : PlannedPort × ValueId}
    (hr : r ∈ ports.zip (s.design.nextValues (ports.map (·.port)))) :
    (grown s m x ports).design.valueType r.2 = .ok r.1.port.type := by
  obtain ⟨i, hi⟩ := List.mem_iff_getElem?.mp hr
  obtain ⟨hq, hv⟩ := List.getElem?_zip_eq_some.mp hi
  obtain ⟨-, hv⟩ := getElem?_nextValues.mp hv
  refine valueType_eq_ok_iff.mpr ⟨_, value?_enterPorts.mpr (.inr ⟨i, r.1.port, ?_, hv, rfl⟩), rfl⟩
  rw [List.getElem?_map, hq]
  rfl

/-- Joining the new ports of a module and closing its requests. -/
theorem enters_joined {x : Module} (hx : s.design.module? m = some x) (A : EndsSuit d rs c s)
    (ports : ∀ q ∈ c.ports, Carried d rs q.request q.port.type)
    (h : (joinPorts m c >>= fun _ => closeAll m c) s = .ok () s') : Enters s s' := by
  obtain ⟨_, s₁, h₁, h₂⟩ := EStateM.bind_eq_ok_iff.mp h
  rw [joinPorts_eq hx] at h₁
  have E₀ : Enters s (grown s m x c.ports) := ⟨.enterPorts .., rfl, rfl⟩
  have E₁ : Enters (grown s m x c.ports) s₁ := by
    refine enters_forM (f := fun r : PlannedPort × ValueId => joinPort m c r.1 r.2)
      (D := fun r s => EndsSuit d rs c s ∧ Suits d rs s r.1.request r.2)
      (fun h => enters_joinPort h.1 h.2) (fun h E => ⟨h.1.enters E, h.2.enters E⟩)
      (fun r hr => ⟨A.enters E₀, r.1.port.type, ?_, ports r.1 (List.of_mem_zip hr).1⟩) h₁
    exact valueType_grown hr
  have E₂ : Enters s₁ s' :=
    enters_forM (f := fun r : Endpoint × Nat => close m c r.1 r.2)
      (D := fun r s => EndsSuit d rs c s ∧ r ∈ c.closings) (fun h => enters_close h.1 h.2)
      (fun h E => ⟨h.1.enters E, h.2⟩) (fun r hr => ⟨(A.enters E₀).enters E₁, hr⟩) h₂
  exact (E₀.trans E₁).trans E₂

/-! ### Replacing instances -/

/-- A result that is renamed keeps its type. -/
theorem Reissuing.valueType (R : Reissuing ports site op types s s') (H : s.design.Coherent)
    (hv : s.design.valueType v = .ok t) :
    s'.design.valueType (s.design.resultRenaming op types v) = .ok t := by
  have hlen : op.results.length ≤ types.length := R.length ▸ Nat.le_add_right ..
  by_cases hr : v ∈ op.results
  · obtain ⟨i, hi⟩ := List.mem_iff_getElem?.mp hr
    obtain ⟨ts, htypes, hts⟩ := R.typed
    have hlt : i < ts.length := hts.length_eq ▸ (List.getElem?_eq_some_iff.mp hi).1
    rw [resultRenaming_result H R.live hlen hi]
    apply R.design.valueType_new
    have old := valueType_getElem? hts hi (List.getElem?_eq_getElem hlt)
    obtain rfl := Except.ok.inj (hv.symm.trans old)
    rw [htypes, List.getElem?_append_left hlt, List.getElem?_eq_getElem hlt]
  · rw [resultRenaming_of_not_mem hlen hr]
    exact R.design.valueType hv

/-- The results of a copy for new ports have the types of these. -/
theorem Reissuing.valueType_result (R : Reissuing ports site op types s s')
    {r : PlannedPort × ValueId}
    (hr : r ∈ ports.zip ((s.design.nextValues types).drop op.results.length)) :
    s'.design.valueType r.2 = .ok r.1.port.type := by
  obtain ⟨i, hi⟩ := List.mem_iff_getElem?.mp hr
  obtain ⟨hq, hv⟩ := List.getElem?_zip_eq_some.mp hi
  rw [List.getElem?_drop] at hv
  obtain ⟨-, hv⟩ := getElem?_nextValues.mp hv
  obtain ⟨ts, htypes, hts⟩ := R.typed
  rw [hv]
  apply R.design.valueType_new
  rw [htypes, hts.length_eq, List.getElem?_append_right (Nat.le_add_right ..),
    Nat.add_sub_cancel_left, List.getElem?_map, hq]
  rfl

/-- What stands for a request is wired with a type of it, and what was entered is well-typed. -/
structure Suited (d : Design) (rs : List WireRequest) (s : Realizing) : Prop where
  ends : ∀ m, EndsSuit d rs (s.plan.changesOf m) s
  ports : ∀ {m q}, q ∈ (s.plan.changesOf m).ports → Carried d rs q.request q.port.type
  added : ∀ {o op}, d.op? o = none → s.design.op? o = some op → s.design.WellTyped op

theorem Suited.enters (U : Suited d rs s) (E : Enters s s') : Suited d rs s' where
  ends m := E.plan ▸ (U.ends m).enters E
  ports := E.plan ▸ U.ports
  added h := E.design.wellTyped fun _ => U.added h

theorem Suited.withoutChanges (U : Suited d rs s) (m : ModuleId) :
    Suited d rs (withoutChanges s m) := by
  have erased : ∀ m', (Realize.withoutChanges s m).plan.changesOf m' = .empty ∨
      (Realize.withoutChanges s m).plan.changesOf m' = s.plan.changesOf m' := by
    intro m'
    rw [Realize.withoutChanges, Plan.changesOf_erase]
    split
    · exact .inl rfl
    · exact .inr rfl
  refine ⟨fun m' n e he => ?_, fun {m' q} hq => ?_, U.added⟩
  · rcases erased m' with h | h <;> rw [h] at he
    · cases he
    · exact U.ends m' n e he
  · rcases erased m' with h | h <;> rw [h] at hq
    · cases hq
    · exact U.ports hq

theorem Suited.reissued (U : Suited d rs s) (R : Reissuing ports site op types s s')
    (S : s.design.Sound lag) (K : Kept d s)
    (carried : ∀ q ∈ ports, Carried d rs q.request q.port.type) : Suited d rs s' := by
  have M := R.moves S K
  have K' := R.kept S K
  have moved : ∀ {n v}, Suits d rs s n (follow s.renames v) →
      Suits d rs s' n (follow s'.renames v) := by
    rintro n v ⟨t, ht, h⟩
    exact ⟨t, by rw [M.follow]; exact R.valueType S.coherent ht, h⟩
  refine ⟨fun m n e he => ?_, fun {m q} hq => ?_, fun {o q} h h' => ?_⟩
  · rw [R.plan, Plan.changesOf_modify] at he
    split at he
    · rw [(ends_recordResults ..).mem_iff, List.mem_append] at he
      rcases he with he | he
      · obtain ⟨r, hf, rfl⟩ := List.mem_map.mp he
        obtain ⟨hr, hn⟩ := List.mem_filter.mp hf
        obtain rfl : r.1.request = n := by simpa using hn
        have live : follow s'.renames (resultEnd r).value = r.2 :=
          K'.follow_live (R.visible_result hr)
        exact ⟨_, by rw [live]; exact R.valueType_result hr, carried r.1 (List.of_mem_zip hr).1⟩
      · exact moved (U.ends _ _ _ he)
    · exact moved (U.ends _ _ _ he)
  · rw [R.plan, Plan.changesOf_modify] at hq
    split at hq
    · rw [ports_recordResults] at hq
      exact U.ports hq
    · exact U.ports hq
  · rcases R.design.op_cases h' with ⟨-, rfl⟩ | ⟨q₀, hq₀, -, rfl⟩
    · exact wellTyped_of_child? R.child
    · exact (U.added h hq₀).moved (R.valueType S.coherent) R.design.valueType

theorem Suited.replaced (U : Suited d rs s) (R : Replaces ports sites s s') (K : Kept d s)
    (carried : ∀ q ∈ ports, Carried d rs q.request q.port.type) : Kept d s' ∧ Suited d rs s' := by
  induction R with
  | nil => exact ⟨K, U⟩
  | cons catching first _ ih =>
    have S := catching.sound.design
    exact ih (U.reissued first S K carried) (first.kept S K)

theorem Suited.visit (U : Suited d rs s) (K : Kept d s) (T : Steady h s) (V : Visits m s s') :
    Kept d s' ∧ Suited d rs s' := by
  have K₀ : Kept d (Realize.withoutChanges s m) := ⟨K.dead, K.traced, K.ports⟩
  have U₀ := U.withoutChanges m
  cases V with
  | nothing => exact ⟨K₀, U₀⟩
  | work found filled replaced joined =>
    have carried : ∀ q ∈ (s.plan.changesOf m).ports, Carried d rs q.request q.port.type :=
      fun q hq => U.ports hq
    have ends : EndsSuit d rs (s.plan.changesOf m) (Realize.withoutChanges s m) :=
      U.ends m
    have E := enters_joined (s := Realize.withoutChanges s m) found ends carried joined
    have K₁ := K₀.grown T.sound.design.coherent filled
    exact (U₀.enters E).replaced replaced K₁ carried

end Realize

/-! ### All requests -/

variable {s : Planning}

/-- The sides of the requests that are planned, and the ports planned for them, have types that the
requests are wired with. -/
theorem Planned.suited (P : Planned d rs rs.length s) (T : s.plan.Tidy d rs rs.length)
    (same : ∀ r ∈ rs, d.Plannable r → ∀ t u, d.valueType r.source = .ok t →
      d.valueType r.sink = .ok u → t.deref = u.deref) :
    Realize.Suited d rs ⟨d, s.table, s.plan, .empty, {}, []⟩ where
  ends m n e he := by
    have planned : ∃ r, rs[n]? = some r ∧ d.Plannable r := by
      by_contra none
      rw [not_exists] at none
      have absent := (P.absent (.inr fun r hr plannable => none r ⟨hr, plannable⟩) m).1
      rw [absent] at he
      cases he
    obtain ⟨r, hr, plannable⟩ := planned
    obtain ⟨r', hr', hv⟩ := P.placed.request he
    obtain rfl := Option.some.inj (hr.symm.trans hr')
    obtain ⟨a, -, ha, -⟩ := plannable .source
    obtain ⟨b, -, hb, -⟩ := plannable .sink
    obtain ⟨t, ht⟩ := Edit.valueType_of_valueModule ha
    obtain ⟨u, hu⟩ := Edit.valueType_of_valueModule hb
    change Realize.Suits d rs _ n e.value
    rw [hv]
    cases e.role with
    | source => exact ⟨t, ht, r, u, hr, hu, same r (List.mem_of_getElem? hr) plannable t u ht hu⟩
    | sink => exact ⟨u, hu, r, u, hr, hu, rfl⟩
  ports {m q} hq := by
    obtain ⟨r, hr, ⟨t, ht, htype⟩, -⟩ := T.carries hq
    refine ⟨r, t, hr, ht, ?_⟩
    rw [htype]
    split
    · exact SignalType.deref_toRef t
    · rfl
  added h h' := by
    have h' : d.op? _ = some _ := h'
    rw [h] at h'
    cases h'

/-- When a plan is carried out for requests whose two sides have the same type up to one reference,
every connection that comes in joins values of one type, and every conversion leads from a type to
its reference type or back. Only a module with as many names as there are words stops the
planning. -/
theorem wellTyped_realize_plan (H : d.Built) (hd : d.check = .ok ())
    (hh : Hierarchy.ofDesign d = .ok h) (ms : List ModuleId) (rs : List WireRequest)
    (same : ∀ r ∈ rs, d.Plannable r → ∀ t u, d.valueType r.source = .ok t →
      d.valueType r.sink = .ok u → t.deref = u.deref) :
    match plan d ((PathTable.ofHierarchy h).asked ms) rs with
    | .error _ => ∃ x ∈ d.modules, Word.limit ≤ x.ports.length + x.body.length + rs.length
    | .ok (s, _) => ∀ o op, d.op? o = none →
      (realize d s.table s.plan).design.op? o = some op →
      (realize d s.table s.plan).design.WellTyped op := by
  have C := H.coherent
  obtain ⟨hv, hf⟩ := (check_eq_ok_iff C).mp hd
  have S : d.Sound fun _ => 0 := ⟨C, hv, hf⟩
  obtain ⟨ht, T⟩ := table_of_design C hh ms
  rcases plan_cases S ht T rs with ⟨s, errors, hplan, P, -⟩ | ⟨o, hplan, hfull⟩
  · rw [hplan]
    intro o op hnone hop
    have start : Realize.Kept d ⟨d, s.table, s.plan, .empty, {}, []⟩ := ⟨nofun, .refl C, id⟩
    have all := realize_keeps (Q := fun _ s => Realize.Kept d s ∧ Realize.Suited d rs s) S
      P.hierarchy P.table s.plan ⟨start, P.suited (plan_tidy hplan) same⟩
      fun _ T V ⟨K, U⟩ => U.visit K T V
    exact all.2.added hnone hop
  · rw [hplan]
    exact hfull

/-- The wire of the instance drives the wire of the top module by a reference. -/
def byReference : WireRequest := { upwards with asRef := true }

theorem wellTyped_realize_plan_byReference : ∃ s errors,
    plan sideInstances (.ofHierarchy sideInstances.hierarchy) [byReference] = .ok (s, errors) ∧
      ∃ op, (realize sideInstances s.table s.plan).design.op? ⟨10⟩ = some op ∧
        op.kind = .refResolve ⟨4⟩ ∧ (realize sideInstances s.table s.plan).design.WellTyped op := by
  obtain ⟨H, hd, hh⟩ := sideInstances_sound
  have run : (plan sideInstances (.ofHierarchy sideInstances.hierarchy)
      [byReference]).toOption.any (fun r : Planning × List LowerError => decide
        (((realize sideInstances r.1.table r.1.plan).design.op? ⟨10⟩).map Op.kind =
          some (.refResolve ⟨4⟩))) = true := by
    decide +kernel
  have source : sideInstances.valueType byReference.source = .ok (.uint (some 1)) := by
    decide +kernel
  have sink : sideInstances.valueType byReference.sink = .ok (.uint (some 1)) := by decide +kernel
  have all := wellTyped_realize_plan H hd hh [] [byReference] fun r hr _ t u ht hu => by
    obtain rfl := List.mem_singleton.mp hr
    rw [← Except.ok.inj (source.symm.trans ht), ← Except.ok.inj (sink.symm.trans hu)]
  rw [PathTable.asked, List.foldl_nil] at all
  cases hplan : plan sideInstances (.ofHierarchy sideInstances.hierarchy) [byReference] with
  | error o =>
    rw [hplan] at run
    cases run
  | ok result =>
    obtain ⟨s, errors⟩ := result
    rw [hplan] at run all
    simp only [Except.toOption, Option.any_some, decide_eq_true_eq] at run
    obtain ⟨op, hop, hkind⟩ := Option.map_eq_some_iff.mp run
    exact ⟨s, errors, rfl, op, hop, hkind, all ⟨10⟩ op rfl hop⟩

end Wiring

end AnnotatedCircuit
