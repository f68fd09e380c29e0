import AnnotatedCircuit.Proofs.Design.Substitution
import AnnotatedCircuit.Proofs.Wiring.Instances
import AnnotatedCircuit.Proofs.Wiring.Targets

/-!
# What is counted while a plan is carried out

A new port that is joined and a request that is closed are settled: either one connection is entered
and counted, or one failure is recorded (`Realize.Settled`). The rest of a visit connects nothing and
does not fail (`Realize.Settling`). So the counts of a run are those of what it leaves: its ports,
its connections, and the instances that it replaced (`tally_exact`).
-/

namespace AnnotatedCircuit

namespace Design

variable {d d' : Design} {f : OpId → OpId} {m : ModuleId} {x : Module} {o : OpId} {op : Op}
  {kind : OpKind} {tag : OpTag} {types : List SignalType} {place : OpId → List OpId → List OpId}
  {c : ModuleId}

/-! ### Operations of a sort -/

theorem tag_eq_inst_of_child? (h : kind.child? = some c) : kind.tag = .inst := by
  cases kind <;> first | rfl | cases h

/-- The live operations of a sort, in the order of their table. -/
def tagged (d : Design) (tag : OpTag) : List OpId :=
  (d.liveOps.filter (·.kind.tag = tag)).map Op.id

theorem mem_tagged (H : d.Coherent) :
    o ∈ d.tagged tag ↔ ∃ op, d.op? o = some op ∧ op.kind.tag = tag := by
  simp only [tagged, List.mem_map, List.mem_filter, mem_liveOps_iff, decide_eq_true_eq]
  constructor
  · rintro ⟨op, ⟨⟨p, hp⟩, ht⟩, rfl⟩
    exact ⟨op, (H.op_id hp).symm ▸ hp, ht⟩
  · rintro ⟨op, ho, ht⟩
    exact ⟨op, ⟨⟨o, ho⟩, ht⟩, H.op_id ho⟩

theorem nodup_tagged (H : d.Coherent) (tag : OpTag) : (d.tagged tag).Nodup := by
  refine ((nodup_liveOps H).filter _).map_on fun q hq q' hq' e => ?_
  obtain ⟨o, ho⟩ := mem_liveOps_iff.mp (List.mem_filter.mp hq).1
  obtain ⟨o', ho'⟩ := mem_liveOps_iff.mp (List.mem_filter.mp hq').1
  obtain rfl : o = o' := (H.op_id ho).symm.trans (e.trans (H.op_id ho'))
  exact Option.some.inj (ho.symm.trans ho')

theorem tagged_addOp : (d.addOp m kind types place).tagged tag =
    d.tagged tag ++ if kind.tag = tag then [d.nextOp] else [] := by
  simp only [tagged, liveOps, addOp, modifyModule, enterOp, List.filterMap_append,
    List.filter_append, List.map_append]
  split <;> simp_all [nextOp]

theorem Leaf.tagged_inst (h : d.Leaf d') : d'.tagged .inst = d.tagged .inst := by
  cases h with
  | none => rfl
  | @op _ _ kind _ _ _ _ nameless =>
    have : kind.tag ≠ .inst := by
      cases kind <;> simp [OpKind.tag, OpKind.name?] at nameless ⊢
    rw [tagged_addOp, if_neg this, List.append_nil]

theorem Filled.tagged_inst (h : d.Filled d') : d'.tagged .inst = d.tagged .inst := by
  induction h with
  | refl => rfl
  | tail _ h ih => exact h.tagged_inst.trans ih

theorem Leaf.op_of_child? (h : d.Leaf d') (ho : d'.op? o = some op)
    (hc : op.kind.child? = some c) : d.op? o = some op := by
  cases h with
  | none => exact ho
  | op _ _ _ nameless =>
    rcases op?_addOp_cases ho with ⟨-, rfl⟩ | ho
    · cases (OpKind.child?_of_nameless nameless).symm.trans hc
    · exact ho

theorem Filled.op_of_child? (h : d.Filled d') (ho : d'.op? o = some op)
    (hc : op.kind.child? = some c) : d.op? o = some op := by
  induction h with
  | refl => exact ho
  | tail _ h ih => exact ih (h.op_of_child? ho hc)

theorem Leaf.live_of_le (h : d.Leaf d') (hlen : d.ops.length ≤ o.index)
    (ho : o.index < d'.ops.length) : ∃ op, d'.op? o = some op := by
  cases h with
  | none => exact absurd ho (Nat.not_lt.mpr hlen)
  | op =>
    rw [length_ops_addOp] at ho
    obtain rfl : o = d.nextOp := by
      cases o
      exact congrArg OpId.mk (Nat.le_antisymm (Nat.le_of_lt_succ ho) hlen)
    exact ⟨_, op?_addOp_self ..⟩

theorem Filled.live_of_le (h : d.Filled d') (hlen : d.ops.length ≤ o.index)
    (ho : o.index < d'.ops.length) : ∃ op, d'.op? o = some op := by
  induction h with
  | refl => exact absurd ho (Nat.not_lt.mpr hlen)
  | @tail d₁ _ _ h ih =>
    by_cases hlt : o.index < d₁.ops.length
    · obtain ⟨op, hop⟩ := ih hlt
      exact ⟨op, h.extension.op hop⟩
    · exact h.live_of_le (Nat.le_of_not_lt hlt) ho

/-- When a member of a list is exchanged for something that counts, one more of the list does. -/
theorem countP_map_exchange {α : Type} [DecidableEq α] {l : List α} {a b : α} {p : α → Bool}
    (nodup : l.Nodup) (ha : a ∈ l) (hp : ¬p a) (hp' : p b) :
    (l.map (exchange a b)).countP p = l.countP p + 1 := by
  have perm := List.perm_cons_erase ha
  rw [(perm.map _).countP_eq, List.map_cons, exchange_self,
    map_exchange_of_not_mem nodup.not_mem_erase, perm.countP_eq, List.countP_cons_of_pos hp',
    List.countP_cons_of_neg hp]

theorem not_mem_tagged_nextOp (H : d.Coherent) : d.nextOp ∉ d.tagged tag := fun h => by
  obtain ⟨op, ho, -⟩ := (mem_tagged H).mp h
  exact ne_nextOp ho rfl

/-- The copy takes the place of the instance. -/
theorem Reissued.tagged (R : d.Reissued o op types d') (H : d.Coherent) (ho : d.op? o = some op)
    (tag : OpTag) : (d'.tagged tag).Perm ((d.tagged tag).map (exchange o d.nextOp)) := by
  have new : d.nextOp ∉ d.tagged tag := not_mem_tagged_nextOp H
  have nodup : ((d.tagged tag).map (exchange o d.nextOp)).Nodup :=
    (nodup_tagged H tag).map_on fun p hp q hq e =>
      exchange_inj (ne_of_mem_of_not_mem hp new) (ne_of_mem_of_not_mem hq new) e
  refine (List.perm_ext_iff_of_nodup (nodup_tagged R.coherent tag) nodup).mpr fun p => ?_
  rw [mem_tagged R.coherent, List.mem_map]
  constructor
  · rintro ⟨q, hq, ht⟩
    rcases R.op_cases hq with ⟨rfl, rfl⟩ | ⟨q₀, hq₀, hp, rfl⟩
    · exact ⟨o, (mem_tagged H).mpr ⟨op, ho, ht⟩, exchange_self ..⟩
    · exact ⟨p, (mem_tagged H).mpr ⟨q₀, hq₀, by simpa [Op.rebind] using ht⟩, exchange_of_ne hp⟩
  · rintro ⟨p, hp, rfl⟩
    obtain ⟨q, hq, ht⟩ := (mem_tagged H).mp hp
    by_cases h : p = o
    · subst h
      obtain rfl := Option.some.inj (ho.symm.trans hq)
      rw [exchange_self]
      exact ⟨_, R.op_copy, ht⟩
    · exact ⟨_, (exchange_of_ne h).symm ▸ R.op_other hq h, by simpa [Op.rebind] using ht⟩

/-! ### Ports -/

/-- The number of ports of all modules. -/
def portCount (d : Design) : Nat := (d.modules.map fun x => x.ports.length).sum

theorem portCount_congr (h : ∀ m, d'.portsOf m = d.portsOf m) : d'.portCount = d.portCount := by
  have := map_modules_eq h
  simpa [portCount, Function.comp_def] using congrArg (fun l => (l.map List.length).sum) this

theorem portCount_enterPorts (hx : d.module? m = some x) (base : Nat) (ports : List PortDecl) :
    (d.enterPorts m base ports).portCount = d.portCount + ports.length := by
  have modify : ∀ (l : List Module) (i : Nat) (x : Module) (g : Module → Module), l[i]? = some x →
      (g x).ports.length = x.ports.length + ports.length →
      ((l.modify i g).map fun x => x.ports.length).sum =
        (l.map fun x => x.ports.length).sum + ports.length := by
    intro l i x g hx hg
    induction l generalizing i with
    | nil => cases hx
    | cons y l ih =>
      cases i with
      | zero =>
        obtain rfl : y = x := Option.some.inj hx
        simp [hg]
        omega
      | succ i =>
        have := ih i hx
        simp only [List.modify_succ_cons, List.map_cons, List.sum_cons, this]
        omega
  exact modify d.modules m.index x _ hx (by simp)

end Design

/-! ### Connections -/

namespace Edit

open Design

variable {d : Design} {m : ModuleId} {kind : OpKind} {tag : OpTag} {types : List SignalType}

/-- A conversion connects nothing. -/
theorem tagged_newConversion {kind : ValueId → OpKind} {v : ValueId} (h : (kind v).tag ≠ tag)
    (convert : SignalType → SignalType) (m : ModuleId) (d : Design) :
    ((newConversion m kind convert v).after d).tagged tag = d.tagged tag := by
  refine after_ask_bind (P := fun d' => d'.tagged tag = d.tagged tag) rfl fun _ _ =>
    after_ask_bind (P := fun d' => d'.tagged tag = d.tagged tag) rfl fun t _ => ?_
  rw [EStateM.after_map, newDefinition_eq]
  refine after_ask_bind (P := fun d' => d'.tagged tag = d.tagged tag) rfl fun _ _ => ?_
  change (d.addOp m (kind v) [convert t] fun o body => body ++ [o]).tagged tag = d.tagged tag
  rw [tagged_addOp, if_neg h, List.append_nil]

theorem connect_cases (m : ModuleId) (dest src : ValueId) (d : Design) :
    (∃ e, connect m dest src d = .error e d) ∨ connect m dest src d =
      .ok d.nextOp (d.addOp m (.connect dest src) [] fun o body => body ++ [o]) := by
  unfold connect
  rcases ask_bind_cases (·.checkVisible m dest) _ d with ⟨e, h⟩ | ⟨_, -, h⟩
  · exact .inl ⟨e, h⟩
  rw [h]
  rcases ask_bind_cases (·.checkVisible m src) _ d with ⟨e, h⟩ | ⟨_, -, h⟩
  · exact .inl ⟨e, h⟩
  rw [h, newOp_eq]
  rcases ask_bind_cases (·.module m) _ d with ⟨e, h⟩ | ⟨_, -, h⟩
  · exact .inl ⟨e, h⟩
  · exact .inr h

/-- Either one connection is entered, or none and the step fails. -/
inductive Connects (x : Edit Unit) (d : Design) : Prop where
  | connected {d' : Design} (o : OpId) (ok : x d = .ok () d')
    (tagged : d'.tagged .connect = d.tagged .connect ++ [o])
  | failed {d' : Design} (e : DesignError) (error : x d = .error e d')
    (tagged : d'.tagged .connect = d.tagged .connect)

theorem Connects.of_eq {x y : Edit Unit} (h : x d = y d) (C : Connects x d) : Connects y d := by
  cases C with
  | connected o ok tagged => exact .connected o (h ▸ ok) tagged
  | failed e error tagged => exact .failed e (h ▸ error) tagged

theorem connects_convert {convert : Edit ValueId} (dest : ValueId)
    (h : (convert.after d).tagged .connect = d.tagged .connect) :
    Connects (convert >>= fun w => connect m dest w >>= fun _ => pure ()) d := by
  rw [EStateM.after] at h
  cases hw : convert d with
  | error e d₁ =>
    rw [hw] at h
    exact .failed e (EStateM.bind_of_error hw) h
  | ok w d₁ =>
    rw [hw] at h
    rcases connect_cases m dest w d₁ with ⟨e, hc⟩ | hc
    · exact .failed e ((EStateM.bind_of_ok hw).trans (EStateM.bind_of_error hc)) h
    · refine .connected d₁.nextOp ((EStateM.bind_of_ok hw).trans (EStateM.bind_of_ok hc)) ?_
      rw [tagged_addOp, ← h]
      rfl

theorem connects_drive (m : ModuleId) (dest src : ValueId) (d : Design) :
    Connects (drive m dest src) d := by
  unfold drive
  rcases ask_bind_cases (·.valueType dest) _ d with ⟨e, h⟩ | ⟨dt, -, h⟩
  · exact .failed e h rfl
  rcases ask_bind_cases (·.valueType src) _ d with ⟨e, h'⟩ | ⟨st, -, h'⟩
  · exact .failed e (h.trans h') rfl
  refine .of_eq (h.trans h').symm ?_
  dsimp only
  split
  · exact connects_convert dest (tagged_newConversion (by simp [OpKind.tag]) _ m d)
  · exact connects_convert dest (tagged_newConversion (by simp [OpKind.tag]) _ m d)
  · exact connects_convert dest rfl

end Edit

namespace Wiring

open Design

variable {d : Design} {h : Hierarchy} {m : ModuleId} {α : Type}

namespace Realize

variable {s s' s'' : Realizing} {c : ModuleChanges} {n : Nat} {e : Endpoint} {x : Realize Unit}
  {ports : List PlannedPort} {site : Site} {sites : List Site} {op : Op} {types : List SignalType}
  {done : List ModuleId}

/-! ### Joining and closing -/

/-- One connection was entered and counted, or one failure was recorded. -/
inductive Settled (s s' : Realizing) : Prop where
  | connected (o : OpId)
    (tagged : s'.design.tagged .connect = s.design.tagged .connect ++ [o])
    (counts : s'.counts = { s.counts with connections := s.counts.connections + 1 })
    (errors : s'.errors = s.errors)
  | failed (e : DesignError) (tagged : s'.design.tagged .connect = s.design.tagged .connect)
    (counts : s'.counts = s.counts) (errors : s'.errors = s.errors ++ [e])

/-- Steps for the members of a list, one after the other, each of which is settled. -/
inductive Settles (step : α → Realize Unit) : List α → Realizing → Realizing → Prop where
  | nil (s : Realizing) : Settles step [] s s
  | cons {a : α} {l : List α} {s s' s'' : Realizing}
    (run : recorded (step a) s = .ok () s') (settled : Settled s s')
    (rest : Settles step l s' s'') : Settles step (a :: l) s s''

theorem settled_drive (m : ModuleId) (dest src : ValueId) (s : Realizing) : ∃ s',
    recorded (edit (Edit.drive m dest src) >>= fun _ => countConnection) s = .ok () s' ∧
      Settled s s' := by
  cases Edit.connects_drive m dest src s.design with
  | connected o ok tagged =>
    have run := (EStateM.bind_of_ok (f := fun _ => countConnection) (edit_of_ok ok)).trans rfl
    exact ⟨_, recorded_of_ok run, .connected o tagged rfl rfl⟩
  | @failed d' e error tagged =>
    have run : edit (Edit.drive m dest src) s = .error e { s with design := d' } := by
      rw [edit, error]
    refine ⟨{ s with design := d', errors := s.errors ++ [e] }, ?_, .failed e tagged rfl rfl⟩
    rw [recorded, EStateM.bind_of_error run]

theorem settled_bind {α : Type} {y : Realize α} {f : α → Realize Unit} (reads : ∀ s, y.after s = s)
    (hf : ∀ a s, ∃ s', recorded (f a) s = .ok () s' ∧ Settled s s') (s : Realizing) :
    ∃ s', recorded (y >>= f) s = .ok () s' ∧ Settled s s' := by
  have hs := reads s
  rw [EStateM.after] at hs
  cases h : y s with
  | ok a s₁ =>
    rw [h] at hs
    obtain rfl : s₁ = s := hs
    obtain ⟨s', run, S⟩ := hf a s₁
    exact ⟨s', by rw [recorded, EStateM.bind_of_ok h]; exact run, S⟩
  | error e s₁ =>
    rw [h] at hs
    obtain rfl : s₁ = s := hs
    refine ⟨{ s₁ with errors := s₁.errors ++ [e] }, ?_, .failed e rfl rfl rfl⟩
    rw [recorded, EStateM.bind_of_error h]

theorem settled_joinPort (m : ModuleId) (c : ModuleChanges) (p : PlannedPort) (port : ValueId)
    (s : Realizing) : ∃ s', recorded (joinPort m c p port) s = .ok () s' ∧ Settled s s' := by
  refine settled_bind (after_endpoint m c p.request) (fun e s => ?_) s
  cases p.port.direction
  · exact settled_drive m e.value port s
  · exact settled_drive m port e.value s

theorem settled_close (m : ModuleId) (c : ModuleChanges) (e : Endpoint) (n : Nat)
    (s : Realizing) : ∃ s', recorded (close m c e n) s = .ok () s' ∧ Settled s s' := by
  refine settled_bind (y := current e) (fun _ => rfl) (fun e s => ?_) s
  refine settled_bind (after_endpoint m c n) (fun first s => ?_) s
  cases e.role
  · exact settled_drive m first.value e.value s
  · exact settled_drive m e.value first.value s

theorem forM_settles {step : α → Realize Unit}
    (settled : ∀ a s, ∃ s', recorded (step a) s = .ok () s' ∧ Settled s s') (l : List α)
    (s : Realizing) :
    ∃ s', (l.forM fun a => recorded (step a)) s = .ok () s' ∧ Settles step l s s' := by
  induction l generalizing s with
  | nil => exact ⟨s, rfl, .nil s⟩
  | cons a l ih =>
    obtain ⟨s₁, run, S⟩ := settled a s
    obtain ⟨s', rest, all⟩ := ih s₁
    exact ⟨s', (EStateM.bind_of_ok run).trans rest, .cons run S all⟩

/-! ### A visit -/

/-- Nothing is connected, and no failure is recorded. -/
structure Idle (s s' : Realizing) : Prop where
  tagged : (s'.design.tagged .connect).Perm (s.design.tagged .connect)
  connections : s'.counts.connections = s.counts.connections
  errors : s'.errors = s.errors

/-- Every new port that a module finds in the plan is settled, with the value that it got, and so is
every closing. Besides, nothing is connected and nothing fails. -/
def Settling (m : ModuleId) (s s' : Realizing) : Prop :=
  ∃ values s₀ s₁ s₂, values.length = (s.plan.changesOf m).ports.length ∧ Idle s s₀ ∧
    Settles (fun r => joinPort m (s.plan.changesOf m) r.1 r.2)
      ((s.plan.changesOf m).ports.zip values) s₀ s₁ ∧
    Settles (fun r => close m (s.plan.changesOf m) r.1 r.2) (s.plan.changesOf m).closings s₁ s₂ ∧
    Idle s₂ s'

theorem Idle.refl (s : Realizing) : Idle s s := ⟨.refl _, rfl, rfl⟩

theorem Idle.trans (I : Idle s s') (I' : Idle s' s'') : Idle s s'' where
  tagged := I'.tagged.trans I.tagged
  connections := I'.connections.trans I.connections
  errors := I'.errors.trans I.errors

theorem Reissuing.idle (R : Reissuing ports site op types s s') (H : s.design.Coherent) :
    Idle s s' where
  tagged := by
    have unconnected : site.op ∉ s.design.tagged .connect := fun h => by
      obtain ⟨q, hq, ht⟩ := (mem_tagged H).mp h
      obtain rfl := Option.some.inj (R.live.symm.trans hq)
      rw [tag_eq_inst_of_child? R.child] at ht
      cases ht
    exact map_exchange_of_not_mem unconnected ▸ R.design.tagged H R.live .connect
  connections := by rw [R.counts]
  errors := R.errors

theorem Replaces.idle (R : Replaces ports sites s s') : Idle s s' := by
  induction R with
  | nil s => exact .refl s
  | cons catching first _ ih =>
    exact (first.idle catching.sound.design.coherent).trans ih

/-- Before its instances are replaced, a module settles its new ports and its closings. -/
theorem settles_of_joined {x : Module} (hx : s.design.module? m = some x)
    (joined : (joinPorts m c >>= fun _ => closeAll m c) s = .ok () s') : ∃ s₁,
      Settles (fun r => joinPort m c r.1 r.2)
        (c.ports.zip (s.design.nextValues (c.ports.map (·.port)))) (grown s m x c.ports) s₁ ∧
      Settles (fun r => close m c r.1 r.2) c.closings s₁ s' := by
  obtain ⟨s₁, h₁, joins⟩ := forM_settles
    (fun r : PlannedPort × ValueId => settled_joinPort m c r.1 r.2)
    (c.ports.zip (s.design.nextValues (c.ports.map (·.port)))) (grown s m x c.ports)
  obtain ⟨s₂, h₂, closes⟩ := forM_settles
    (fun r : Endpoint × Nat => settled_close m c r.1 r.2) c.closings s₁
  rw [EStateM.bind_of_ok ((joinPorts_eq hx c).trans h₁)] at joined
  obtain rfl := (EStateM.Result.ok.inj (h₂.symm.trans joined)).2
  exact ⟨s₁, joins, closes⟩

theorem Visits.settling (V : Visits m s s') : Settling m s s' := by
  cases V with
  | nothing empty =>
    obtain ⟨noports, noclosings, -⟩ := nothing_of_isEmpty empty
    refine ⟨[], s, s, s, by rw [noports]; rfl, .refl s, ?_, ?_, ⟨.refl _, rfl, rfl⟩⟩
    · rw [noports]
      exact .nil s
    · rw [noclosings]
      exact .nil s
  | @work x s₁ _ found filled replaced joined =>
    obtain ⟨s₂, joins, closes⟩ := settles_of_joined (s := withoutChanges s m) found joined
    refine ⟨_, grown (withoutChanges s m) m x (s.plan.changesOf m).ports, s₂, s₁, ?_,
      ⟨.refl _, rfl, rfl⟩, joins, closes, replaced.idle⟩
    rw [length_nextValues, List.length_map]

/-! ### The counts of a run -/

/-- What has been counted is what has been done. -/
structure Tallied (d : Design) (done : List ModuleId) (s : Realizing) : Prop where
  ports : s.design.portCount = d.portCount + s.counts.ports
  connections : (s.design.tagged .connect).length =
    (d.tagged .connect).length + s.counts.connections
  instances : (s.design.tagged .inst).countP (d.ops.length ≤ ·.index) = s.counts.instances
  /-- The instances are the successors of those at the start. -/
  succeed : ∃ f, d.Continues s.design f ∧ (s.design.tagged .inst).Perm ((d.tagged .inst).map f)
  /-- Only instances of the modules that were visited are replaced. -/
  younger : ∀ {o op c}, s.design.op? o = some op → op.kind.child? = some c →
    d.ops.length ≤ o.index → c ∈ done
  /-- What was entered stays. -/
  stay : ∀ {o}, d.ops.length ≤ o.index → o.index < s.design.ops.length →
    ∃ op, s.design.op? o = some op

theorem Tallied.start (H : d.Coherent) (t : PathTable) (p : Plan) :
    Tallied d [] ⟨d, t, p, .empty, {}, []⟩ where
  ports := rfl
  connections := rfl
  instances := by
    refine List.countP_eq_zero.mpr fun o ho => ?_
    obtain ⟨op, hop, -⟩ := (mem_tagged H).mp ho
    simpa using op?_lt hop
  succeed := ⟨id, .refl d, by rw [List.map_id]⟩
  younger ho _ hlen := absurd (op?_lt ho) (Nat.not_lt.mpr hlen)
  stay hlen h := absurd h (Nat.not_lt.mpr hlen)

theorem Settles.connections {step : α → Realize Unit} {l : List α} (S : Settles step l s s') :
    ∃ k, (s'.design.tagged .connect).length = (s.design.tagged .connect).length + k ∧
      s'.counts = { s.counts with connections := s.counts.connections + k } ∧
      s'.errors.length + k = s.errors.length + l.length := by
  induction S with
  | nil s => exact ⟨0, rfl, rfl, rfl⟩
  | cons _ settled _ ih =>
    obtain ⟨k, tagged, counts, errors⟩ := ih
    cases settled with
    | connected o tagged' counts' errors' =>
      refine ⟨k + 1, ?_, ?_, ?_⟩
      · rw [tagged, tagged', List.length_append, List.length_singleton]
        omega
      · rw [counts, counts']
        simp only [Counts.mk.injEq, true_and]
        omega
      · rw [List.length_cons, ← errors', ← Nat.add_assoc, errors]
        rfl
    | failed e tagged' counts' errors' =>
      refine ⟨k, by rw [tagged, tagged'], by rw [counts, counts'], ?_⟩
      rw [errors, errors']
      simp only [List.length_append, List.length_cons, List.length_nil]
      omega

theorem Tallied.begin (T : Tallied d done s) (m : ModuleId) :
    Tallied d done (withoutChanges s m) :=
  { T with }

/-- One more module is visited. -/
theorem Tallied.end (T : Tallied d done s) (m : ModuleId) : Tallied d (done ++ [m]) s :=
  { T with younger := fun ho hc hlen => List.mem_append_left _ (T.younger ho hc hlen) }

theorem Tallied.grown {x : Module} (T : Tallied d done s) (hx : s.design.module? m = some x)
    (ports : List PlannedPort) : Tallied d done (Realize.grown s m x ports) where
  ports := by
    rw [Realize.grown, portCount_enterPorts hx, T.ports, List.length_map, Nat.add_assoc]
  connections := T.connections
  instances := T.instances
  succeed := by
    obtain ⟨f, C, perm⟩ := T.succeed
    exact ⟨_, C.trans (continues_enterPorts ..), perm⟩
  younger := T.younger
  stay := T.stay

theorem Tallied.filled {k : Nat} (T : Tallied d done s)
    (F : s.Filled s') (tagged : (s'.design.tagged .connect).length =
      (s.design.tagged .connect).length + k)
    (counts : s'.counts = { s.counts with connections := s.counts.connections + k }) :
    Tallied d done s' where
  ports := by rw [portCount_congr F.design.portsOf, counts, T.ports]
  connections := by rw [tagged, T.connections, counts, Nat.add_assoc]
  instances := by rw [F.design.tagged_inst, counts, T.instances]
  succeed := by
    obtain ⟨f, C, perm⟩ := T.succeed
    exact ⟨_, C.trans F.design.continues, F.design.tagged_inst ▸ perm⟩
  younger ho hc hlen := T.younger (F.design.op_of_child? ho hc) hc hlen
  stay {o} hlen h := by
    by_cases hs : o.index < s.design.ops.length
    · obtain ⟨op, ho⟩ := T.stay hlen hs
      exact ⟨op, F.design.extension.op ho⟩
    · exact F.design.live_of_le (Nat.le_of_not_lt hs) h

theorem Tallied.reissued (T : Tallied d done s) (H : s.design.Coherent)
    (R : Reissuing ports site op types s s') (old : site.op.index < d.ops.length)
    (hm : site.child ∈ done) : Tallied d done s' where
  ports := by rw [portCount_congr R.design.portsOf, R.counts, T.ports]
  connections := by
    rw [(R.idle H).tagged.length_eq, T.connections, R.counts]
  instances := by
    have mem : site.op ∈ s.design.tagged .inst :=
      (mem_tagged H).mpr ⟨op, R.live, tag_eq_inst_of_child? R.child⟩
    obtain ⟨f, C, -⟩ := T.succeed
    rw [(R.design.tagged H R.live .inst).countP_eq, countP_map_exchange (nodup_tagged H _) mem
      (by simpa using old) (decide_eq_true C.length), T.instances, R.counts]
  succeed := by
    obtain ⟨f, C, perm⟩ := T.succeed
    obtain ⟨ts, htypes, hts⟩ := R.typed
    have C' := R.design.continues R.live R.child (htypes ▸ List.prefix_append ..) hts
    refine ⟨_, C.trans C', (R.design.tagged H R.live .inst).trans ?_⟩
    rw [← List.map_map]
    exact perm.map _
  younger {o q c} ho hc hlen := by
    rcases R.design.op_cases ho with ⟨-, rfl⟩ | ⟨q₀, hq₀, -, rfl⟩
    · exact Option.some.inj (hc.symm.trans R.child) ▸ hm
    · exact T.younger hq₀ (by simpa [Op.rebind] using hc) hlen
  stay {o} hlen h := by
    by_cases ho : o = s.design.nextOp
    · exact ⟨_, ho ▸ R.design.op_copy⟩
    · have hne : o.index ≠ s.design.ops.length := fun e => ho (by cases o; cases e; rfl)
      rw [R.design.length] at h
      obtain ⟨q, hq⟩ := T.stay hlen (by omega)
      exact ⟨_, R.design.op_other hq fun e => Nat.not_lt.mpr hlen (e ▸ old)⟩

theorem Tallied.replaced (T : Tallied d done s) (R : Replaces ports sites s s')
    (hs : ∀ site ∈ sites, site.op.index < d.ops.length ∧ site.child ∈ done) :
    Tallied d done s' := by
  induction R with
  | nil => exact T
  | cons catching first _ ih =>
    obtain ⟨⟨old, hm⟩, hs⟩ := List.forall_mem_cons.mp hs
    exact ih (T.reissued catching.sound.design.coherent first old hm) hs

/-- The instances of a module that was not visited were there at the start. -/
theorem Tallied.old {lag : OpId → Nat} (T : Tallied d done s) (S : s.Sound lag) (hm : m ∉ done)
    (hs : site ∈ replacedSites s m ports) : site.op.index < d.ops.length ∧ site.child = m := by
  have used : site ∈ s.table.hierarchy.uses m := by
    unfold replacedSites at hs
    split at hs
    · cases hs
    · exact hs
  obtain ⟨hsite, hc⟩ := Hierarchy.mem_uses_iff.mp used
  rw [S.hierarchy, sites_hierarchy] at hsite
  obtain ⟨op, ho, -, child⟩ := (mem_sites_iff S.design.coherent).mp hsite
  exact ⟨Nat.lt_of_not_le fun hlen => hm (hc ▸ T.younger ho child hlen), hc⟩

theorem Tallied.visit {h : Hierarchy} (T : Tallied d done s) (S : Steady h s) (hm : m ∉ done)
    (V : Visits m s s') : Tallied d (done ++ [m]) s' := by
  cases V with
  | nothing => exact (T.begin m).end m
  | @work x s₁ _ found filled replaced joined =>
    have hx : (withoutChanges s m).design.module? m = some x := found
    have begun : Steady h (withoutChanges s m) := S.congr rfl rfl
    have S₁ := filled.sound (sound_grown begun.sound hx _)
    obtain ⟨s₂, joins, closes⟩ := settles_of_joined hx joined
    obtain ⟨j, tagged, counts, -⟩ := joins.connections
    obtain ⟨k, tagged', counts', -⟩ := closes.connections
    have T₁ := ((T.begin m).grown hx (s.plan.changesOf m).ports).filled (k := j + k) filled
      (by rw [tagged', tagged, Nat.add_assoc]) (by rw [counts', counts, Nat.add_assoc])
    refine (T₁.end m).replaced replaced fun site hs => ?_
    obtain ⟨old, rfl⟩ := T₁.old S₁ hm hs
    exact ⟨old, List.mem_append_right _ List.mem_cons_self⟩

end Realize

/-- As many instances were removed as are new, and this is the number that was counted. -/
theorem Realize.Tallied.removed {done : List ModuleId} {s : Realizing} (T : Tallied d done s)
    (H : d.Coherent) :
    (d.tagged .inst).countP (fun o => s.design.op? o = none) = s.counts.instances := by
  obtain ⟨f, C, perm⟩ := T.succeed
  rw [← T.instances, perm.countP_eq, List.countP_map]
  refine List.countP_congr fun o ho => ?_
  obtain ⟨op, hop, -⟩ := (mem_tagged H).mp ho
  simp only [Function.comp_apply, decide_eq_true_eq]
  by_cases hf : f o = o
  · obtain ⟨op', hop', -⟩ := C.op hop
    rw [hf] at hop' ⊢
    simpa [hop'] using op?_lt hop
  · obtain ⟨gone, -, later⟩ := C.replaced hop hf
    simp [gone, later]

theorem realize_tallied {t : PathTable} (S : d.Sound fun _ => 0) (ht : t.hierarchy = d.hierarchy)
    (T : t.Right) (p : Plan) : Realize.Tallied d d.hierarchy.childrenFirst (realize d t p) := by
  obtain ⟨rank, R⟩ := T.ranked
  have C := closed_hierarchy S.coherent (Fits.childrenKnown S.fits)
  refine realize_keeps S ht T p (.start S.coherent t p) fun hdone T V tallied => ?_
  exact tallied.visit T (Hierarchy.childrenFirst_split C (ht ▸ R) hdone).1 V

/-- In every visit all new ports and closings are settled. -/
theorem realize_settling {t : PathTable} (S : d.Sound fun _ => 0) (ht : t.hierarchy = d.hierarchy)
    (T : t.Right) (p : Plan) :
    ∀ done m rest, done ++ m :: rest = d.hierarchy.childrenFirst → ∃ before after,
      done.forM Realize.visit ⟨d, t, p, .empty, {}, []⟩ = .ok () before ∧
      Realize.visit m before = .ok () after ∧ Realize.Settling m before after := by
  have all := realize_runs (Q := fun visited _ => ∀ done m rest, done ++ m :: rest = visited →
    ∃ before after, done.forM Realize.visit ⟨d, t, p, .empty, {}, []⟩ = .ok () before ∧
      Realize.visit m before = .ok () after ∧ Realize.Settling m before after) S ht T p
    (by simp) fun {visited k _ s s'} _ _ run visit V ih done m rest split => by
      rcases List.eq_nil_or_concat rest with rfl | ⟨rest, last, rfl⟩
      · obtain ⟨rfl, hm⟩ := List.append_inj' split rfl
        obtain rfl := (List.cons.inj hm).1
        exact ⟨s, s', run, visit, V.settling⟩
      · refine ih done m rest ?_
        rw [List.concat_eq_append, ← List.cons_append, ← List.append_assoc] at split
        exact (List.append_inj' split rfl).1
  exact all

/-- What is counted while any plan is carried out is what is done. The counted ports are those by
which all modules together have grown, and the counted connections those by which there are more.
The counted instances are those that were removed, and as many are new, and none of these was
removed again. Each new port and each closing that is in the plan when its module is visited is
settled: it leads to one connection or to one failure. Nothing else connects or fails. -/
theorem tally_exact (H : d.Built) (hd : d.check = .ok ()) (hh : Hierarchy.ofDesign d = .ok h)
    (ms : List ModuleId) (plan : Plan) :
    ∃ s, realize d ((PathTable.ofHierarchy h).asked ms) plan = s ∧
      s.design.portCount = d.portCount + s.counts.ports ∧
      (s.design.tagged .connect).length = (d.tagged .connect).length + s.counts.connections ∧
      (d.tagged .inst).countP (fun o => s.design.op? o = none) = s.counts.instances ∧
      (s.design.tagged .inst).countP (d.ops.length ≤ ·.index) = s.counts.instances ∧
      (s.design.tagged .inst).length = (d.tagged .inst).length ∧
      (∀ o : OpId, d.ops.length ≤ o.index → o.index < s.design.ops.length →
        ∃ op, s.design.op? o = some op) ∧
      ∀ done m rest, done ++ m :: rest = h.childrenFirst → ∃ before after,
        done.forM Realize.visit ⟨d, (PathTable.ofHierarchy h).asked ms, plan, .empty, {}, []⟩ =
          .ok () before ∧
        Realize.visit m before = .ok () after ∧ Realize.Settling m before after := by
  have C := H.coherent
  obtain ⟨hv, hf⟩ := (check_eq_ok_iff C).mp hd
  have S : d.Sound fun _ => 0 := ⟨C, hv, hf⟩
  obtain ⟨ht, T⟩ := table_of_design C hh ms
  obtain ⟨-, -, rfl⟩ := (Hierarchy.ofDesign_eq_ok_iff C).mp hh
  have tallied := realize_tallied S ht T plan
  obtain ⟨f, -, perm⟩ := tallied.succeed
  exact ⟨_, rfl, tallied.ports, tallied.connections, tallied.removed C, tallied.instances,
    by rw [perm.length_eq, List.length_map], fun _ => tallied.stay, realize_settling S ht T plan⟩

/-- All three instances are replaced, for three ports. Three steps connect, and three fail. -/
theorem tally_exact_unfitPlan : sideInstances.Built ∧ sideInstances.check = .ok () ∧
    Hierarchy.ofDesign sideInstances = .ok sideInstances.hierarchy ∧
    ∃ s, realize sideInstances ((PathTable.ofHierarchy sideInstances.hierarchy).asked [⟨1⟩])
        unfitPlan = s ∧
      s.counts = ⟨3, 3, 3⟩ ∧ s.errors.length = 3 ∧
      s.design.portCount = sideInstances.portCount + 3 ∧
      (s.design.tagged .connect).length = (sideInstances.tagged .connect).length + 3 ∧
      (sideInstances.tagged .inst).countP (fun o => s.design.op? o = none) = 3 ∧
      (s.design.tagged .inst).countP (sideInstances.ops.length ≤ ·.index) = 3 ∧
      (s.design.tagged .inst).length = (sideInstances.tagged .inst).length := by
  obtain ⟨H, hd, hh⟩ := sideInstances_sound
  obtain ⟨s, hs, ports, connections, removed, entered, live, -, -⟩ :=
    tally_exact H hd hh [⟨1⟩] unfitPlan
  have counts : s.counts = ⟨3, 3, 3⟩ := hs ▸ by decide +kernel
  rw [counts] at ports connections removed entered
  exact ⟨H, hd, hh, s, hs, counts, hs ▸ by decide +kernel, ports, connections, removed, entered,
    live⟩

end Wiring

end AnnotatedCircuit
