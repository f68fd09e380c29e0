import AnnotatedCircuit.Proofs.Design.History
import AnnotatedCircuit.Proofs.Design.Reissue
import AnnotatedCircuit.Proofs.Note.Moving

/-!
# A copy in the place of an instance

An instance is exchanged for a copy with results for further ports by a sequence of edits
(`Edit.reissue`). In a design that passes its check the results of an instance are used in its own
module only, so what this sequence does is one substitution (`Design.Substituted`), and the numbers
of redirected uses that it answers count all of them (`Edit.reissue_exact`).
-/

namespace AnnotatedCircuit

namespace Design

variable {d : Design} {m : ModuleId} {x : Module} {o : OpId} {op : Op} {v w : ValueId}
  {kind : OpKind} {types : List SignalType} {body : List OpId} {lag : OpId → Nat}

/-! ### Uses of values -/

/-- The values that operations use, as often as they use them. -/
def used (d : Design) : List ValueId := d.liveOps.flatMap (·.kind.operands)

/-- The values that the operations of a body use, as often as they use them. -/
def usedIn (d : Design) (m : ModuleId) : List ValueId := (d.opsIn m).flatMap (·.kind.operands)

theorem opsIn_eq (hx : d.module? m = some x) : d.opsIn m = x.body.filterMap d.op? := by
  rw [opsIn, hx]
  rfl

theorem mem_liveOps_iff : op ∈ d.liveOps ↔ ∃ o, d.op? o = some op := by
  refine ⟨fun h => ?_, fun ⟨_, ho⟩ => mem_liveOps ho⟩
  obtain ⟨_, hmem, rfl⟩ := List.mem_filterMap.mp h
  obtain ⟨i, hi⟩ := List.mem_iff_getElem?.mp hmem
  exact ⟨⟨i⟩, by rw [op?, hi]; rfl⟩

theorem nodup_liveOps (H : d.Coherent) : d.liveOps.Nodup := by
  rw [liveOps, List.Nodup, List.pairwise_filterMap, List.pairwise_iff_getElem]
  intro i j hi hj hij q hq q' hq' e
  have live : ∀ {k q}, (hk : k < d.ops.length) → id d.ops[k] = some q → q.id = ⟨k⟩ := fun hk hq =>
    H.op_id (by rw [op?, List.getElem?_eq_getElem hk]; exact congrArg (Option.join ∘ some) hq)
  have := (live hi hq).symm.trans (e ▸ live hj hq')
  exact Nat.ne_of_lt hij (OpId.mk.inj this)

/-- The operations of a body are the live ones that it is the parent of. -/
theorem perm_opsIn (H : d.Coherent) (hx : d.module? m = some x) :
    (d.liveOps.filter (·.parent = m)).Perm (d.opsIn m) := by
  have different : (d.opsIn m).Nodup := by
    rw [opsIn_eq hx]
    refine (H.nodup_body hx).filterMap fun o o' op ho ho' => ?_
    rw [← H.op_id ho, H.op_id ho']
  refine (List.perm_ext_iff_of_nodup ((nodup_liveOps H).filter _) different).mpr fun q => ?_
  simp only [opsIn_eq hx, List.mem_filter, List.mem_filterMap, mem_liveOps_iff, decide_eq_true_eq]
  constructor
  · rintro ⟨⟨o, ho⟩, hp⟩
    exact ⟨o, (H.mem_body hx).mpr ⟨q, ho, hp⟩, ho⟩
  · rintro ⟨o, hmem, ho⟩
    obtain ⟨q', ho', hp⟩ := (H.mem_body hx).mp hmem
    obtain rfl := Option.some.inj (ho.symm.trans ho')
    exact ⟨⟨o, ho⟩, hp⟩

theorem count_flatMap_filter {f : Op → List ValueId} {keeps : Op → Bool} {l : List Op}
    (none : ∀ q ∈ l, v ∈ f q → keeps q) :
    ((l.filter keeps).flatMap f).count v = (l.flatMap f).count v := by
  induction l with
  | nil => rfl
  | cons q l ih =>
    obtain ⟨hq, none⟩ := List.forall_mem_cons.mp none
    rw [List.flatMap_cons, List.count_append, ← ih none]
    cases hk : keeps q with
    | true => rw [List.filter_cons_of_pos hk, List.flatMap_cons, List.count_append]
    | false =>
      have unused : v ∉ f q := fun hv => Bool.false_ne_true (hk ▸ hq hv)
      rw [List.filter_cons_of_neg (by simp [hk]), List.count_eq_zero_of_not_mem unused,
        Nat.zero_add]

/-- A value is used in its own module only. -/
theorem count_used (S : d.Sound lag) (hv : d.valueModule v = .ok m) :
    d.used.count v = (d.usedIn m).count v := by
  obtain ⟨x, hx⟩ := valueModule_module S.coherent hv
  rw [used, usedIn, ← ((perm_opsIn S.coherent hx).flatMap_right _).count_eq]
  refine (count_flatMap_filter fun q hq hmem => ?_).symm
  obtain ⟨o, ho⟩ := mem_liveOps_iff.mp hq
  exact decide_eq_true (Except.ok.inj ((S.visible ho hmem).symm.trans hv))

/-- The uses of different values together. -/
theorem sum_map_count {vs : List ValueId} (nodup : vs.Nodup) (l : List ValueId) :
    (vs.map fun v => l.count v).sum = l.countP (· ∈ vs) := by
  induction vs with
  | nil => simp
  | cons v vs ih =>
    obtain ⟨hv, nodup⟩ := List.nodup_cons.mp nodup
    rw [List.map_cons, List.sum_cons, ih nodup]
    clear ih
    induction l with
    | nil => rfl
    | cons w l ih =>
      rw [List.count_cons, List.countP_cons, List.countP_cons, ← ih]
      by_cases hw : w = v
      · simp [hw, hv]
        omega
      · simp [hw]
        omega

/-! ### Redirected uses -/

theorem redirect_fst (nodup : body.Nodup) (d : Design) (v w : ValueId) :
    (redirect v w body d.ops).1 = ((body.filterMap d.op?).flatMap (·.kind.operands)).count v := by
  rw [← Nat.zero_add (List.count ..), show d.op? = fun o => d.ops[o.index]?.join from rfl]
  unfold redirect
  generalize d.ops = ops, 0 = n
  induction body generalizing n ops with
  | nil => rfl
  | cons o body ih =>
    obtain ⟨ho, nodup⟩ := List.nodup_cons.mp nodup
    rw [List.foldl_cons]
    cases h : ops[o.index]?.join with
    | none => simp only [ih nodup, List.filterMap_cons, h]
    | some op =>
      simp only [ih nodup, List.filterMap_cons, h, List.flatMap_cons, List.count_append,
        Nat.add_assoc]
      -- the operations behind are still as they were
      congr 4
      refine List.filterMap_congr fun p hp => ?_
      have hne : o.index ≠ p.index := fun e => ho (by cases o; cases p; simp_all)
      rw [List.getElem?_set_ne hne]

theorem usedIn_redirected (nodup : x.body.Nodup) (hx : d.module? m = some x) (v w : ValueId) :
    (d.redirected v w x.body).usedIn m = (d.usedIn m).map (exchange v w) := by
  have hx' : (d.redirected v w x.body).module? m = some x := hx
  have renamed : x.body.filterMap (d.redirected v w x.body).op? =
      (x.body.filterMap d.op?).map (Op.rebind (exchange v w)) := by
    rw [List.map_filterMap]
    refine List.filterMap_congr fun o ho => ?_
    rw [op?_redirected nodup, if_pos ho]
  rw [usedIn, usedIn, opsIn_eq hx', opsIn_eq hx, renamed, List.flatMap_map, List.map_flatMap]
  refine List.flatMap_congr fun op _ => ?_
  simp [Op.rebind]

theorem count_map_exchange {a b u : ValueId} (ha : u ≠ a) (hb : u ≠ b) (l : List ValueId) :
    (l.map (exchange a b)).count u = l.count u := by
  induction l with
  | nil => rfl
  | cons y l ih =>
    rw [List.map_cons, List.count_cons, List.count_cons, ih]
    by_cases hy : y = a
    · subst hy
      simp [Ne.symm ha, Ne.symm hb]
    · rw [exchange_of_ne hy]

/-- A copy of an instance uses nothing. -/
theorem count_usedIn_addOp (H : d.Coherent) (hx : d.module? m = some x)
    (unused : kind.operands = []) (v : ValueId) :
    ((d.addOp m kind types (insertBehind o)).usedIn m).count v = (d.usedIn m).count v := by
  have old : x.body.filterMap (d.addOp m kind types (insertBehind o)).op? =
      x.body.filterMap d.op? := by
    refine List.filterMap_congr fun p hp => ?_
    obtain ⟨q, hq, -⟩ := (H.mem_body hx).mp hp
    rw [op?_addOp_of_some hq, hq]
  rw [usedIn, usedIn, opsIn_eq (module?_addOp_self hx), opsIn_eq hx]
  rw [(((insertBehind_perm o d.nextOp x.body).filterMap _).flatMap_right _).count_eq]
  rw [List.filterMap_cons_some (op?_addOp_self ..), List.flatMap_cons, unused, List.nil_append, old]

end Design

namespace Edit

open Design

variable {d : Design} {m c : ModuleId} {x : Module} {o : OpId} {op : Op} {v w : ValueId}
  {lag : OpId → Nat}

theorem redirectUses_eq (H : d.Coherent) (hv : d.valueModule v = .ok m)
    (hx : d.module? m = some x) (w : ValueId) :
    redirectUses v w d = .ok ((d.usedIn m).count v) (d.redirected v w x.body) := by
  have run : redirectUses v w d = .ok (redirect v w x.body d.ops).1 (d.redirected v w x.body) :=
    (EStateM.bind_of_ok (ask_of_ok hv)).trans
      (EStateM.bind_of_ok (ask_of_ok (module_eq_ok_iff.mpr hx)))
  rw [run, redirect_fst (H.nodup_body hx), usedIn, opsIn_eq hx]

/-- The uses of different values are redirected one after the other. None of them becomes a use of
another one. -/
theorem redirectAll_eq (H : d.Coherent) (hx : d.module? m = some x)
    {pairs : List (ValueId × ValueId)} (hv : ∀ r ∈ pairs, d.valueModule r.1 = .ok m)
    (nodup : (pairs.map Prod.fst).Nodup) (fresh : ∀ r ∈ pairs, r.2 ∉ pairs.map Prod.fst) :
    (pairs.mapM fun r => redirectUses r.1 r.2) d =
      .ok (pairs.map fun r => (d.usedIn m).count r.1) (d.redirectedAll pairs x.body) := by
  induction pairs generalizing d with
  | nil => rfl
  | cons r pairs ih =>
    have body := H.nodup_body hx
    obtain ⟨hr, hv⟩ := List.forall_mem_cons.mp hv
    obtain ⟨distinct, nodup⟩ := List.nodup_cons.mp nodup
    have later := ih (H.redirected body r.1 r.2) hx
      (fun q hq => valueModule_redirected body r.1 r.2 (hv q hq)) nodup fun q hq hm =>
        fresh q (List.mem_cons_of_mem _ hq) (List.mem_cons_of_mem _ hm)
    have same : (pairs.map fun q => ((d.redirected r.1 r.2 x.body).usedIn m).count q.1) =
        pairs.map fun q => (d.usedIn m).count q.1 := by
      refine List.map_congr_left fun q hq => ?_
      have hq : q.1 ∈ pairs.map Prod.fst := List.mem_map_of_mem hq
      have first : q.1 ≠ r.1 := fun e => distinct (e ▸ hq)
      have second : q.1 ≠ r.2 := fun e =>
        fresh r List.mem_cons_self (List.mem_cons_of_mem _ (e ▸ hq))
      rw [usedIn_redirected body hx, count_map_exchange first second]
    rw [same] at later
    rw [List.mapM_cons]
    exact (EStateM.bind_of_ok (redirectUses_eq H hr hx r.2)).trans
      ((EStateM.bind_of_ok later).trans rfl)

/-- Exchange an instance for a copy that has results for further ports: enter the copy, redirect the
uses of every result to the result of the copy at the same place, move the notes, and remove the
instance. The answer is the copy and how many uses of each result there were. -/
def reissue (o : OpId) (ports : List PortDecl) : Edit (OpId × List Nat) := do
  let old ← ask (·.op o)
  let copy ← cloneInstance o ports
  let new ← ask (·.op copy)
  let counts ← (old.results.zip new.results).mapM fun r => redirectUses r.1 r.2
  modify fun d => { d with attachments := d.attachments.moveOp o copy }
  let _ ← removeOp o
  return (copy, counts)

theorem reissue_eq (S : d.Sound lag) (ho : d.op? o = some op) (hc : op.kind.child? = some c)
    (hx : d.module? op.parent = some x) (ports : List PortDecl) :
    ∃ types, types.length = op.results.length + ports.length ∧
      reissue o ports d = .ok (d.nextOp, op.results.map (d.usedIn op.parent).count)
        (d.reissued o op x types (d.attachments.moveOp o d.nextOp)) := by
  have H := S.coherent
  obtain ⟨ts, hts, clone⟩ := cloneInstance_ok H ho hc ports
  generalize htypes : ts ++ ports.map (·.type) = types at clone
  have hlen : types.length = op.results.length + ports.length := by
    rw [← htypes, List.length_append, List.length_map, hts.length_eq]
  have le : op.results.length ≤ types.length := hlen ▸ Nat.le_add_right ..
  have H' : (d.addOp op.parent op.kind types (insertBehind o)).Coherent :=
    H.addOp hx (insertBehind_perm ..)
  have firsts := map_fst_resultPairs (d := d) le
  have new : ∀ r ∈ d.resultPairs op types, r.2 ∉ (d.resultPairs op types).map Prod.fst :=
    fun r hr => firsts ▸ not_mem_results_of_next H ho (List.of_mem_zip hr).2
  have counts : (d.resultPairs op types).map (fun r =>
      ((d.addOp op.parent op.kind types (insertBehind o)).usedIn op.parent).count r.1) =
        op.results.map (d.usedIn op.parent).count := by
    rw [← firsts, List.map_map]
    exact List.map_congr_left fun r _ => count_usedIn_addOp H hx (operands_of_child? hc) r.1
  have redirects : ((d.resultPairs op types).mapM fun r => redirectUses r.1 r.2)
      (d.addOp op.parent op.kind types (insertBehind o)) =
        .ok (op.results.map (d.usedIn op.parent).count) (d.copied o op x types) := by
    rw [← counts]
    refine redirectAll_eq H' (module?_addOp_self hx) (fun r hr => ?_)
      (firsts ▸ H.nodup_results ho) new
    exact valueModule_result H' (op?_addOp_of_some ho) (List.of_mem_zip hr).1
  obtain ⟨op', removal⟩ := removeOp_copied_ok S ho hx hc le
    ((d.copied o op x types).attachments.moveOp o d.nextOp)
  have copy := op?_addOp_self d op.parent op.kind types (insertBehind o)
  refine ⟨types, hlen, ?_⟩
  rw [← attachments_copied d o op x types]
  refine (EStateM.bind_of_ok (ask_of_ok (op_eq_ok_iff.mpr ho))).trans ?_
  refine (EStateM.bind_of_ok clone).trans ?_
  refine (EStateM.bind_of_ok (ask_of_ok (op_eq_ok_iff.mpr copy))).trans ?_
  refine (EStateM.bind_of_ok redirects).trans ?_
  refine (EStateM.bind_of_ok rfl).trans ?_
  exact (EStateM.bind_of_ok removal).trans rfl

end Edit

namespace Design

variable {d d' : Design} {o : OpId} {op : Op} {c : ModuleId} {types : List SignalType}
  {lag : OpId → Nat}

/-- The values of one list stand for those of another one, and every other value for itself. -/
structure Renames (old new : List ValueId) (f : ValueId → ValueId) : Prop where
  result : ∀ (i : Nat) (v w : ValueId), old[i]? = some v → new[i]? = some w → f v = w
  other : ∀ v, v ∉ old → f v = v

/-- The design with a copy in the place of an instance. -/
structure Substituted (d : Design) (o : OpId) (op copy : Op) (f : ValueId → ValueId)
    (d' : Design) : Prop where
  /-- Neither the copy nor its results are part of the design before. -/
  fresh : d.op? copy.id = none ∧ ∀ v ∈ copy.results, d.value? v = none
  /-- Every result of the instance is renamed to the result of the copy at the same place. -/
  renames : Renames op.results copy.results f
  copied : d'.op? copy.id = some copy
  removed : d'.op? o = none
  /-- The operands of all other operations are renamed, and nothing else of them changes. -/
  others : ∀ p, p ≠ o → p ≠ copy.id → d'.op? p = (d.op? p).map (Op.rebind f)
  /-- The results of the instance are used no more. -/
  unused : ∀ p q v, d'.op? p = some q → v ∈ q.kind.operands → v ∉ op.results
  /-- The copy stands at the place of the instance, the other operations where they were. -/
  body : ∃ x pre post, d.module? op.parent = some x ∧ x.body = pre ++ o :: post ∧
    d'.module? op.parent = some { x with body := pre ++ copy.id :: post }
  /-- The other modules and their operations are what they were. -/
  elsewhere : ∀ m, m ≠ op.parent → d'.module? m = d.module? m ∧ d'.opsIn m = d.opsIn m
  values : ∀ v a, d.value? v = some a → d'.value? v = some a
  rest : d'.top = d.top ∧ d'.name = d.name ∧ d'.anchors = d.anchors
  notes : d'.attachments = d.attachments.moveOp o copy.id

/-- The results of the instance are used no more. -/
theorem Reissued.not_mem_results (R : d.Reissued o op types d') (H : d.Coherent)
    (ho : d.op? o = some op) (hc : op.kind.child? = some c)
    (hlen : op.results.length ≤ types.length) {p : OpId} {q : Op} {v : ValueId}
    (hq : d'.op? p = some q) (hv : v ∈ q.kind.operands) : v ∉ op.results := by
  intro hr
  rcases R.op_cases hq with ⟨-, rfl⟩ | ⟨q₀, -, -, rfl⟩
  · simp [operands_of_child? hc] at hv
  · obtain ⟨w, -, rfl⟩ : ∃ w ∈ q₀.kind.operands, d.resultRenaming op types w = v := by
      simpa [Op.rebind] using hv
    by_cases hw : w ∈ op.results
    · obtain ⟨i, hi⟩ := List.mem_iff_getElem?.mp hw
      have lt := Nat.lt_of_lt_of_le (List.getElem?_eq_some_iff.mp hi).1 hlen
      rw [resultRenaming_result H ho hlen hi] at hr
      exact not_mem_results_of_next H ho
        (List.mem_of_getElem? (getElem?_nextValues.mpr ⟨lt, rfl⟩)) hr
    · rw [resultRenaming_of_not_mem hlen hw] at hr
      exact hw hr

/-- The other modules and their operations are what they were. -/
theorem Reissued.elsewhere (R : d.Reissued o op types d') (S : d.Sound lag)
    (ho : d.op? o = some op) (hlen : op.results.length ≤ types.length) {m : ModuleId}
    (hm : m ≠ op.parent) : d'.module? m = d.module? m ∧ d'.opsIn m = d.opsIn m := by
  have H := S.coherent
  cases hy : d.module? m with
  | none =>
    have hy' : d'.module? m = none := by rw [R.module, hy]; rfl
    exact ⟨hy', by rw [opsIn, opsIn, hy, hy']; rfl⟩
  | some y =>
    have away : o ∉ y.body := by
      intro h
      obtain ⟨q, hq, rfl⟩ := (H.mem_body hy).mp h
      obtain rfl := Option.some.inj (ho.symm.trans hq)
      exact hm rfl
    have hy' : d'.module? m = some y := by
      rw [R.module_some hy, map_exchange_of_not_mem away]
    refine ⟨hy', ?_⟩
    rw [opsIn_eq hy, opsIn_eq hy']
    refine List.filterMap_congr fun p hp => ?_
    obtain ⟨q, hq, hparent⟩ := (H.mem_body hy).mp hp
    rw [R.op_other hq fun e => away (e ▸ hp), hq,
      rebind_resultRenaming_of_ne S ho hlen hq (hparent ▸ hm)]

theorem Reissued.substituted (R : d.Reissued o op types d') (S : d.Sound lag)
    (ho : d.op? o = some op) (hc : op.kind.child? = some c)
    (hlen : op.results.length ≤ types.length)
    (notes : d'.attachments = d.attachments.moveOp o d.nextOp) :
    d.Substituted o op ⟨d.nextOp, op.parent, op.kind, d.nextValues types⟩
      (d.resultRenaming op types) d' := by
  have H := S.coherent
  have new : ∀ v ∈ d.nextValues types, d.value? v = none := fun v hv => by
    cases h : d.value? v with
    | none => rfl
    | some a => exact absurd hv (nextValues_fresh h types)
  refine
    { fresh := ⟨op?_nextOp, new⟩, renames := ⟨fun i v w hv hw => ?_, fun v => ?_⟩,
      copied := R.op_copy, removed := ?_, others := fun p hp hn => ?_,
      unused := fun p q v => R.not_mem_results H ho hc hlen, body := ?_,
      elsewhere := fun m => R.elsewhere S ho hlen,
      values := fun v a h => (R.value v a).mpr (.inl h), rest := ⟨R.top, R.name, R.anchors⟩,
      notes }
  · rw [resultRenaming_result H ho hlen hv]
    exact (getElem?_nextValues.mp hw).2.symm
  · exact resultRenaming_of_not_mem hlen
  · rw [R.op, if_neg (ne_nextOp ho), if_pos rfl]
  · rw [R.op, if_neg hn, if_neg hp]
  · obtain ⟨x, hx⟩ := H.parent_module ho
    obtain ⟨pre, post, split⟩ := List.append_of_mem ((H.mem_body hx).mpr ⟨op, ho, rfl⟩)
    refine ⟨x, pre, post, hx, split, ?_⟩
    obtain ⟨-, nodup, disjoint⟩ := List.nodup_append.mp (split ▸ H.nodup_body hx)
    rw [R.module_some hx, split, List.map_append, List.map_cons, exchange_self,
      map_exchange_of_not_mem fun h => disjoint o h o List.mem_cons_self rfl,
      map_exchange_of_not_mem (List.nodup_cons.mp nodup).1]

end Design

namespace Edit

open Design

variable {d : Design} {o : OpId} {op : Op} {name : String} {c : ModuleId}

/-- In a built design that passes its check, any instance can be exchanged for a copy with results
for any further ports. What is left is the design with the copy in the place of the instance, and
the numbers answered are those of all uses of the results. -/
theorem reissue_exact (H : d.Built) (hd : d.check = .ok ()) (ho : d.op? o = some op)
    (hk : op.kind = .inst name c) (ports : List PortDecl) :
    ∃ copy counts f d', reissue o ports d = .ok (copy.id, counts) d' ∧
      copy.parent = op.parent ∧ copy.kind = .inst name c ∧
      copy.results.length = op.results.length + ports.length ∧
      d.Substituted o op copy f d' ∧
      counts = op.results.map d.used.count ∧ counts.sum = d.used.countP (· ∈ op.results) := by
  have C := H.coherent
  obtain ⟨visible, fits⟩ := (check_eq_ok_iff C).mp hd
  have S : d.Sound fun _ => 0 := ⟨C, visible, fits⟩
  have hc : op.kind.child? = some c := by rw [hk]; rfl
  obtain ⟨x, hx⟩ := C.parent_module ho
  obtain ⟨types, hlen, run⟩ := reissue_eq S ho hc hx ports
  have le : op.results.length ≤ types.length := hlen ▸ Nat.le_add_right ..
  have R := reissued_spec S ho hx hc le (d.attachments.moveOp o d.nextOp)
  have notes : (d.reissued o op x types (d.attachments.moveOp o d.nextOp)).attachments =
      d.attachments.moveOp o d.nextOp := Attachments.forgetOp_moveOp (ne_nextOp ho) _
  have counts : op.results.map (d.usedIn op.parent).count = op.results.map d.used.count :=
    List.map_congr_left fun v hv => (count_used S (valueModule_result C ho hv)).symm
  refine ⟨⟨d.nextOp, op.parent, op.kind, d.nextValues types⟩, _, _, _, run, rfl, hk, ?_,
    R.substituted S ho hc le notes, counts, ?_⟩
  · rw [length_nextValues, hlen]
  · rw [counts]
    exact sum_map_count (C.nodup_results ho) _

/-- The second result of an instance is used by three operations, twice by one of them. There are
notes on the instance and on its first port. -/
def oftenUsed : Design := (Design.new "Top").edited
  [.newModule "A" .defined, .newPort ⟨1⟩ ⟨"x", .uint (some 8), .input⟩,
    .newPort ⟨1⟩ ⟨"y", .uint (some 8), .output⟩, .newWire ⟨0⟩ "w" (.uint (some 8)),
    .instantiate ⟨0⟩ "a" ⟨1⟩, .connect ⟨0⟩ ⟨3⟩ ⟨4⟩, .connect ⟨0⟩ ⟨4⟩ ⟨4⟩, .newNode ⟨0⟩ "n" ⟨4⟩,
    .newWire ⟨1⟩ "w" .clock,
    .setNotes [] ⟨.ofList [(.op ⟨1⟩, [.ofClass "first"]),
      (.port (.inst ⟨1⟩) 0, [.ofClass "second"])]⟩]

theorem reissue_exact_oftenUsed : oftenUsed.Built ∧ oftenUsed.check = .ok () ∧
    ∃ copy counts f d', reissue ⟨1⟩ [⟨"z", .clock, .input⟩] oftenUsed = .ok (copy.id, counts) d' ∧
      copy.results.length = 3 ∧
      oftenUsed.Substituted ⟨1⟩ ⟨⟨1⟩, ⟨0⟩, .inst "a" ⟨1⟩, [⟨3⟩, ⟨4⟩]⟩ copy f d' ∧
      counts = [1, 4] := by
  have H : oftenUsed.Built := (Built.new "Top").edited _
  have hd : oftenUsed.check = .ok () := by decide +kernel
  have ho : oftenUsed.op? ⟨1⟩ = some ⟨⟨1⟩, ⟨0⟩, .inst "a" ⟨1⟩, [⟨3⟩, ⟨4⟩]⟩ := by decide +kernel
  obtain ⟨copy, counts, f, d', run, -, -, length, substituted, rfl, -⟩ :=
    reissue_exact H hd ho rfl [⟨"z", .clock, .input⟩]
  exact ⟨H, hd, copy, _, f, d', run, length, substituted, by decide +kernel⟩

end Edit

end AnnotatedCircuit
