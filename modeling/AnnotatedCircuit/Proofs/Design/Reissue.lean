import AnnotatedCircuit.Proofs.Design.Growth

/-!
# Replacing an instance by a copy

An instance is copied, the uses of its results are redirected to those of the copy one after the
other, and it is removed (`Design.reissued`). In a sound design all of this amounts to one renaming
(`Reissued`): the copy takes the place of the instance in its body, and everywhere the results of
the copy stand for those of the instance. The design stays sound, its hierarchy is renamed, and
what drove each other still does.
-/

namespace AnnotatedCircuit

/-- Exchange by a list of pairs, one after the other. -/
def exchangeAll [DecidableEq α] (pairs : List (α × α)) (x : α) : α :=
  pairs.foldl (fun x r => exchange r.1 r.2 x) x

section exchangeAll

variable [DecidableEq α] {pairs : List (α × α)} {x a b : α}

theorem exchangeAll_append (pairs pairs' : List (α × α)) (x : α) :
    exchangeAll (pairs ++ pairs') x = exchangeAll pairs' (exchangeAll pairs x) := List.foldl_append

theorem exchangeAll_of_not_mem (h : x ∉ pairs.map Prod.fst) : exchangeAll pairs x = x := by
  induction pairs with
  | nil => rfl
  | cons r pairs ih =>
    rw [List.map_cons, List.mem_cons, not_or] at h
    rw [exchangeAll, List.foldl_cons, exchange_of_ne h.1]
    exact ih h.2

theorem exchangeAll_of_mem (nodup : (pairs.map Prod.fst).Nodup)
    (fresh : ∀ r ∈ pairs, r.2 ∉ pairs.map Prod.fst) (h : (a, b) ∈ pairs) :
    exchangeAll pairs a = b := by
  induction pairs with
  | nil => cases h
  | cons r pairs ih =>
    obtain ⟨hr, nodup⟩ := List.nodup_cons.mp nodup
    have fresh' : ∀ q ∈ r :: pairs, q.2 ∉ pairs.map Prod.fst :=
      fun q hq hm => fresh q hq (List.mem_cons_of_mem _ hm)
    rw [exchangeAll, List.foldl_cons]
    rcases List.mem_cons.mp h with rfl | h
    · rw [exchange_self]
      exact exchangeAll_of_not_mem (fresh' _ List.mem_cons_self)
    · have hne : a ≠ r.1 := fun e => hr (e ▸ List.mem_map_of_mem h)
      rw [exchange_of_ne hne]
      exact ih nodup (fun q hq => fresh' q (List.mem_cons_of_mem _ hq)) h

end exchangeAll

namespace Design

variable {d d' : Design} {m : ModuleId} {x : Module} {o p : OpId} {op : Op} {v w : ValueId}
  {types : List SignalType} {ports : List PortDecl} {pairs : List (ValueId × ValueId)}
  {body : List OpId} {lag : OpId → Nat} {i : Nat}

/-! ### The steps -/

theorem valueModule_redirected (nodup : body.Nodup) (v w : ValueId) {u : ValueId}
    (h : d.valueModule u = .ok m) : (d.redirected v w body).valueModule u = .ok m := by
  obtain ⟨t, ⟨i, hu⟩ | ⟨o, i, op, hu, ho, rfl⟩⟩ := valueModule_eq_ok_iff.mp h
  · exact valueModule_eq_ok_iff.mpr ⟨t, .inl ⟨i, hu⟩⟩
  · refine valueModule_eq_ok_iff.mpr ⟨t, .inr ⟨o, i, ?_⟩⟩
    rw [op?_redirected nodup, ho]
    split
    · exact ⟨_, hu, rfl, rfl⟩
    · exact ⟨op, hu, rfl, rfl⟩

/-- Uses exchanged in a body by a list of pairs. -/
def redirectedAll (d : Design) (pairs : List (ValueId × ValueId)) (body : List OpId) : Design :=
  pairs.foldl (fun d r => d.redirected r.1 r.2 body) d

theorem op?_redirectedAll (nodup : body.Nodup) (d : Design) (pairs o) :
    (d.redirectedAll pairs body).op? o =
      if o ∈ body then (d.op? o).map (Op.rebind (exchangeAll pairs)) else d.op? o := by
  induction pairs generalizing d with
  | nil =>
    have : Op.rebind (exchangeAll []) = id := by
      funext op
      exact Op.rebind_eq_self fun _ _ => rfl
    simp [redirectedAll, this]
  | cons r pairs ih =>
    rw [redirectedAll, List.foldl_cons, ← redirectedAll, ih, op?_redirected nodup]
    split
    · rw [Option.map_map]
      refine congrArg (Option.map · _) (funext fun op => ?_)
      exact Op.rebind_rebind ..
    · rfl

theorem views_redirectedAll (d : Design) (pairs : List (ValueId × ValueId)) (body : List OpId) :
    (d.redirectedAll pairs body).top = d.top ∧
      (d.redirectedAll pairs body).modules = d.modules ∧
      (d.redirectedAll pairs body).values = d.values ∧
      (d.redirectedAll pairs body).name = d.name ∧
      (d.redirectedAll pairs body).anchors = d.anchors ∧
      (d.redirectedAll pairs body).ops.length = d.ops.length := by
  induction pairs generalizing d with
  | nil => exact ⟨rfl, rfl, rfl, rfl, rfl, rfl⟩
  | cons r pairs ih => exact length_ops_redirected (d := d) ▸ ih (d.redirected r.1 r.2 body)

theorem attachments_redirectedAll (d : Design) (pairs : List (ValueId × ValueId))
    (body : List OpId) : (d.redirectedAll pairs body).attachments = d.attachments := by
  induction pairs generalizing d with
  | nil => rfl
  | cons r pairs ih => exact ih (d.redirected r.1 r.2 body)

theorem Coherent.redirectedAll (H : d.Coherent) (nodup : body.Nodup)
    (pairs : List (ValueId × ValueId)) : (d.redirectedAll pairs body).Coherent := by
  induction pairs generalizing d with
  | nil => exact H
  | cons r pairs ih => exact ih (H.redirected nodup r.1 r.2)

theorem insertBehind_filter (nodup : body.Nodup) (ho : o ∈ body) (hp : p ∉ body) :
    (insertBehind o p body).filter (· ≠ o) = body.map (exchange o p) := by
  have hpo : p ≠ o := fun e => hp (e ▸ ho)
  have keep : ∀ l : List OpId, o ∉ l → l.filter (· ≠ o) = l.map (exchange o p) := by
    intro l hl
    have hne : ∀ q ∈ l, q ≠ o := fun q hq => ne_of_mem_of_not_mem hq hl
    rw [List.filter_eq_self.mpr (by simpa using hne), map_exchange_of_not_mem hl]
  induction body with
  | nil => cases ho
  | cons q body ih =>
    obtain ⟨hq, nodup⟩ := List.nodup_cons.mp nodup
    unfold insertBehind
    split
    · subst q
      rw [List.filter_cons_of_neg (by simp), List.filter_cons_of_pos (by simpa using hpo),
        keep _ hq, List.map_cons, exchange_self]
    · rename_i hne
      have ho : o ∈ body := (List.mem_cons.mp ho).resolve_left (Ne.symm hne)
      rw [List.filter_cons_of_pos (by simpa using hne), List.map_cons, exchange_of_ne hne,
        ih nodup ho fun h => hp (List.mem_cons_of_mem _ h)]

/-- The pairs of results by which a copy replaces an instance. -/
def resultPairs (d : Design) (op : Op) (types : List SignalType) : List (ValueId × ValueId) :=
  op.results.zip (d.nextValues types)

/-- A copy is entered behind an instance, and the uses of its results are redirected. -/
def copied (d : Design) (o : OpId) (op : Op) (x : Module) (types : List SignalType) : Design :=
  (d.addOp op.parent op.kind types (insertBehind o)).redirectedAll (d.resultPairs op types)
    (insertBehind o d.nextOp x.body)

theorem attachments_copied (d : Design) (o : OpId) (op : Op) (x : Module)
    (types : List SignalType) : (d.copied o op x types).attachments = d.attachments :=
  attachments_redirectedAll ..

/-- Thereafter notes are moved, and the instance is removed. -/
def reissued (d : Design) (o : OpId) (op : Op) (x : Module) (types : List SignalType)
    (attachments : Attachments) : Design :=
  { d.copied o op x types with attachments }.withoutOp o op.parent

/-- The renaming of values by a replacement. -/
def resultRenaming (d : Design) (op : Op) (types : List SignalType) : ValueId → ValueId :=
  exchangeAll (d.resultPairs op types)

/-- A design in which a new copy stands in the place of an instance. -/
structure Reissued (d : Design) (o : OpId) (op : Op) (types : List SignalType) (d' : Design) :
    Prop where
  coherent : d'.Coherent
  top : d'.top = d.top
  name : d'.name = d.name
  anchors : d'.anchors = d.anchors
  length : d'.ops.length = d.ops.length + 1
  module : ∀ m, d'.module? m =
    (d.module? m).map fun x => { x with body := x.body.map (exchange o d.nextOp) }
  op : ∀ p, d'.op? p =
    if p = d.nextOp then some ⟨d.nextOp, op.parent, op.kind, d.nextValues types⟩
    else if p = o then none
    else (d.op? p).map (Op.rebind (d.resultRenaming op types))
  value : ∀ v a, d'.value? v = some a ↔ d.value? v = some a ∨
    ∃ i t, types[i]? = some t ∧ v = ⟨d.values.length + i⟩ ∧ a = ⟨t, .result d.nextOp i⟩

/-! ### The renaming of results -/

theorem nextValues_fresh (h : d.value? v = some a) (types : List SignalType) :
    v ∉ d.nextValues types := by
  intro hm
  obtain ⟨i, hi⟩ := List.mem_iff_getElem?.mp hm
  obtain ⟨-, rfl⟩ := getElem?_nextValues.mp hi
  exact absurd (value?_lt h) (by simp)

theorem not_mem_results_of_next (H : d.Coherent) (ho : d.op? o = some op)
    (hv : v ∈ d.nextValues types) : v ∉ op.results := by
  intro hr
  obtain ⟨i, hi⟩ := List.mem_iff_getElem?.mp hr
  obtain ⟨t, ht⟩ := H.result_value ho hi
  exact nextValues_fresh ht types hv

theorem map_fst_resultPairs (hlen : op.results.length ≤ types.length) :
    (d.resultPairs op types).map Prod.fst = op.results :=
  List.map_fst_zip (by simpa using hlen)

theorem resultRenaming_of_not_mem (hlen : op.results.length ≤ types.length) (h : v ∉ op.results) :
    d.resultRenaming op types v = v :=
  exchangeAll_of_not_mem (by rwa [map_fst_resultPairs hlen])

theorem resultRenaming_result (H : d.Coherent) (ho : d.op? o = some op)
    (hlen : op.results.length ≤ types.length) (hv : op.results[i]? = some v) :
    d.resultRenaming op types v = ⟨d.values.length + i⟩ := by
  have hi : i < op.results.length := (List.getElem?_eq_some_iff.mp hv).1
  refine exchangeAll_of_mem ?_ (fun r hr hm => ?_) ?_
  · rw [map_fst_resultPairs hlen]
    exact H.nodup_results ho
  · rw [map_fst_resultPairs hlen] at hm
    exact not_mem_results_of_next H ho (List.of_mem_zip hr).2 hm
  · refine List.mem_of_getElem? (i := i) ?_
    rw [resultPairs, List.getElem?_zip_eq_some]
    exact ⟨hv, getElem?_nextValues.mpr ⟨Nat.lt_of_lt_of_le hi hlen, rfl⟩⟩

theorem resultRenaming_port (H : d.Coherent) (ho : d.op? o = some op)
    (hlen : op.results.length ≤ types.length) (hx : d.module? m = some x) {p : Port}
    (hp : x.ports[i]? = some p) : d.resultRenaming op types p.value = p.value := by
  apply resultRenaming_of_not_mem hlen
  intro hm
  obtain ⟨j, hj⟩ := List.mem_iff_getElem?.mp hm
  obtain ⟨t, ht⟩ := H.result_value ho hj
  rw [H.port_value hx hp] at ht
  cases ht

/-- The results of the operations that stay are not renamed. -/
theorem resultRenaming_other (H : d.Coherent) (ho : d.op? o = some op)
    (hlen : op.results.length ≤ types.length) {q : Op} (hq : d.op? p = some q) (hp : p ≠ o)
    (hv : q.results[i]? = some v) : d.resultRenaming op types v = v := by
  apply resultRenaming_of_not_mem hlen
  intro hm
  obtain ⟨j, hj⟩ := List.mem_iff_getElem?.mp hm
  exact hp (H.result_unique hq hv ho hj).1

theorem valueModule_result (H : d.Coherent) (ho : d.op? o = some op) (hv : v ∈ op.results) :
    d.valueModule v = .ok op.parent := by
  obtain ⟨i, hi⟩ := List.mem_iff_getElem?.mp hv
  obtain ⟨t, ht⟩ := H.result_value ho hi
  exact valueModule_eq_ok_iff.mpr ⟨t, .inr ⟨o, i, op, ht, ho, rfl⟩⟩

/-- The operations of other modules do not see the renaming. -/
theorem rebind_resultRenaming_of_ne (S : d.Sound lag) (ho : d.op? o = some op)
    (hlen : op.results.length ≤ types.length) {q : Op} (hq : d.op? p = some q)
    (hne : q.parent ≠ op.parent) : Op.rebind (d.resultRenaming op types) q = q := by
  apply Op.rebind_eq_self
  intro v hv
  apply resultRenaming_of_not_mem hlen
  intro hr
  have := S.visible hq hv
  rw [valueModule_result S.coherent ho hr] at this
  exact hne (Except.ok.inj this).symm

theorem site_ne_nextOp (H : d.Coherent) {s : Site} (hs : s ∈ d.sites) : s.op ≠ d.nextOp := by
  obtain ⟨q, hq, -⟩ := (mem_sites_iff H).mp hs
  exact ne_nextOp hq

theorem operands_of_child? {kind : OpKind} {c : ModuleId} (h : kind.child? = some c) :
    kind.operands = [] := by
  cases kind <;> first | rfl | cases h

section

variable {c : ModuleId} (S : d.Sound lag) (ho : d.op? o = some op)
  (hx : d.module? op.parent = some x)

include S hx in
theorem mem_copied_body : p ∈ insertBehind o d.nextOp x.body ↔
    p = d.nextOp ∨ ∃ q, d.op? p = some q ∧ q.parent = op.parent := by
  rw [(insertBehind_perm o d.nextOp x.body).mem_iff, List.mem_cons, S.coherent.mem_body hx]

include S hx in
theorem nodup_copied_body : (insertBehind o d.nextOp x.body).Nodup :=
  (insertBehind_perm ..).nodup_iff.mpr <|
    List.nodup_cons.mpr ⟨S.coherent.nextOp_not_mem_body hx, S.coherent.nodup_body hx⟩

include S hx in
theorem coherent_copied : (d.copied o op x types).Coherent :=
  (S.coherent.addOp hx (insertBehind_perm ..)).redirectedAll (nodup_copied_body S hx) _

include S ho in
theorem module?_reissued (attachments : Attachments) (m : ModuleId) :
    (d.reissued o op x types attachments).module? m =
      (d.module? m).map fun x => { x with body := x.body.map (exchange o d.nextOp) } := by
  have hm := (d.addOp op.parent op.kind types (insertBehind o)).views_redirectedAll
    (d.resultPairs op types) (insertBehind o d.nextOp x.body) |>.2.1
  have look : ∀ m, Design.module? { d.copied o op x types with attachments } m =
      (d.addOp op.parent op.kind types (insertBehind o)).module? m := fun m =>
    congrArg (·[m.index]?) hm
  rw [reissued, module?_withoutOp, look, module?_addOp]
  cases hy : d.module? m with
  | none => rfl
  | some y =>
    have hmem : o ∈ y.body ↔ m = op.parent := by
      rw [S.coherent.mem_body hy, ho]
      simp [eq_comm]
    simp only [Option.map_some]
    split
    · rename_i h
      rw [insertBehind_filter (S.coherent.nodup_body hy) (hmem.mpr h)
        (S.coherent.nextOp_not_mem_body hy)]
    · rename_i h
      rw [map_exchange_of_not_mem fun hq => h (hmem.mp hq)]

include S ho hx

theorem op?_copied (hc : op.kind.child? = some c) (hlen : op.results.length ≤ types.length)
    (p : OpId) : (d.copied o op x types).op? p =
      if p = d.nextOp then some ⟨d.nextOp, op.parent, op.kind, d.nextValues types⟩
      else (d.op? p).map (Op.rebind (d.resultRenaming op types)) := by
  rw [copied, op?_redirectedAll (nodup_copied_body S hx), op?_addOp]
  by_cases hp : p = d.nextOp
  · subst hp
    rw [if_pos ((mem_copied_body S hx).mpr (.inl rfl)), if_pos rfl, if_pos rfl, Option.map_some]
    refine congrArg some (Op.rebind_eq_self fun v hv => ?_)
    simp [operands_of_child? hc] at hv
  · rw [if_neg hp, if_neg hp]
    split
    · rfl
    · rename_i hb
      cases hq : d.op? p with
      | none => rfl
      | some q =>
        have : q.parent ≠ op.parent := fun e =>
          hb ((mem_copied_body S hx).mpr (.inr ⟨q, hq, e⟩))
        rw [Option.map_some, rebind_resultRenaming_of_ne S ho hlen hq this]

theorem reissued_spec (hc : op.kind.child? = some c) (hlen : op.results.length ≤ types.length)
    (attachments : Attachments) :
    d.Reissued o op types (d.reissued o op x types attachments) := by
  have hne := ne_nextOp ho
  obtain ⟨ht, -, hv, hn, ha, hl⟩ := (d.addOp op.parent op.kind types
    (insertBehind o)).views_redirectedAll (d.resultPairs op types) (insertBehind o d.nextOp x.body)
  have live := op?_copied S ho hx hc hlen
  refine ⟨?_, ht, hn, ha, ?_, module?_reissued S ho attachments, fun p => ?_, fun v a => ?_⟩
  · have C : Design.Coherent { d.copied o op x types with attachments } :=
      (coherent_copied S hx).congr rfl rfl rfl rfl
    have hop : Design.op? { d.copied o op x types with attachments } o =
        some (Op.rebind (d.resultRenaming op types) op) :=
      (live o).trans (by rw [if_neg hne, ho]; rfl)
    have W := C.withoutOp hop
    exact W
  · rw [reissued, length_ops_withoutOp]
    exact hl.trans length_ops_addOp
  · rw [reissued, op?_withoutOp]
    by_cases hp : p = o
    · rw [if_pos hp, if_neg (hp ▸ hne), if_pos hp]
    · rw [if_neg hp, if_neg hp]
      exact live p
  · have look : (d.reissued o op x types attachments).value? v =
        (d.addOp op.parent op.kind types (insertBehind o)).value? v := congrArg (·[v.index]?) hv
    rw [look, value?_addOp]

end

/-! ### After a replacement -/

namespace Reissued

variable {q : Op} {c : ModuleId} (R : d.Reissued o op types d')

include R

theorem op_copy : d'.op? d.nextOp = some ⟨d.nextOp, op.parent, op.kind, d.nextValues types⟩ := by
  rw [R.op, if_pos rfl]

theorem op_other (hq : d.op? p = some q) (hp : p ≠ o) :
    d'.op? p = some (Op.rebind (d.resultRenaming op types) q) := by
  rw [R.op, if_neg (ne_nextOp hq), if_neg hp, hq]
  rfl

theorem op_cases (hq : d'.op? p = some q) :
    p = d.nextOp ∧ q = ⟨d.nextOp, op.parent, op.kind, d.nextValues types⟩ ∨
      ∃ q₀, d.op? p = some q₀ ∧ p ≠ o ∧ q = Op.rebind (d.resultRenaming op types) q₀ := by
  rw [R.op] at hq
  split at hq
  · exact .inl ⟨‹_›, (Option.some.inj hq).symm⟩
  split at hq
  · cases hq
  · obtain ⟨q₀, h, rfl⟩ := Option.map_eq_some_iff.mp hq
    exact .inr ⟨q₀, h, ‹_›, rfl⟩

theorem module_some {y : Module} (hy : d.module? m = some y) :
    d'.module? m = some { y with body := y.body.map (exchange o d.nextOp) } := by
  rw [R.module, hy]
  rfl

/-- The results of the copy belong to the module of the instance. -/
theorem valueModule_new (hi : i < types.length) :
    d'.valueModule ⟨d.values.length + i⟩ = .ok op.parent :=
  valueModule_eq_ok_iff.mpr ⟨types[i], .inr ⟨d.nextOp, i, _,
    (R.value ..).mpr (.inr ⟨i, _, List.getElem?_eq_getElem hi, rfl, rfl⟩), R.op_copy, rfl⟩⟩

theorem valueModule (H : d.Coherent) (ho : d.op? o = some op)
    (hlen : op.results.length ≤ types.length) (hv : d.valueModule v = .ok m) :
    d'.valueModule (d.resultRenaming op types v) = .ok m := by
  by_cases hr : v ∈ op.results
  · rw [valueModule_result H ho hr] at hv
    cases hv
    obtain ⟨i, hi⟩ := List.mem_iff_getElem?.mp hr
    rw [resultRenaming_result H ho hlen hi]
    exact R.valueModule_new (Nat.lt_of_lt_of_le (List.getElem?_eq_some_iff.mp hi).1 hlen)
  · rw [resultRenaming_of_not_mem hlen hr]
    obtain ⟨t, ⟨i, h⟩ | ⟨p, i, q, h, hq, rfl⟩⟩ := valueModule_eq_ok_iff.mp hv
    · exact valueModule_eq_ok_iff.mpr ⟨t, .inl ⟨i, (R.value ..).mpr (.inl h)⟩⟩
    · have hp : p ≠ o := by
        rintro rfl
        exact hr (List.mem_of_getElem? ((H.result_origin h).2 op ho))
      exact valueModule_eq_ok_iff.mpr
        ⟨t, .inr ⟨p, i, _, (R.value ..).mpr (.inl h), R.op_other hq hp, rfl⟩⟩

/-- The copy has caught up with its module. -/
theorem sound (S : d.Sound lag) (ho : d.op? o = some op) (hc : op.kind.child? = some c)
    (hlen : op.results.length + lag o = types.length) :
    d'.Sound fun p => if p = d.nextOp then 0 else lag p where
  coherent := R.coherent
  visible {p q v} hq hv := by
    rcases R.op_cases hq with ⟨rfl, rfl⟩ | ⟨q₀, hq₀, -, rfl⟩
    · simp [operands_of_child? hc] at hv
    · obtain ⟨w, hw, rfl⟩ : ∃ w ∈ q₀.kind.operands, d.resultRenaming op types w = v := by
        simpa [Op.rebind] using hv
      have hm : d.valueModule w = .ok q₀.parent := S.visible hq₀ hw
      exact R.valueModule S.coherent ho (hlen ▸ Nat.le_add_right ..) hm
  fits {p q c'} hq hc' := by
    have known : ∀ {y}, d.module? c' = some y →
        ∃ y', d'.module? c' = some y' ∧ y'.ports = y.ports := fun hy => ⟨_, R.module_some hy, rfl⟩
    rcases R.op_cases hq with ⟨rfl, rfl⟩ | ⟨q₀, hq₀, -, rfl⟩
    · obtain ⟨y, hy, hl⟩ := S.fits ho hc'
      obtain ⟨y', hy', hports⟩ := known hy
      refine ⟨y', hy', ?_⟩
      dsimp only
      rw [if_pos rfl, hports, ← hl, hlen, length_nextValues, Nat.add_zero]
    · have hc' : q₀.kind.child? = some c' := by simpa [Op.rebind] using hc'
      obtain ⟨y, hy, hl⟩ := S.fits hq₀ hc'
      obtain ⟨y', hy', hports⟩ := known hy
      refine ⟨y', hy', ?_⟩
      dsimp only
      rw [if_neg (ne_nextOp hq₀), hports, ← hl]
      rfl

/-- The hierarchy is renamed. -/
theorem hierarchy (H : d.Coherent) (ho : d.op? o = some op) :
    d'.hierarchy = d.hierarchy.renamed o d.nextOp := by
  have at_site : ∀ m p, p ≠ d.nextOp → d'.siteAt m (exchange o d.nextOp p) =
      (d.siteAt m p).map (Site.rename o d.nextOp) := by
    intro m p hn
    by_cases hp : p = o
    · subst hp
      rw [exchange_self, siteAt, siteAt, R.op_copy, ho]
      cases h : op.kind.child? <;> simp [h, Site.rename]
    · rw [exchange_of_ne hp]
      cases hq : d.op? p with
      | none => simp [siteAt, hq, R.op, hn]
      | some q =>
        rw [siteAt, siteAt, R.op_other hq hp, hq]
        cases h : q.kind.child? <;> simp [h, Site.rename, Op.rebind, exchange_of_ne hp]
  rw [hierarchy_congr (Site.rename o d.nextOp) R.top fun m => ?_]
  · simp [Design.hierarchy, Hierarchy.renamed, Function.comp_def]
  · cases hx : d.module? m with
    | none => rw [R.module, hx]; rfl
    | some x =>
      rw [R.module_some hx, Option.map_some, Option.map_some, List.filterMap_map,
        List.map_filterMap]
      refine congrArg (fun l => some ((x.name, x.id), l)) (List.filterMap_congr fun p hp => ?_)
      exact at_site x.id p fun e => H.nextOp_not_mem_body hx (e ▸ hp)

/-- An instance has its results under the new names, as itself or as the copy. -/
theorem instance_result (H : d.Coherent) (ho : d.op? o = some op)
    (hlen : op.results.length ≤ types.length) (hq : d.op? p = some q)
    (hc : q.kind.child? = some c) (hw : q.results[i]? = some w) :
    ∃ p' q', d'.op? p' = some q' ∧ q'.kind.child? = some c ∧
      q'.results[i]? = some (d.resultRenaming op types w) := by
  by_cases hp : p = o
  · subst hp
    obtain rfl := Option.some.inj (ho.symm.trans hq)
    refine ⟨_, _, R.op_copy, hc, ?_⟩
    rw [resultRenaming_result H ho hlen hw]
    exact getElem?_nextValues.mpr
      ⟨Nat.lt_of_lt_of_le (List.getElem?_eq_some_iff.mp hw).1 hlen, rfl⟩
  · rw [resultRenaming_other H ho hlen hq hp hw]
    exact ⟨p, _, R.op_other hq hp, by simpa [Op.rebind] using hc, hw⟩

/-- Whatever fed a value still does, under the new names. -/
theorem feeds (H : d.Coherent) (ho : d.op? o = some op) (hc : op.kind.child? = some c)
    (hlen : op.results.length ≤ types.length) (h : d.Feeds v w) :
    d'.Feeds (d.resultRenaming op types v) (d.resultRenaming op types w) := by
  have ne : ∀ {p q}, d.op? p = some q → q.kind.child? = none → p ≠ o := by
    rintro p q hq hk rfl
    obtain rfl := Option.some.inj (ho.symm.trans hq)
    rw [hc] at hk
    contradiction
  cases h with
  | connect live kind =>
    refine .connect (R.op_other live (ne live (by rw [kind]; rfl))) ?_
    simp only [Op.rebind, kind, OpKind.mapOperands]
  | refSend live kind hw =>
    have hp := ne live (by rw [kind]; rfl)
    rw [resultRenaming_other H ho hlen live hp hw]
    refine .refSend (R.op_other live hp) ?_ hw
    simp only [Op.rebind, kind, OpKind.mapOperands]
  | refResolve live kind hw =>
    have hp := ne live (by rw [kind]; rfl)
    rw [resultRenaming_other H ho hlen live hp hw]
    refine .refResolve (R.op_other live hp) ?_ hw
    simp only [Op.rebind, kind, OpKind.mapOperands]
  | enter live child found hport hw input =>
    obtain ⟨p', q', live', child', hw'⟩ := R.instance_result H ho hlen live child hw
    rw [resultRenaming_port H ho hlen found hport]
    exact .enter live' child' (R.module_some found) hport hw' input
  | leave live child found hport hw output =>
    obtain ⟨p', q', live', child', hw'⟩ := R.instance_result H ho hlen live child hw
    rw [resultRenaming_port H ho hlen found hport]
    exact .leave live' child' (R.module_some found) hport hw' output

theorem drives (H : d.Coherent) (ho : d.op? o = some op) (hc : op.kind.child? = some c)
    (hlen : op.results.length ≤ types.length) (h : d.Drives v w) :
    d'.Drives (d.resultRenaming op types v) (d.resultRenaming op types w) :=
  Relation.ReflTransGen.lift (r := d.Feeds) (p := d'.Feeds) (d.resultRenaming op types)
    (fun _ _ => R.feeds H ho hc hlen) _ _ h

end Reissued

end Design

/-! ### The edits succeed -/

namespace Edit

open Design

variable {d : Design} {m c : ModuleId} {x : Module} {o : OpId} {op : Op} {v w : ValueId}

/-- A copy has results of the old types and one more for each new port. -/
theorem cloneInstance_ok (H : d.Coherent) (ho : d.op? o = some op) (hc : op.kind.child? = some c)
    (ports : List PortDecl) : ∃ ts : List SignalType,
      List.Forall₂ (fun v t => d.valueType v = .ok t) op.results ts ∧
      cloneInstance o ports d =
        .ok d.nextOp (d.addOp op.parent op.kind (ts ++ ports.map (·.type)) (insertBehind o)) := by
  obtain ⟨x, hx⟩ := H.parent_module ho
  obtain ⟨ts, hts⟩ := Checked.exists_mapM_eq_ok fun v hv =>
    valueType_of_valueModule (valueModule_result H ho hv)
  refine ⟨ts, Checked.mapM_eq_ok_iff.mp hts, ?_⟩
  rw [cloneInstance_eq, EStateM.bind_of_ok (ask_of_ok (op_eq_ok_iff.mpr ho))]
  simp only [hc, Option.isNone_some, Bool.false_eq_true, if_false]
  exact (EStateM.bind_of_ok (ask_of_ok (module_eq_ok_iff.mpr hx))).trans
    (EStateM.bind_of_ok (ask_of_ok hts))

theorem redirectUses_ok (hv : d.valueModule v = .ok m) (hx : d.module? m = some x) :
    ∃ n, redirectUses v w d = .ok n (d.redirected v w x.body) :=
  ⟨_, (EStateM.bind_of_ok (ask_of_ok hv)).trans
    (EStateM.bind_of_ok (ask_of_ok (module_eq_ok_iff.mpr hx)))⟩

theorem removeOp_ok (ho : d.op? o = some op) (hx : d.module? op.parent = some x) :
    removeOp o d = .ok op (d.withoutOp o op.parent) := by
  rw [removeOp_eq]
  exact (EStateM.bind_of_ok (ask_of_ok (op_eq_ok_iff.mpr ho))).trans
    (EStateM.bind_of_ok (ask_of_ok (module_eq_ok_iff.mpr hx)))

/-- The last edit of a replacement. -/
theorem removeOp_copied_ok (S : d.Sound lag) (ho : d.op? o = some op)
    (hx : d.module? op.parent = some x) (hc : op.kind.child? = some c)
    (hlen : op.results.length ≤ types.length) (attachments : Attachments) :
    ∃ op', removeOp o { d.copied o op x types with attachments } =
      .ok op' (d.reissued o op x types attachments) := by
  have hne := ne_nextOp ho
  have hop : Design.op? { d.copied o op x types with attachments } o =
      some (Op.rebind (d.resultRenaming op types) op) :=
    (op?_copied S ho hx hc hlen o).trans (by rw [if_neg hne, ho]; rfl)
  have C : Design.Coherent { d.copied o op x types with attachments } :=
    (coherent_copied S hx).congr rfl rfl rfl rfl
  obtain ⟨y, hy⟩ := C.parent_module hop
  have R := removeOp_ok hop hy
  exact ⟨_, R⟩

end Edit

end AnnotatedCircuit
