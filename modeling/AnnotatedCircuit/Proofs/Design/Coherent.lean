import Mathlib.Data.List.Nodup
import AnnotatedCircuit.Proofs.Design.Tables

/-!
# Coherence of the tables

In a coherent design every part carries the identity of its place, every live operation stands once
in the body of its module, and every value is what one port or one result says it is. All changes
of the tables keep this.
-/

namespace AnnotatedCircuit.Design

variable {d : Design} {m : ModuleId} {x : Module} {o : OpId} {op : Op} {kind : OpKind}
  {types : List SignalType} {place : OpId → List OpId → List OpId} {ports : List PortDecl}

/-- The tables of a design agree with each other. -/
structure Coherent (d : Design) : Prop where
  top_module : ∃ x, d.module? d.top = some x
  module_id : ∀ {m x}, d.module? m = some x → x.id = m
  op_id : ∀ {o op}, d.op? o = some op → op.id = o
  nodup_body : ∀ {m x}, d.module? m = some x → x.body.Nodup
  mem_body : ∀ {m x o}, d.module? m = some x →
    (o ∈ x.body ↔ ∃ op, d.op? o = some op ∧ op.parent = m)
  parent_module : ∀ {o op}, d.op? o = some op → ∃ x, d.module? op.parent = some x
  port_value : ∀ {m x i p}, d.module? m = some x → x.ports[i]? = some p →
    d.value? p.value = some ⟨p.type, .port m i⟩
  port_origin : ∀ {v t m i}, d.value? v = some ⟨t, .port m i⟩ →
    ∃ x p, d.module? m = some x ∧ x.ports[i]? = some p ∧ p.value = v
  result_value : ∀ {o op i v}, d.op? o = some op → op.results[i]? = some v →
    ∃ t, d.value? v = some ⟨t, .result o i⟩
  /-- A result of an operation that was removed has no place any more. -/
  result_origin : ∀ {v t o i}, d.value? v = some ⟨t, .result o i⟩ →
    o.index < d.ops.length ∧ ∀ op, d.op? o = some op → op.results[i]? = some v

namespace Coherent

theorem new (name : String) : (Design.new name).Coherent where
  top_module := ⟨_, rfl⟩
  module_id h := by
    obtain ⟨rfl, rfl⟩ := module?_new_cases h
    rfl
  op_id h := by simp at h
  nodup_body h := by
    obtain ⟨rfl, rfl⟩ := module?_new_cases h
    exact List.nodup_nil
  mem_body h := by
    obtain ⟨rfl, rfl⟩ := module?_new_cases h
    simp [Module.empty]
  parent_module h := by simp at h
  port_value h hp := by
    obtain ⟨rfl, rfl⟩ := module?_new_cases h
    cases hp
  port_origin h := by simp at h
  result_value h := by simp at h
  result_origin h := by simp at h

/-- Coherence speaks of modules, operations and values alone. -/
theorem congr (H : d.Coherent) {d' : Design} (ht : d'.top = d.top) (hm : d'.modules = d.modules)
    (ho : d'.ops = d.ops) (hv : d'.values = d.values) : d'.Coherent := by
  obtain ⟨_, _, _, _, _, _, _, _, _⟩ := d
  obtain ⟨_, _, _, _, _, _, _, _, _⟩ := d'
  cases ht; cases hm; cases ho; cases hv
  exact ⟨H.top_module, H.module_id, H.op_id, H.nodup_body, H.mem_body, H.parent_module,
    H.port_value, H.port_origin, H.result_value, H.result_origin⟩

/-- A value that a result table holds at two places is held at one place. -/
theorem result_unique (H : d.Coherent) {o' : OpId} {op' : Op} {i j : Nat} {v : ValueId}
    (ho : d.op? o = some op) (hi : op.results[i]? = some v) (ho' : d.op? o' = some op')
    (hj : op'.results[j]? = some v) : o = o' ∧ i = j := by
  obtain ⟨t, ht⟩ := H.result_value ho hi
  obtain ⟨t', ht'⟩ := H.result_value ho' hj
  rw [ht] at ht'
  cases ht'
  exact ⟨rfl, rfl⟩

theorem nodup_results (H : d.Coherent) (ho : d.op? o = some op) : op.results.Nodup := by
  refine List.nodup_iff_getElem?_ne_getElem?.mpr fun i j hij hj he => ?_
  rw [List.getElem?_eq_getElem hj] at he
  exact absurd (H.result_unique ho he ho (List.getElem?_eq_getElem hj)).2 (Nat.ne_of_lt hij)

theorem module_index_lt (h : d.module? m = some x) : m.index < d.modules.length :=
  (List.getElem?_eq_some_iff.mp h).1

/-- A new module at the end of the table. -/
theorem addModule (H : d.Coherent) (name : String) (kind : ModuleKind) (symbols : NameSupply) :
    Coherent { d with
      modules := d.modules ++ [Module.empty ⟨d.modules.length⟩ name kind], symbols } := by
  have look : ∀ {m x}, Design.module? { d with
      modules := d.modules ++ [Module.empty ⟨d.modules.length⟩ name kind], symbols } m = some x →
      d.module? m = some x ∨
        d.module? m = none ∧ m = ⟨d.modules.length⟩ ∧ x = Module.empty m name kind := by
    intro m x h
    by_cases hm : m.index < d.modules.length
    · exact .inl (by simpa [module?, List.getElem?_append_left hm] using h)
    · have hm' : m = ⟨d.modules.length⟩ := by
        have := (List.getElem?_eq_some_iff.mp h).1
        cases m
        simp at this hm ⊢
        omega
      subst hm'
      exact .inr ⟨by simp [module?], rfl, by simpa [module?, eq_comm] using h⟩
  have keep : ∀ {m x}, d.module? m = some x → Design.module? { d with
      modules := d.modules ++ [Module.empty ⟨d.modules.length⟩ name kind], symbols } m = some x :=
    fun h => by simpa [module?, List.getElem?_append_left (module_index_lt h)] using h
  refine
    { top_module := H.top_module.imp fun _ => keep, module_id := fun h => ?_, op_id := H.op_id,
      nodup_body := fun h => ?_, mem_body := fun {m x o} h => ?_, parent_module := fun ho => ?_,
      port_value := fun h hp => ?_, port_origin := fun h => ?_, result_value := H.result_value,
      result_origin := H.result_origin }
  · rcases look h with h | ⟨-, rfl, rfl⟩
    · exact H.module_id h
    · rfl
  · rcases look h with h | ⟨-, rfl, rfl⟩
    · exact H.nodup_body h
    · exact List.nodup_nil
  · rcases look h with h | ⟨hm, rfl, rfl⟩
    · exact H.mem_body h
    · constructor
      · intro ho
        cases ho
      · rintro ⟨op, hop, hpar⟩
        obtain ⟨x, hx⟩ := H.parent_module hop
        rw [hpar, hm] at hx
        contradiction
  · obtain ⟨x, hx⟩ := H.parent_module ho
    exact ⟨x, keep hx⟩
  · rcases look h with h | ⟨-, rfl, rfl⟩
    · exact H.port_value h hp
    · cases hp
  · obtain ⟨x, p, hx, hp⟩ := H.port_origin h
    exact ⟨x, p, keep hx, hp⟩

/-- New ports behind those that a module has. -/
theorem enterPorts (H : d.Coherent) (hx : d.module? m = some x) :
    (d.enterPorts m x.ports.length ports).Coherent where
  top_module := by
    obtain ⟨y, hy⟩ := H.top_module
    exact (exists_module?_enterPorts hy ..).imp fun _ => And.left
  module_id hy := by
    obtain ⟨y₀, hy₀, hid, -⟩ := module?_enterPorts_cases hy
    exact hid.trans (H.module_id hy₀)
  op_id := H.op_id
  nodup_body hy := by
    obtain ⟨y₀, hy₀, -, hbody, -⟩ := module?_enterPorts_cases hy
    exact hbody ▸ H.nodup_body hy₀
  mem_body hy := by
    obtain ⟨y₀, hy₀, -, hbody, -⟩ := module?_enterPorts_cases hy
    exact hbody ▸ H.mem_body hy₀
  parent_module ho := by
    obtain ⟨y, hy⟩ := H.parent_module ho
    exact (exists_module?_enterPorts hy ..).imp fun _ => And.left
  port_value {m' y i p} hy hp := by
    obtain ⟨y₀, hy₀, -, -, hports⟩ := module?_enterPorts_cases hy
    rw [value?_enterPorts]
    by_cases old : i < y₀.ports.length
    · have hp₀ : y₀.ports[i]? = some p := by
        rw [hports] at hp
        split at hp
        · rwa [List.getElem?_append_left old] at hp
        · exact hp
      exact .inl (H.port_value hy₀ hp₀)
    · rw [hports] at hp
      split at hp
      · subst m'
        obtain rfl := Option.some.inj (hx.symm.trans hy₀)
        rw [List.getElem?_append_right (Nat.le_of_not_lt old)] at hp
        obtain ⟨q, hq, rfl⟩ := getElem?_nextPorts.mp hp
        exact .inr ⟨_, q, hq, rfl, by rw [Nat.add_sub_of_le (Nat.le_of_not_lt old)]⟩
      · exact absurd (List.getElem?_eq_some_iff.mp hp).1 old
  port_origin hv := by
    rcases value?_enterPorts.mp hv with hv | ⟨j, q, hq, rfl, he⟩
    · obtain ⟨y, p, hy, hp, rfl⟩ := H.port_origin hv
      obtain ⟨y', hy', -, -, hports⟩ := exists_module?_enterPorts hy m x.ports.length ports
      refine ⟨y', p, hy', ?_, rfl⟩
      rw [hports]
      split
      · exact (List.getElem?_append_left (List.getElem?_eq_some_iff.mp hp).1).trans hp
      · exact hp
    · cases he
      obtain ⟨y, hy, -, -, hports⟩ := exists_module?_enterPorts hx m x.ports.length ports
      refine ⟨y, ⟨q, ⟨d.values.length + j⟩⟩, hy, ?_, rfl⟩
      rw [hports, if_pos rfl, List.getElem?_append_right (Nat.le_add_right ..),
        Nat.add_sub_cancel_left]
      exact getElem?_nextPorts.mpr ⟨q, hq, rfl⟩
  result_value ho hi := by
    obtain ⟨t, ht⟩ := H.result_value ho hi
    exact ⟨t, value?_enterPorts.mpr (.inl ht)⟩
  result_origin hv := by
    rcases value?_enterPorts.mp hv with hv | ⟨j, q, hq, rfl, he⟩
    · exact H.result_origin hv
    · cases he

theorem nextOp_not_mem_body (H : d.Coherent) (hx : d.module? m = some x) : d.nextOp ∉ x.body := by
  intro h
  obtain ⟨op, ho, -⟩ := (H.mem_body hx).mp h
  exact ne_nextOp ho rfl

/-- A new operation, put anywhere into the body of its module. -/
theorem addOp (H : d.Coherent) (hx : d.module? m = some x)
    (hplace : (place d.nextOp x.body).Perm (d.nextOp :: x.body)) :
    (d.addOp m kind types place).Coherent := by
  have perm : ∀ {y}, d.module? m = some y → (place d.nextOp y.body).Perm (d.nextOp :: y.body) := by
    intro y hy
    obtain rfl := Option.some.inj (hx.symm.trans hy)
    exact hplace
  refine
    { top_module := ?_, module_id := fun hy => ?_, op_id := fun ho => ?_,
      nodup_body := fun hy => ?_, mem_body := fun {m' y o} hy => ?_, parent_module := fun ho => ?_,
      port_value := fun hy hp => ?_, port_origin := fun hv => ?_,
      result_value := fun {o op i v} ho hi => ?_, result_origin := fun {v t o i} hv => ?_ }
  · obtain ⟨y, hy⟩ := H.top_module
    exact (exists_module?_addOp hy ..).imp fun _ => And.left
  · obtain ⟨y₀, hy₀, hid, -⟩ := module?_addOp_cases hy
    exact hid.trans (H.module_id hy₀)
  · rcases op?_addOp_cases ho with ⟨rfl, rfl⟩ | ho
    · rfl
    · exact H.op_id ho
  · obtain ⟨y₀, hy₀, -, -, hbody⟩ := module?_addOp_cases hy
    rw [hbody]
    split
    · subst m
      refine (perm hy₀).nodup_iff.mpr (List.nodup_cons.mpr ?_)
      exact ⟨H.nextOp_not_mem_body hy₀, H.nodup_body hy₀⟩
    · exact H.nodup_body hy₀
  · obtain ⟨y₀, hy₀, -, -, hbody⟩ := module?_addOp_cases hy
    rw [hbody, op?_addOp]
    by_cases ho : o = d.nextOp
    · subst ho
      split
      · subst m
        simp [(perm hy₀).mem_iff]
      · rename_i hm
        simp [H.nextOp_not_mem_body hy₀, Ne.symm hm]
    · rw [if_neg ho, ← H.mem_body hy₀]
      split
      · subst m
        simp [(perm hy₀).mem_iff, ho]
      · rfl
  · rcases op?_addOp_cases ho with ⟨rfl, rfl⟩ | ho
    · exact (exists_module?_addOp hx ..).imp fun _ => And.left
    · obtain ⟨y, hy⟩ := H.parent_module ho
      exact (exists_module?_addOp hy ..).imp fun _ => And.left
  · obtain ⟨y₀, hy₀, -, hports, -⟩ := module?_addOp_cases hy
    exact value?_addOp.mpr (.inl (H.port_value hy₀ (hports ▸ hp)))
  · rcases value?_addOp.mp hv with hv | ⟨_, _, _, _, he⟩
    · obtain ⟨y, p, hy, hp, rfl⟩ := H.port_origin hv
      obtain ⟨y', hy', -, hports, -⟩ := exists_module?_addOp hy m kind types place
      exact ⟨y', p, hy', hports ▸ hp, rfl⟩
    · cases he
  · rcases op?_addOp_cases ho with ⟨rfl, rfl⟩ | ho
    · obtain ⟨hlt, rfl⟩ := getElem?_nextValues.mp hi
      exact ⟨types[i], value?_addOp.mpr (.inr ⟨i, _, List.getElem?_eq_getElem hlt, rfl, rfl⟩)⟩
    · obtain ⟨t, ht⟩ := H.result_value ho hi
      exact ⟨t, value?_addOp.mpr (.inl ht)⟩
  · rw [length_ops_addOp, op?_addOp]
    rcases value?_addOp.mp hv with hv | ⟨j, s, hs, rfl, he⟩
    · obtain ⟨hlt, hr⟩ := H.result_origin hv
      rw [if_neg (ne_nextOp_of_lt hlt)]
      exact ⟨Nat.lt_succ_of_lt hlt, hr⟩
    · cases he
      refine ⟨Nat.lt_succ_self _, fun op hop => ?_⟩
      rw [if_pos rfl] at hop
      cases hop
      exact getElem?_nextValues.mpr ⟨(List.getElem?_eq_some_iff.mp hs).1, rfl⟩

/-- Uses exchanged in a body. -/
theorem redirected (H : d.Coherent) {body : List OpId} (nodup : body.Nodup) (v w : ValueId) :
    (d.redirected v w body).Coherent where
  top_module := H.top_module
  module_id := H.module_id
  op_id ho := by
    obtain ⟨op₀, ho, hid, -⟩ := op?_redirected_cases nodup ho
    exact hid.trans (H.op_id ho)
  nodup_body := H.nodup_body
  mem_body {m x o} hx := by
    rw [H.mem_body hx]
    constructor
    · rintro ⟨op, ho, rfl⟩
      exact exists_op?_redirected nodup ho v w
    · rintro ⟨op, ho, rfl⟩
      obtain ⟨op₀, ho, -, hparent, -⟩ := op?_redirected_cases nodup ho
      exact ⟨op₀, ho, hparent.symm⟩
  parent_module ho := by
    obtain ⟨op₀, ho, -, hparent, -⟩ := op?_redirected_cases nodup ho
    exact hparent ▸ H.parent_module ho
  port_value := H.port_value
  port_origin := H.port_origin
  result_value ho hi := by
    obtain ⟨op₀, ho, -, -, hresults⟩ := op?_redirected_cases nodup ho
    exact H.result_value ho (hresults ▸ hi)
  result_origin hv := by
    obtain ⟨hlt, hr⟩ := H.result_origin hv
    refine ⟨by rwa [length_ops_redirected], fun op ho => ?_⟩
    obtain ⟨op₀, ho, -, -, hresults⟩ := op?_redirected_cases nodup ho
    exact hresults ▸ hr op₀ ho

/-- An operation taken out of the body of its module. -/
theorem withoutOp (H : d.Coherent) (ho : d.op? o = some op) :
    (d.withoutOp o op.parent).Coherent where
  top_module := by
    obtain ⟨y, hy⟩ := H.top_module
    exact (exists_module?_withoutOp hy ..).imp fun _ => And.left
  module_id hy := by
    obtain ⟨y₀, hy₀, hid, -⟩ := module?_withoutOp_cases hy
    exact hid.trans (H.module_id hy₀)
  op_id hp := H.op_id (op?_withoutOp_cases hp).2
  nodup_body hy := by
    obtain ⟨y₀, hy₀, -, -, hbody⟩ := module?_withoutOp_cases hy
    rw [hbody]
    split
    · exact (H.nodup_body hy₀).filter _
    · exact H.nodup_body hy₀
  mem_body {m' y p} hy := by
    obtain ⟨y₀, hy₀, -, -, hbody⟩ := module?_withoutOp_cases hy
    rw [hbody, op?_withoutOp]
    split
    · rw [List.mem_filter, H.mem_body hy₀]
      by_cases hp : p = o <;> simp [hp]
    · rename_i hm
      rw [H.mem_body hy₀]
      by_cases hp : p = o
      · subst hp
        simp [ho, Ne.symm hm]
      · rw [if_neg hp]
  parent_module hp := by
    obtain ⟨y, hy⟩ := H.parent_module (op?_withoutOp_cases hp).2
    exact (exists_module?_withoutOp hy ..).imp fun _ => And.left
  port_value hy hp := by
    obtain ⟨y₀, hy₀, -, hports, -⟩ := module?_withoutOp_cases hy
    exact H.port_value hy₀ (hports ▸ hp)
  port_origin hv := by
    obtain ⟨y, p, hy, hp, hpv⟩ := H.port_origin hv
    obtain ⟨y', hy', hports⟩ := exists_module?_withoutOp hy o op.parent
    exact ⟨y', p, hy', hports ▸ hp, hpv⟩
  result_value hp hi := H.result_value (op?_withoutOp_cases hp).2 hi
  result_origin hv := by
    obtain ⟨hlt, hr⟩ := H.result_origin hv
    exact ⟨by rwa [length_ops_withoutOp], fun q hq => hr q (op?_withoutOp_cases hq).2⟩

end Coherent

end AnnotatedCircuit.Design
