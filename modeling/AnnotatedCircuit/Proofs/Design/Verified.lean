import AnnotatedCircuit.Proofs.Design.Edits
import AnnotatedCircuit.Proofs.Outcome

/-!
# What `Design.check` accepts

In a coherent design the check of all bodies says two things of every live operation: its operands
belong to its module (`Design.Visible`), and an instance has one result for each port of its child
(`Design.Fits`). The second is stated with a lag, the number of results that an instance misses
while its child grows.
-/

namespace AnnotatedCircuit.Design

variable {d : Design} {m : ModuleId} {x : Module} {o : OpId} {op : Op} {v : ValueId}

/-- Every operand belongs to the module of its operation. -/
def Visible (d : Design) : Prop :=
  ∀ {o op v}, d.op? o = some op → v ∈ op.kind.operands → d.valueModule v = .ok op.parent

/-- Every instance has as many results as its child has ports, except for its lag. -/
def Fits (d : Design) (lag : OpId → Nat) : Prop :=
  ∀ {o op c}, d.op? o = some op → op.kind.child? = some c →
    ∃ x, d.module? c = some x ∧ op.results.length + lag o = x.ports.length

theorem checkResults_eq_ok_iff : d.checkResults o op = .ok () ↔
    ∀ c, op.kind.child? = some c →
      ∃ x, d.module? c = some x ∧ x.ports.length = op.results.length := by
  unfold checkResults
  cases op.kind with
  | inst name c =>
    simp only [Checked.bind_eq_ok_iff, module_eq_ok_iff, OpKind.child?, Option.some.injEq,
      forall_eq']
    refine exists_congr fun x => and_congr_right fun _ => ?_
    by_cases hl : x.ports.length = op.results.length <;> simp [hl]
  | _ => simp [OpKind.child?]

theorem checkEntry_eq_ok_iff : d.checkEntry x o = .ok () ↔ ∃ op, d.op? o = some op ∧
    op.parent = x.id ∧ (∀ v ∈ op.kind.operands, d.valueModule v = .ok x.id) ∧
    ∀ c, op.kind.child? = some c →
      ∃ y, d.module? c = some y ∧ y.ports.length = op.results.length := by
  unfold checkEntry
  simp only [Checked.bind_eq_ok_iff, op_eq_ok_iff, ← checkResults_eq_ok_iff (o := o),
    ← checkVisible_eq_ok_iff]
  refine exists_congr fun op => and_congr_right fun _ => ?_
  by_cases hp : op.parent = x.id
  · simp only [hp, ne_eq, not_true_eq_false, if_false, List.forM_eq_forM, Checked.seq_eq_ok_iff,
      Checked.forM_eq_ok_iff, true_and]
  · simp [hp, Checked.bind_eq_ok_iff]

theorem check_eq_ok_iff (H : d.Coherent) : d.check = .ok () ↔ d.Visible ∧ d.Fits fun _ => 0 := by
  have all : d.check = .ok () ↔ ∀ x ∈ d.modules, ∀ o ∈ x.body, d.checkEntry x o = .ok () := by
    simp only [check, List.forM_eq_forM, Checked.forM_eq_ok_iff]
  rw [all]
  constructor
  · intro h
    have entry : ∀ {o op}, d.op? o = some op →
        (∀ v ∈ op.kind.operands, d.valueModule v = .ok op.parent) ∧
        ∀ c, op.kind.child? = some c →
          ∃ y, d.module? c = some y ∧ y.ports.length = op.results.length := by
      intro o op ho
      obtain ⟨x, hx⟩ := H.parent_module ho
      obtain ⟨op', ho', hp, hv, hc⟩ := checkEntry_eq_ok_iff.mp
        (h x (module?_mem hx) o ((H.mem_body hx).mpr ⟨op, ho, rfl⟩))
      rw [ho] at ho'
      cases ho'
      exact ⟨hp ▸ hv, hc⟩
    refine ⟨fun ho hv => (entry ho).1 _ hv, fun ho hc => ?_⟩
    obtain ⟨y, hy, hl⟩ := (entry ho).2 _ hc
    exact ⟨y, hy, hl.symm⟩
  · rintro ⟨hv, hf⟩ x hx o ho
    obtain ⟨i, hi⟩ := List.mem_iff_getElem?.mp hx
    have hx : d.module? ⟨i⟩ = some x := hi
    obtain ⟨op, hop, hp⟩ := (H.mem_body hx).mp ho
    rw [← H.module_id hx] at hp
    refine checkEntry_eq_ok_iff.mpr ⟨op, hop, hp, fun v h => hp ▸ hv hop h, fun c hc => ?_⟩
    obtain ⟨y, hy, hl⟩ := hf hop hc
    exact ⟨y, hy, hl.symm⟩

end AnnotatedCircuit.Design
