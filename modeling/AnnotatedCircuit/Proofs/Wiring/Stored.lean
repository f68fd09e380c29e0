import AnnotatedCircuit.Proofs.Wiring.Grown
import AnnotatedCircuit.Proofs.Wiring.PlannedTypes

/-!
# The numbers in a wired design

New ports have the types that were planned, and a copy of an instance the types of its original and
of the new ports. So what can be written down of a design beyond its soundness can still be written
down when a plan has been carried out (`realize_stored`).
-/

namespace AnnotatedCircuit.Wiring

open Design

variable {d : Design} {t : PathTable} {p : Plan} {s s' : Realizing} {m : ModuleId}
  {ports : List PlannedPort} {site : Site} {sites : List Site} {op : Op} {types : List SignalType}

namespace Realize

theorem Reissuing.stored (R : Reissuing ports site op types s s') (W : s.design.Stored)
    (typed : ∀ q ∈ ports, q.port.type.Writable) : s'.design.Stored := by
  refine W.reissued R.live R.design (fun t ht => ?_) R.attachments
  obtain ⟨ts, rfl, hts⟩ := R.typed
  rcases List.mem_append.mp ht with ht | ht
  · obtain ⟨i, hi, rfl⟩ := List.getElem_of_mem ht
    obtain ⟨a, ha, h⟩ := valueType_eq_ok_iff.mp (hts.get (hts.length_eq ▸ hi) hi)
    have fits := W.types ha
    rwa [h] at fits
  · obtain ⟨q, hq, rfl⟩ := List.mem_map.mp ht
    exact typed q hq

theorem Replaces.stored (R : Replaces ports sites s s') (W : s.design.Stored)
    (typed : ∀ q ∈ ports, q.port.type.Writable) : s'.design.Stored := by
  induction R with
  | nil => exact W
  | cons _ first _ ih => exact ih (first.stored W typed)

/-- A visit enters ports of the planned types. -/
theorem Visits.stored (V : Visits m s s') (W : s.design.Stored) (T : s.plan.Typed) :
    s'.design.Stored := by
  cases V with
  | nothing => exact W
  | work found filled replaced =>
    refine replaced.stored (Stored.filled ?_ filled.design) (T m)
    refine W.enterPorts (fun p hp => ?_) ..
    obtain ⟨q, hq, rfl⟩ := List.mem_map.mp hp
    exact T m q hq

/-- No port is planned while a plan is carried out. -/
theorem Visits.typed (V : Visits m s s') (T : s.plan.Typed) : s'.plan.Typed := by
  have erased : (withoutChanges s m).plan.Typed := by
    intro m' q hq
    rw [withoutChanges, Plan.changesOf_erase] at hq
    split at hq
    · exact absurd hq List.not_mem_nil
    · exact T m' q hq
  cases V with
  | nothing => exact erased
  | work _ filled replaced =>
    intro m' q hq
    rw [replaced.ports_changesOf, filled.plan] at hq
    exact erased m' q hq

end Realize

theorem realize_stored (S : d.Sound fun _ => 0) (ht : t.hierarchy = d.hierarchy) (T : t.Right)
    (typed : p.Typed) (W : d.Stored) : (realize d t p).design.Stored :=
  (realize_keeps (Q := fun _ s => s.plan.Typed ∧ s.design.Stored) S ht T p ⟨typed, W⟩
    fun _ _ V ⟨typed, W⟩ => ⟨V.typed typed, V.stored W typed⟩).2

end AnnotatedCircuit.Wiring
