import Mathlib.Algebra.Order.BigOperators.Group.List
import Mathlib.Algebra.Order.Group.Nat
import AnnotatedCircuit.Lowering.Run
import AnnotatedCircuit.Proofs.Lowering.Worklist
import AnnotatedCircuit.Proofs.Note.Moving
import AnnotatedCircuit.Proofs.Wiring.PlanBounds

/-!
# How a lowering ends

A lowering of any design with any options ends with a report, and never for want of budget. It
overflows only if a type has too many parts to number them, if the names for anchors may run out, or
if a module may get as many names as there are words (`Design.lower_ends`).
-/

namespace AnnotatedCircuit

open Lowering

/-- What may be too much for a lowering: a type that cannot be measured, more notes than there is
room for anchors, or a module with too many names. -/
def Design.Strained (d : Design) : Prop :=
  ¬d.Measurable ∨ d.symbols.room AnchorPool.hint < d.pending.length ∨
    d.Crowded (2 * d.modules.length * d.pending.length)

namespace Lowering

variable {d : Design} {h : Hierarchy} {options : LowerOptions} {s s' : LowerState} {raw : Nat}
  {ds : List Diagnostic} {cs : List Settlement}

/-! ### Requests of pins -/

/-- The number of sinks under all pins. -/
def sinkCount (pins : Pins) : Nat := (pins.entries.map fun e => e.2.sinks.length).sum

theorem length_requests_le (pins : Pins) :
    (pins.entries.flatMap requestsOfPin).length ≤ sinkCount pins := by
  rw [List.length_flatMap, sinkCount]
  refine List.sum_le_sum fun e _ => ?_
  obtain ⟨name, source, sinks⟩ := e
  cases source <;> simp [requestsOfPin]

/-- A note enters one sink at most. -/
theorem sinkCount_record (pins : Pins) (c : Settlement) :
    sinkCount (c.record pins) ≤ sinkCount pins + 1 := by
  have step : ∀ (pin : String) (f : Option Pin → Pin),
      (∀ p, (f p).sinks.length ≤ ((p.map fun p => p.sinks.length).getD 0) + 1) →
      sinkCount (pins.update pin f) ≤ sinkCount pins + 1 := by
    intro pin f hf
    have hsum := OrderedMap.sum_updateEntries (fun p : Pin => p.sinks.length) pin f pins.entries
    have := hf (OrderedMap.lookup pin pins.entries)
    change sinkCount (pins.update pin f) + _ = sinkCount pins + _ at hsum
    omega
  obtain ⟨n, r⟩ := c
  cases r with
  | error e => exact Nat.le_succ _
  | ok v =>
    cases v with
    | source pin value => exact step pin _ fun p => by cases p <;> simp
    | sink pin value => exact step pin _ fun p => by cases p <;> simp
    | _ => exact Nat.le_succ _

theorem sinkCount_foldl_record (cs : List Settlement) (pins : Pins) :
    sinkCount (cs.foldl Settlement.record pins) ≤ sinkCount pins + cs.length := by
  induction cs generalizing pins with
  | nil => exact Nat.le_refl _
  | cons c cs ih =>
    have h₁ := ih (c.record pins)
    have h₂ := sinkCount_record pins c
    rw [List.foldl_cons, List.length_cons]
    omega

/-! ### The end of a lowering -/

theorem length_modules_of_ofDesign (hh : Hierarchy.ofDesign d = .ok h) :
    h.modules.length = d.modules.length := by
  obtain ⟨_, -, hh⟩ := Checked.bind_eq_ok_iff.mp hh
  dsimp only at hh
  split at hh
  · obtain rfl := Checked.pure_eq_ok_iff.mp hh
    exact List.length_map ..
  · obtain ⟨_, -, hh⟩ := Checked.bind_eq_ok_iff.mp hh
    cases hh

/-- The requests are planned and carried out, unless a module has as many names as there are words,
with those of the ports planned for it so far. -/
theorem full_of_finish {o : Overflow} (h : finish raw s ds = .error o) :
    ∃ m, (Wiring.planningEnd s.design 0 (s.requests ++ s.pins.entries.flatMap requestsOfPin)
      ⟨s.table, .empty⟩).plan.Full s.design m := by
  refine Wiring.planFrom_full (o := o) (.start s.design s.table) ?_
  cases hplan : Wiring.plan s.design s.table
      (s.requests ++ s.pins.entries.flatMap requestsOfPin) with
  | ok r =>
    simp only [finish, hplan] at h
    cases h
  | error o' =>
    simp only [finish, hplan] at h
    cases h
    exact hplan

/-- The requests are planned and carried out, unless a module may get too many names. -/
theorem finish_cases (T : s.table.Right) (raw : Nat) (ds : List Diagnostic) :
    (∃ report d', finish raw s ds = .ok (report, d')) ∨ ∃ o, finish raw s ds = .error o ∧
      s.design.Crowded (2 * s.table.hierarchy.modules.length *
        (s.requests ++ s.pins.entries.flatMap requestsOfPin).length) := by
  unfold finish
  cases hplan : Wiring.plan s.design s.table
      (s.requests ++ s.pins.entries.flatMap requestsOfPin) with
  | ok r => exact .inl ⟨_, _, by simp only [hplan]; rfl⟩
  | error o => exact .inr ⟨o, by simp only [hplan]; rfl, Wiring.plan_crowded T hplan⟩

end Lowering

namespace Design

variable {d : Design} {h : Hierarchy} {options : LowerOptions}

theorem length_settlements (d : Design) (h : Hierarchy) (options : LowerOptions) (pins : Pins)
    (notes : List Note) : (d.settlements h options pins notes).length = notes.length := by
  rw [← List.length_map, map_note_settlements]

/-- A lowering with notes on a design with a hierarchy: the notes are lowered one after the other,
then the requests are planned and carried out. -/
theorem lowerWithin_of_pending (hh : Hierarchy.ofDesign d = .ok h) (some : d.pending ≠ [])
    (options : LowerOptions) (handlers : Handlers) (budget : Nat) :
    d.lowerWithin options handlers budget =
      (drain options handlers budget d.pending (.start { d with pending := [] } h) >>=
        fun (s, ds) => (finish d.pending.length s ds).mapError .overflow) := by
  have hempty : d.pending.isEmpty = false := by simpa using some
  have hh' : Hierarchy.ofDesign { d with pending := [] } = .ok h := hh
  rw [lowerWithin]
  simp only [hempty, hh']
  rfl

theorem lower_of_pending (hh : Hierarchy.ofDesign d = .ok h) (some : d.pending ≠ [])
    (options : LowerOptions) : d.lower options =
      (drain options .builtin d.pending.length d.pending (.start { d with pending := [] } h) >>=
        fun (s, ds) => (finish d.pending.length s ds).mapError .overflow) :=
  lowerWithin_of_pending hh some options .builtin _

/-- Either all notes are settled and the lowering ends with a report, or something is too much. -/
theorem lower_cases (hh : Hierarchy.ofDesign d = .ok h) (some : d.pending ≠ [])
    (options : LowerOptions) :
    (∃ s report d', drain options .builtin d.pending.length d.pending
          (.start { d with pending := [] } h) =
        .ok (s, (d.settlements h options .empty d.pending).filterMap Settlement.refusal?) ∧
      Accounted d h (d.settlements h options .empty d.pending)
        (.start { d with pending := [] } h) s ∧
      finish d.pending.length s
        ((d.settlements h options .empty d.pending).filterMap Settlement.refusal?) =
          .ok (report, d') ∧ d.lower options = .ok (report, d')) ∨
    ∃ o, d.lower options = .error (.overflow o) ∧ d.Strained := by
  rw [lower_of_pending hh some]
  have P : Pooled d (.start { d with pending := [] } h) := .start ..
  rcases drain_cases options (Aligned.start d h []) P rfl (Nat.le_refl d.pending.length) with
    ⟨s, hdrain, R⟩ | ⟨o, hdrain, cause⟩
  · obtain ⟨rank, ranked⟩ := (Hierarchy.ofDesign_cases hh).2
    have T : s.table.Right := by
      obtain ⟨_, _, _, _, _, _, _, rfl⟩ := R.frame
      exact .ofHierarchy ranked
    rcases finish_cases T d.pending.length _ with ⟨report, d', hfinish⟩ | ⟨o, hfinish, full⟩
    · refine .inl ⟨s, report, d', hdrain, R, hfinish, ?_⟩
      rw [hdrain]
      exact congrArg (Except.mapError Abort.overflow) hfinish
    · refine .inr ⟨o, ?_, .inr (.inr ?_)⟩
      · rw [hdrain]
        exact congrArg (Except.mapError Abort.overflow) hfinish
      · have hpins : s.pins = (d.settlements h options .empty d.pending).foldl Settlement.record
            .empty := R.pins
        have few : (s.pins.entries.flatMap requestsOfPin).length ≤ d.pending.length := by
          have h₁ := length_requests_le s.pins
          have h₂ := sinkCount_foldl_record (d.settlements h options .empty d.pending) .empty
          rw [length_settlements, ← hpins] at h₂
          exact Nat.le_trans h₁ (Nat.le_trans h₂ (Nat.zero_add _).le)
        obtain ⟨_, _, _, _, _, _, _, rfl⟩ := R.frame
        refine Crowded.mono (d := d) full (Nat.mul_le_mul ?_ few)
        exact Nat.mul_le_mul_left 2 (length_modules_of_ofDesign hh).le
  · refine .inr ⟨o, ?_, cause.imp_right .inl⟩
    rw [hdrain]
    rfl

/-- A lowering ends with a report, unless something is too much for it. -/
theorem lower_ends (d : Design) (options : LowerOptions) :
    (∃ report d', d.lower options = .ok (report, d')) ∨
    ∃ o, d.lower options = .error (.overflow o) ∧ d.Strained := by
  by_cases idle : d.pending = []
  · refine .inl ⟨⟨{}, []⟩, { d with pending := [] }, ?_⟩
    rw [lower, lowerWithin, idle]
    rfl
  · cases hh : Hierarchy.ofDesign d with
    | error e =>
      have hempty : d.pending.isEmpty = false := by simpa using idle
      have hh' : Hierarchy.ofDesign { d with pending := [] } = .error e := hh
      refine .inl ⟨⟨{ raw := d.pending.length, failures := 1 }, [⟨.design e, none⟩]⟩,
        { d with pending := [] }, ?_⟩
      rw [lower, lowerWithin]
      simp only [hempty, hh']
      rfl
    | ok h =>
      rcases lower_cases hh idle options with ⟨_, report, d', -, -, -, h⟩ | overflow
      · exact .inl ⟨report, d', h⟩
      · exact .inr overflow

end Design

end AnnotatedCircuit
