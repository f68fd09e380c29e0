import AnnotatedCircuit.Proofs.Lowering.Accounts
import AnnotatedCircuit.Proofs.Wiring.Delivery
import AnnotatedCircuit.Proofs.Wiring.Frame

/-!
# Lowering keeps designs sound

Notes, anchors and symbols play no role in the soundness of a design, and the wiring at the end of a
lowering keeps it (`Design.sound_lower`).
-/

namespace AnnotatedCircuit

open Design Lowering

variable {d d' : Design} {h : Hierarchy} {options : LowerOptions} {s : LowerState} {raw : Nat}
  {ds : List Diagnostic} {report : Report}

theorem Design.Sound.annotated {lag : OpId → Nat} (S : d.Sound lag) (pending : List Note)
    (attachments : Attachments) (anchors : List Anchor) (symbols : NameSupply) :
    Sound { d with pending, attachments, anchors, symbols } lag :=
  ⟨S.coherent.congr rfl rfl rfl rfl, S.visible, S.fits⟩

/-- The design at the end is what carrying out a plan has left. -/
theorem Lowering.exists_plan_of_finish (hf : finish raw s ds = .ok (report, d')) :
    ∃ p errors, Wiring.plan s.design s.table
        (s.requests ++ s.pins.entries.flatMap requestsOfPin) = .ok (p, errors) ∧
      d' = (Wiring.realize s.design p.table p.plan).design := by
  obtain ⟨⟨p, errors⟩, hplan, hdone⟩ := Checked.bind_eq_ok_iff.mp hf
  cases hdone
  exact ⟨p, errors, hplan, rfl⟩

theorem Lowering.sound_finish (S : s.design.Sound fun _ => 0)
    (hh : s.table.hierarchy = s.design.hierarchy) (T : s.table.Right)
    (hf : finish raw s ds = .ok (report, d')) : d'.Sound fun _ => 0 := by
  obtain ⟨p, errors, hplan, rfl⟩ := exists_plan_of_finish hf
  rcases Wiring.plan_cases S hh T (s.requests ++ s.pins.entries.flatMap requestsOfPin) with
    ⟨p', _, hplan', P, -⟩ | ⟨o, hplan', -⟩
  · cases hplan.symm.trans hplan'
    exact (Wiring.realize_steady S P.hierarchy P.table _).sound.design
  · cases hplan.symm.trans hplan'

/-- A lowering that ends either has nothing to do or no hierarchy to do it in, or it settles all notes
and then carries out what they ask for. -/
theorem Design.lower_outcome (hl : d.lower options = .ok (report, d')) :
    d' = { d with pending := [] } ∨ ∃ h s, Hierarchy.ofDesign d = .ok h ∧
      Accounted d h (d.settlements h options .empty d.pending)
        (.start { d with pending := [] } h) s ∧
      finish d.pending.length s
        ((d.settlements h options .empty d.pending).filterMap Settlement.refusal?) =
          .ok (report, d') := by
  by_cases idle : d.pending = []
  · rw [lower, lowerWithin, idle] at hl
    cases hl
    exact .inl rfl
  · cases hh : Hierarchy.ofDesign d with
    | error e =>
      have hempty : d.pending.isEmpty = false := by simpa using idle
      have hh' : Hierarchy.ofDesign { d with pending := [] } = .error e := hh
      rw [lower, lowerWithin] at hl
      simp only [hempty, hh'] at hl
      cases hl
      exact .inl rfl
    | ok h =>
      rcases lower_cases hh idle options with ⟨s, report', d'', -, A, hf, hl'⟩ | ⟨o, hl', -⟩
      · cases hl.symm.trans hl'
        exact .inr ⟨h, s, rfl, A, hf⟩
      · cases hl.symm.trans hl'

/-- When the wiring begins, the design is sound and the table is about it. -/
theorem Lowering.Accounted.ready {cs : List Settlement} (S : d.Sound fun _ => 0)
    (hh : Hierarchy.ofDesign d = .ok h) (A : Accounted d h cs (.start { d with pending := [] } h) s) :
    (s.design.Sound fun _ => 0) ∧ s.table.hierarchy = s.design.hierarchy ∧ s.table.Right := by
  obtain ⟨-, hc, rfl⟩ := (Hierarchy.ofDesign_eq_ok_iff S.coherent).mp hh
  obtain ⟨ht, T⟩ := Wiring.table_of_design S.coherent hh []
  obtain ⟨_, _, _, _, _, _, _, rfl⟩ := A.frame
  exact ⟨S.annotated .., ht, T⟩

/-- Lowering a sound design leaves a sound design, whatever its notes ask for. -/
theorem Design.sound_lower (S : d.Sound fun _ => 0) (hl : d.lower options = .ok (report, d')) :
    d'.Sound fun _ => 0 := by
  rcases lower_outcome hl with rfl | ⟨h, s, hh, A, hf⟩
  · exact S.annotated [] d.attachments d.anchors d.symbols
  · obtain ⟨S', ht, T⟩ := A.ready S hh
    exact sound_finish S' ht T hf

/-- What a lowering leaves of a coherent design that passes the check passes it again. -/
theorem Design.check_lower (H : d.Coherent) (hd : d.check = .ok ())
    (hl : d.lower options = .ok (report, d')) : d'.check = .ok () :=
  let ⟨hv, hf⟩ := (check_eq_ok_iff H).mp hd
  (sound_lower ⟨H, hv, hf⟩ hl).check

end AnnotatedCircuit
