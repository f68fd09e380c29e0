import AnnotatedCircuit.Proofs.Lowering.Accounts

/-!
# Notes that are refused leave no trace

A note that is refused changes what is known of names and the count of unknown classes, and nothing
looks at either (`Agree`). So a lowering without the notes that one lowering refuses goes through
states that agree with those of the first (`drain_accepted`), and ends in the same design
(`Design.lower_accepted`).
-/

namespace AnnotatedCircuit

namespace Lowering

open EStateM (Blind Like)

variable {α : Type} {d d' : Design} {h : Hierarchy} {s s' t t' : LowerState} {n : Note}
  {notes : List Note} {options : LowerOptions}

/-! ### What nothing looks at -/

/-- The states are the same but for what is known of names and the count of unknown classes. -/
def Agree (s s' : LowerState) : Prop :=
  ∃ names unhandled, s' = { s with names, unhandled }

theorem Agree.refl (s : LowerState) : Agree s s := ⟨_, _, rfl⟩

theorem Agree.symm (g : Agree s s') : Agree s' s := by
  obtain ⟨_, _, rfl⟩ := g
  exact ⟨s.names, s.unhandled, rfl⟩

theorem Agree.trans (g : Agree s s') (g' : Agree s' t) : Agree s t := by
  obtain ⟨_, _, rfl⟩ := g
  obtain ⟨names, unhandled, rfl⟩ := g'
  exact ⟨names, unhandled, rfl⟩

theorem blind_ask (question : Design → Except DesignError α) : Blind Agree (ask question) := by
  rintro s _ ⟨names, unhandled, rfl⟩
  rw [ask_apply, ask_apply]
  cases question s.design with
  | ok a => exact .ok a ⟨_, _, rfl⟩
  | error e => exact .error _ ⟨_, _, rfl⟩

theorem blind_anchorName (route : List OpId) (leaf : ModuleId) :
    Blind Agree (anchorName route leaf) := by
  rintro s _ ⟨names, unhandled, rfl⟩
  cases h : AnchorPool.internRoute route leaf (s.pool, s.design) with
  | error e t =>
    rw [anchorName_of_error h, anchorName_of_error (s := { s with names, unhandled }) h]
    exact .error e ⟨_, _, rfl⟩
  | ok a t =>
    rw [anchorName_of_ok h, anchorName_of_ok (s := { s with names, unhandled }) h]
    cases t.2.anchor? a with
    | some x => exact .ok x.name ⟨_, _, rfl⟩
    | none => exact .error _ ⟨_, _, rfl⟩

theorem blind_attachedFields (t : Target) (fields : List (String × Json)) (kept : Note) :
    Blind Agree (attachedFields t fields kept) := by
  induction fields generalizing kept with
  | nil => exact .pure kept
  | cons field fields ih =>
    rw [attachedFields]
    split
    · exact ih _
    · split
      · exact ih _
      · exact .bind (blind_ask _) fun leaf => .bind (blind_anchorName _ _) fun name => ih _

theorem blind_enter (n : Note) (v : Verdict) : Blind Agree (v.enter n) := by
  cases v with
  | attach t =>
    refine .bind (blind_attachedFields _ _ _) fun kept => .modify ?_
    rintro s _ ⟨names, unhandled, rfl⟩
    exact ⟨names, unhandled, rfl⟩
  | source pin v | sink pin v =>
    refine .modify ?_
    rintro s _ ⟨names, unhandled, rfl⟩
    exact ⟨names, unhandled, rfl⟩
  | drop => exact .pure ()

/-- Notes are lowered alike in states that agree. -/
theorem lowerNote_agree (A : Aligned d h s) (A' : Aligned d h s') (g : Agree s s')
    (options : LowerOptions) (n : Note) :
    Like Agree (lowerNote options .builtin n s) (lowerNote options .builtin n s') := by
  obtain ⟨_, _, rfl⟩ := g
  obtain ⟨r, -, hr⟩ := Asks.judgeNote (d := d) (h := h) options n
  obtain ⟨names, unhandled, -, judged⟩ := hr A
  obtain ⟨names', unhandled', -, judged'⟩ := hr A'
  have g' : Agree { s with names, unhandled } { s with names := names', unhandled := unhandled' } :=
    ⟨_, _, rfl⟩
  rw [lowerNote_eq]
  cases hrs : r s.pins with
  | error e =>
    rw [hrs] at judged judged'
    rw [EStateM.bind_of_error judged, EStateM.bind_of_error judged']
    exact .error e g'
  | ok v =>
    rw [hrs] at judged judged'
    rw [EStateM.bind_of_ok judged, EStateM.bind_of_ok judged']
    exact blind_enter n v _ _ g'

/-! ### Two runs -/

/-- What holds whenever the next note is lowered: nothing was made that has to come first. -/
structure Steady (d : Design) (h : Hierarchy) (s : LowerState) : Prop where
  aligned : Aligned d h s
  pooled : Pooled d s
  idle : s.spawned = []

theorem Steady.start (d : Design) (h : Hierarchy) (pending : List Note) :
    Steady d h (.start { d with pending } h) :=
  ⟨.start d h pending, .start .., rfl⟩

/-- A note that is refused leaves a state that agrees with the one before. -/
theorem Steady.lowerNote (S : Steady d h s) (options : LowerOptions) (n : Note) :
    (∃ t, Lowering.lowerNote options .builtin n s = .ok () t ∧ Steady d h t) ∨
    (∃ e t, Lowering.lowerNote options .builtin n s = .error (.failure e) t ∧ Agree s t ∧
      Steady d h t) ∨
    ∃ o t, Lowering.lowerNote options .builtin n s = .error (.overflow o) t := by
  have L := lowerNote_lowers S.aligned S.pooled options n
  generalize d.verdict h options s.pins n = r at L
  generalize Lowering.lowerNote options .builtin n s = x at L
  cases L with
  | entered right E =>
    refine .inl ⟨_, rfl, E.aligned ⟨S.aligned.design, S.aligned.hierarchy, right⟩, E.pooled, ?_⟩
    obtain ⟨_, _, _, _, _, rfl⟩ := E.frame
    exact S.idle
  | refused e right =>
    exact .inr (.inl ⟨e, _, rfl, ⟨_, _, rfl⟩,
      ⟨S.aligned.design, S.aligned.hierarchy, right⟩, S.pooled, S.idle⟩)
  | immeasurable o t | nameless _ o t => exact .inr (.inr ⟨o, t, rfl⟩)

theorem Steady.of_ok (S : Steady d h s) (hn : Lowering.lowerNote options .builtin n s = .ok () t) :
    Steady d h t := by
  rcases S.lowerNote options n with ⟨t', hn', S'⟩ | ⟨e, t', hn', -⟩ | ⟨o, t', hn'⟩
  · cases hn.symm.trans hn'
    exact S'
  · cases hn.symm.trans hn'
  · cases hn.symm.trans hn'

/-- The notes of a list as they are lowered one after the other, each with the failure that is
reported about it, if there is one. -/
def outcomes (options : LowerOptions) : List Note → LowerState → List (Note × Option LowerError)
  | [], _ => []
  | n :: rest, s =>
    match Lowering.lowerNote options .builtin n s with
    | .ok _ s => (n, none) :: outcomes options rest s
    | .error (.failure e) s => (n, some e) :: outcomes options rest s
    | .error (.overflow _) _ => []

/-- The notes without a failure. -/
def accepted (os : List (Note × Option LowerError)) : List Note :=
  os.filterMap fun (n, fault) => if fault.isNone then some n else none

/-- The failures, with their notes. -/
def refusals (os : List (Note × Option LowerError)) : List Diagnostic :=
  os.filterMap fun (n, fault) => fault.map fun e => ⟨e, some n⟩

/-- Failures of notes are told from what concerns no note. -/
theorem filter_refusals (os : List (Note × Option LowerError)) {later : List Diagnostic}
    (unnoted : ∀ x ∈ later, x.note = none) :
    (refusals os ++ later).filter (·.note.isSome) = refusals os ∧
      (refusals os ++ later).filter (·.note.isNone) = later := by
  have noted : ∀ x ∈ refusals os, ∃ n, x.note = some n := by
    intro x hx
    obtain ⟨⟨n, fault⟩, -, e⟩ := List.mem_filterMap.mp hx
    obtain ⟨_, -, rfl⟩ := Option.map_eq_some_iff.mp e
    exact ⟨n, rfl⟩
  rw [List.filter_append, List.filter_append]
  constructor
  · rw [List.filter_eq_self.mpr, List.filter_eq_nil_iff.mpr, List.append_nil]
    · intro x hx
      simp [unnoted x hx]
    · intro x hx
      obtain ⟨n, hn⟩ := noted x hx
      simp [hn]
  · rw [List.filter_eq_nil_iff.mpr, List.nil_append, List.filter_eq_self.mpr]
    · intro x hx
      simp [unnoted x hx]
    · intro x hx
      obtain ⟨n, hn⟩ := noted x hx
      simp [hn]

/-- Lowering only the notes that are accepted leads to a state that agrees with the one that
lowering all of them leads to. -/
theorem drain_accepted {budget budget' : Nat} {ds : List Diagnostic} (S : Steady d h s)
    (S' : Steady d h s') (g : Agree s s')
    (enough : (accepted (outcomes options notes s)).length ≤ budget')
    (hd : drain options .builtin budget notes s = .ok (t, ds)) :
    (outcomes options notes s).map Prod.fst = notes ∧ ds = refusals (outcomes options notes s) ∧
      ∃ t', drain options .builtin budget' (accepted (outcomes options notes s)) s' = .ok (t', []) ∧
        Agree t t' := by
  induction notes generalizing s s' budget budget' ds with
  | nil =>
    have hd : (.ok (s, []) : Except Abort (LowerState × List Diagnostic)) = .ok (t, ds) := by
      rw [← hd]
      cases budget <;> rfl
    cases hd
    refine ⟨rfl, rfl, s', ?_, g⟩
    cases budget' <;> rfl
  | cons n notes ih =>
    cases budget with
    | zero => cases hd
    | succ budget =>
      rcases S.lowerNote options n with ⟨t₁, hn, S₁⟩ | ⟨e, t₁, hn, g₁, S₁⟩ | ⟨o, t₁, hn⟩
      · have ho : outcomes options (n :: notes) s = (n, none) :: outcomes options notes t₁ := by
          rw [outcomes, hn]
        rw [ho] at enough ⊢
        obtain ⟨budget', rfl⟩ := Nat.exists_eq_succ_of_ne_zero (Nat.ne_zero_of_lt enough)
        have like := lowerNote_agree S.aligned S'.aligned g options n
        rw [hn] at like
        generalize hn' : lowerNote options .builtin n s' = r at like
        cases like with
        | ok _ g₁ =>
          rw [drain_step_of_ok S₁.idle hn] at hd
          obtain ⟨all, hds, t', ht', gt⟩ :=
            ih S₁ (S'.of_ok hn') g₁ (Nat.le_of_succ_le_succ enough) hd
          refine ⟨congrArg (n :: ·) all, hds, t', ?_, gt⟩
          exact (drain_step_of_ok (S'.of_ok hn').idle hn').trans ht'
      · have ho : outcomes options (n :: notes) s = (n, some e) :: outcomes options notes t₁ := by
          rw [outcomes, hn]
        rw [ho] at enough ⊢
        rw [drain_step_of_failure S₁.idle hn] at hd
        obtain ⟨⟨t₂, ds₂⟩, hrest, e₂⟩ := Checked.bind_eq_ok_iff.mp hd
        cases e₂
        obtain ⟨all, hds, t', ht', gt⟩ := ih S₁ S' (g₁.symm.trans g) enough hrest
        exact ⟨congrArg (n :: ·) all, congrArg (⟨e, some n⟩ :: ·) hds, t', ht', gt⟩
      · rw [drain, hn] at hd
        cases hd

/-! ### The end of both runs -/

/-- The wiring and what it reports do not depend on what states may differ in. -/
theorem finish_agree {raw : Nat} {ds : List Diagnostic} {report : Report} (g : Agree s s')
    (hf : finish raw s ds = .ok (report, d')) (raw' : Nat) :
    ∃ report', finish raw' s' [] = .ok (report', d') ∧
      report.diagnostics = ds ++ report'.diagnostics := by
  obtain ⟨names, unhandled, rfl⟩ := g
  obtain ⟨⟨planning, errors⟩, hplan, hdone⟩ := Checked.bind_eq_ok_iff.mp hf
  cases hdone
  refine ⟨_, Checked.bind_eq_ok_iff.mpr ⟨_, hplan, rfl⟩, ?_⟩
  simp only [List.append_assoc, List.nil_append]

theorem realize_empty (d : Design) (table : PathTable) :
    Wiring.realize d table .empty = ⟨d, table, .empty, .empty, {}, []⟩ := by
  have idle : ∀ ms : List ModuleId, ms.forM Wiring.Realize.visit ⟨d, table, .empty, .empty, {}, []⟩ =
      .ok () ⟨d, table, .empty, .empty, {}, []⟩ := by
    intro ms
    induction ms with
    | nil => rfl
    | cons m ms ih => exact (EStateM.bind_of_ok rfl).trans ih
  rw [Wiring.realize, idle]

/-- Where nothing was asked for, the wiring changes nothing and has nothing to report. -/
theorem finish_start {raw : Nat} {report : Report}
    (hf : finish raw (.start d h) [] = .ok (report, d')) : d' = d ∧ report.diagnostics = [] := by
  obtain ⟨⟨planning, errors⟩, hplan, hdone⟩ := Checked.bind_eq_ok_iff.mp hf
  have hplan : Except.ok (ε := Overflow) (⟨.ofHierarchy h, .empty⟩, []) = .ok (planning, errors) :=
    hplan
  cases hplan
  have unchanged := realize_empty d (.ofHierarchy h)
  cases hdone
  dsimp only [LowerState.start]
  rw [unchanged]
  exact ⟨rfl, rfl⟩

end Lowering

open Lowering

namespace Design

variable {d d' : Design} {h : Hierarchy} {options : LowerOptions} {report : Report}

/-- How the notes of a design end that are lowered one after the other. -/
def outcomes (d : Design) (h : Hierarchy) (options : LowerOptions) :
    List (Note × Option LowerError) :=
  Lowering.outcomes options d.pending (.start { d with pending := [] } h)

/-- A lowering of the notes that are accepted alone ends in the same design, and reports what was
reported about no note. -/
theorem lower_accepted_of_ofDesign (hh : Hierarchy.ofDesign d = .ok h)
    (hl : d.lower options = .ok (report, d')) :
    (d.outcomes h options).map Prod.fst = d.pending ∧
      report.diagnostics.filter (·.note.isSome) = refusals (d.outcomes h options) ∧
      ∃ report', { d with pending := accepted (d.outcomes h options) }.lower options =
          .ok (report', d') ∧
        report'.diagnostics = report.diagnostics.filter (·.note.isNone) := by
  by_cases idle : d.pending = []
  · have hd : (.ok (⟨{}, []⟩, { d with pending := [] }) : Except Abort (Report × Design)) =
        .ok (report, d') := by
      rw [← hl, lower, lowerWithin, idle]
      rfl
    cases hd
    rw [outcomes, idle]
    exact ⟨rfl, rfl, _, rfl, rfl⟩
  · rw [lower_of_pending hh idle] at hl
    obtain ⟨⟨s, ds⟩, hdrain, hl⟩ := Checked.bind_eq_ok_iff.mp hl
    have hfinish : finish d.pending.length s ds = .ok (report, d') := by
      dsimp only at hl
      cases hf : finish d.pending.length s ds with
      | ok r => rw [hf] at hl; cases hl; rfl
      | error o => rw [hf] at hl; cases hl
    have S := Steady.start d h []
    obtain ⟨all, rfl, t, ht, g⟩ : (d.outcomes h options).map Prod.fst = d.pending ∧
        ds = refusals (d.outcomes h options) ∧ ∃ t, drain options .builtin
          (accepted (d.outcomes h options)).length (accepted (d.outcomes h options))
          (.start { d with pending := [] } h) = .ok (t, []) ∧ Agree s t :=
      drain_accepted S S (.refl _) (Nat.le_refl _) hdrain
    generalize d.outcomes h options = os at *
    obtain ⟨report', hfinish', diagnostics⟩ := finish_agree g hfinish (accepted os).length
    obtain ⟨-, ⟨later, hlater, unnoted⟩, -⟩ := finish_reports hfinish'
    rw [hlater, List.nil_append] at diagnostics
    obtain ⟨noted, others⟩ := diagnostics ▸ filter_refusals os unnoted
    refine ⟨all, noted, ?_⟩
    rw [others]
    cases os' : accepted os with
    | nil =>
      rw [os'] at ht hfinish'
      cases ht
      obtain ⟨rfl, nothing⟩ := finish_start hfinish'
      exact ⟨_, rfl, nothing.symm.trans hlater⟩
    | cons n rest =>
      rw [os'] at ht hfinish'
      refine ⟨report', ?_, hlater⟩
      rw [lower_of_pending (d := { d with pending := n :: rest }) hh (List.cons_ne_nil n rest)]
      refine Checked.bind_eq_ok_iff.mpr ⟨_, ht, ?_⟩
      dsimp only
      rw [hfinish']
      rfl

/-- Notes that are refused leave no trace in the design. -/
theorem lower_accepted (H : d.Built) (A : d.Acyclic)
    (hl : d.lower options = .ok (report, d')) :
    (d.outcomes d.hierarchy options).map Prod.fst = d.pending ∧
      report.diagnostics.filter (·.note.isSome) = refusals (d.outcomes d.hierarchy options) ∧
      ∃ report', { d with pending := accepted (d.outcomes d.hierarchy options) }.lower options =
          .ok (report', d') ∧
        report'.diagnostics = report.diagnostics.filter (·.note.isNone) :=
  lower_accepted_of_ofDesign (Hierarchy.ofDesign_of_acyclic H A) hl

/-- Notes that are accepted, with others in between that are refused: one names nothing, and one
is a second source of a pin, equal to the first. -/
def mixedNotes : Design := allOutcomes.edited
  [.setNotes [.ofClassAndTarget "circt.test" "Top|Top/a:A>none",
    (Note.ofClassAndTarget "firrtl.passes.wiring.SourceAnnotation" "Top|A>w").insert "pin" (.str "p"),
    (Note.ofClassAndTarget "firrtl.passes.wiring.SourceAnnotation" "Top|A>w").insert "pin" (.str "p"),
    .ofClassAndTarget "circt.test" "Top|Top/a:A>w"] .empty]

theorem lower_accepted_mixedNotes : mixedNotes.Built ∧ mixedNotes.Acyclic ∧
    ∃ report report' d', mixedNotes.lower {} = .ok (report, d') ∧
      { mixedNotes with pending := accepted (mixedNotes.outcomes mixedNotes.hierarchy {}) }.lower {} =
        .ok (report', d') ∧
      report.statistics.failures = 2 ∧ report'.diagnostics.length = 0 ∧
      (accepted (mixedNotes.outcomes mixedNotes.hierarchy {})).length = 2 := by
  have H : mixedNotes.Built := ((Built.new "Top").edited _).edited _
  have A : mixedNotes.Acyclic := by
    rw [← acyclic_hierarchy_iff H.coherent,
      ← Hierarchy.cycle?_eq_none_iff (closed_hierarchy H.coherent H.childrenKnown).enclosed]
    decide +kernel
  have run : (mixedNotes.lower {}).map (fun r =>
      (r.1.statistics.failures, (r.1.diagnostics.filter (·.note.isNone)).length)) = .ok (2, 0) := by
    decide +kernel
  cases hl : mixedNotes.lower {} with
  | error e =>
    rw [hl] at run
    cases run
  | ok r =>
    obtain ⟨report, d'⟩ := r
    rw [hl] at run
    obtain ⟨failures, others⟩ := Prod.mk.inj (Except.ok.inj run)
    obtain ⟨-, -, report', hl', same⟩ := lower_accepted H A hl
    refine ⟨H, A, report, report', d', rfl, hl', failures, ?_, by decide +kernel⟩
    rw [same, others]

end Design

end AnnotatedCircuit
