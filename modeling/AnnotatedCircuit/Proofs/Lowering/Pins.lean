import AnnotatedCircuit.Proofs.Lowering.Ends

/-!
# What becomes of pins

The ends that the notes of a design name, in the order of the notes, say which requests there will
be (`PinEnd.requests`) and which pins are reported for want of a source (`PinEnd.orphans`), however
the ends of different pins are mixed. For at every point of a lowering the pins hold the first
source and all sinks of the ends so far (`Collected`): each note keeps this when it is lowered
(`Collected.lowered`), and so does a list of notes (`Collected.drained`). Hence what is known of the
pins of a whole lowering (`Design.lower_pins`).
-/

namespace AnnotatedCircuit

open Lowering

namespace PinEnd

variable {es : List PinEnd} {e : PinEnd} {pin : String}

/-- The pins of ends, in the order in which they come up. -/
def pins (es : List PinEnd) : List String := (es.map PinEnd.pin).eraseDups

/-- The first source of a pin. -/
def source? (es : List PinEnd) (pin : String) : Option ValueId :=
  (es.find? fun e => e.pin = pin ∧ e.role = .source).map value

/-- The sinks of a pin, in their order. -/
def sinks (es : List PinEnd) (pin : String) : List ValueId :=
  (es.filter fun e => e.pin = pin ∧ e.role = .sink).map value

/-- A request from the first source of each pin to each of its sinks; a pin that lacks one or the
other gives none. -/
def requests (es : List PinEnd) : List WireRequest :=
  (pins es).flatMap fun pin =>
    match source? es pin with
    | some source => (sinks es pin).map fun sink => ⟨source, sink, false, pin⟩
    | none => []

/-- The pins with sinks and without a source. -/
def orphans (es : List PinEnd) : List String :=
  (pins es).filter fun pin => source? es pin = none ∧ sinks es pin ≠ []

/-- What is reported of a pin with sinks and without a source. -/
def missingSource (pin : String) : Diagnostic :=
  ⟨.rejected Handlers.pinSinkClass (.sinksWithoutSource pin), none⟩

theorem pins_append (es : List PinEnd) (e : PinEnd) :
    pins (es ++ [e]) = if e.pin ∈ pins es then pins es else pins es ++ [e.pin] := by
  simp only [pins, List.map_append, List.map_singleton, List.eraseDups_append, List.mem_eraseDups]
  split <;> simp [List.removeAll, List.eraseDups_cons, -List.mem_map, *]

theorem source?_append (es : List PinEnd) (e : PinEnd) (pin : String) :
    source? (es ++ [e]) pin = (source? es pin).or
      (if e.pin = pin ∧ e.role = .source then some e.value else none) := by
  rw [source?, List.find?_append, source?, Option.map_or]
  congr 1
  by_cases h : e.pin = pin ∧ e.role = .source <;> simp [h]

theorem sinks_append (es : List PinEnd) (e : PinEnd) (pin : String) :
    sinks (es ++ [e]) pin =
      sinks es pin ++ if e.pin = pin ∧ e.role = .sink then [e.value] else [] := by
  rw [sinks, List.filter_append, List.map_append, sinks]
  by_cases h : e.pin = pin ∧ e.role = .sink <;> simp [h]

theorem nodup_pins (es : List PinEnd) : (pins es).Nodup := by
  induction es using List.reverseRecOn with
  | nil => exact List.nodup_nil
  | append_singleton es e ih =>
    rw [pins_append]
    split
    · exact ih
    · rename_i new
      exact List.concat_eq_append ▸ ih.concat new

theorem mem_pins_of_source? (h : source? es pin ≠ none) : pin ∈ pins es := by
  rw [source?, Ne, Option.map_eq_none_iff, List.find?_eq_none, not_forall] at h
  obtain ⟨e, h⟩ := h
  simp only [decide_eq_true_eq, not_forall, not_not] at h
  obtain ⟨he, rfl, -⟩ := h
  exact List.mem_eraseDups.mpr (List.mem_map_of_mem he)

end PinEnd

open PinEnd

/-- What is reported of the wiring: the faults of requests, and then the errors of carrying out
their plan. -/
def Lowering.wiringReport (errors : List LowerError) (done : Wiring.Realizing) : List Diagnostic :=
  errors.map (⟨·, none⟩) ++ done.errors.map fun e => ⟨.design e, none⟩

/-- The pins hold what certain ends amount to. -/
structure Collected (ps : Pins) (es : List PinEnd) : Prop where
  keys : ps.keys = pins es
  found : ∀ pin, (ps.find? pin).getD {} = ⟨source? es pin, sinks es pin⟩

namespace Collected

variable {d : Design} {h : Hierarchy} {options : LowerOptions} {s t : LowerState} {n : Note}
  {ps : Pins} {es : List PinEnd} {e : PinEnd} {pin : String} {w : ValueId}

theorem empty : Collected .empty [] := ⟨rfl, fun _ => rfl⟩

theorem source (C : Collected ps es) (pin : String) :
    (ps.find? pin).bind Pin.source = source? es pin := by
  have h := congrArg Pin.source (C.found pin)
  cases hp : ps.find? pin <;> rw [hp] at h <;> exact h

/-- One more end changes what is held under its pin. -/
theorem update (C : Collected ps es) (f : Pin → Pin)
    (hf : f ⟨source? es e.pin, sinks es e.pin⟩ =
      ⟨source? (es ++ [e]) e.pin, sinks (es ++ [e]) e.pin⟩) :
    Collected (ps.update e.pin fun p => f (p.getD {})) (es ++ [e]) where
  keys := by rw [OrderedMap.keys_update, C.keys, pins_append]
  found pin := by
    rw [OrderedMap.find?_update]
    by_cases hpin : e.pin = pin
    · subst hpin
      rw [if_pos rfl, Option.getD_some, C.found, hf]
    · rw [if_neg hpin, C.found, source?_append, sinks_append]
      simp [hpin]

theorem sink (C : Collected ps es) (pin : String) (w : ValueId) :
    Collected ((Verdict.sink pin w).record ps) (es ++ [⟨pin, .sink, w⟩]) :=
  C.update (e := ⟨pin, .sink, w⟩) (fun p => { p with sinks := p.sinks ++ [w] })
    (by simp [source?_append, sinks_append])

theorem firstSource (C : Collected ps es) (new : source? es pin = none) (w : ValueId) :
    Collected ((Verdict.source pin w).record ps) (es ++ [⟨pin, .source, w⟩]) :=
  C.update (e := ⟨pin, .source, w⟩) (fun p => { p with source := some w })
    (by simp [source?_append, sinks_append, new])

/-- A further source of a pin makes no difference. -/
theorem secondSource (C : Collected ps es) (known : source? es pin ≠ none) (w : ValueId) :
    Collected ps (es ++ [⟨pin, .source, w⟩]) where
  keys := by rw [C.keys, pins_append, if_pos (mem_pins_of_source? known)]
  found pin' := by
    rw [C.found, source?_append, sinks_append]
    by_cases hpin : pin = pin'
    · subst hpin
      obtain ⟨v, hv⟩ := Option.ne_none_iff_exists'.mp known
      simp [hv]
    · simp [hpin]

/-! ### At the end -/

theorem entries (C : Collected ps es) :
    ps.entries = (pins es).map fun pin => (pin, ⟨source? es pin, sinks es pin⟩) := by
  simp only [OrderedMap.entries_eq_map_keys ps {}, C.keys, C.found]

/-- The pins become the requests that the ends amount to. -/
theorem requests (C : Collected ps es) : ps.entries.flatMap requestsOfPin = PinEnd.requests es := by
  rw [C.entries, List.flatMap_map, PinEnd.requests]
  refine congrArg (List.flatMap · (pins es)) (funext fun pin => ?_)
  rw [requestsOfPin]
  cases source? es pin <;> rfl

/-- A pin is reported if it has sinks and no source. -/
theorem faults (C : Collected ps es) :
    ps.entries.filterMap faultOfPin? = (orphans es).map missingSource := by
  rw [C.entries, List.filterMap_map, orphans, ← List.filterMap_eq_map, List.filterMap_filter]
  refine congrArg (List.filterMap · (pins es)) (funext fun pin => ?_)
  rw [Function.comp_apply, faultOfPin?]
  cases source? es pin <;> cases sinks es pin <;> rfl

/-- Where nothing else was asked for, the requests of the pins are made, planned and carried out.
What is reported of pins comes behind what is reported of notes, and before what is reported of the
wiring. -/
theorem finished {raw : Nat} {ds : List Diagnostic} {report : Report} {d' : Design}
    (C : Collected s.pins es) (unasked : s.requests = [])
    (hf : finish raw s ds = .ok (report, d')) :
    s.requests ++ s.pins.entries.flatMap requestsOfPin = PinEnd.requests es ∧ ∃ p errors,
      Wiring.plan s.design s.table (PinEnd.requests es) = .ok (p, errors) ∧
      d' = (Wiring.realize s.design p.table p.plan).design ∧
      report.statistics.requests = (PinEnd.requests es).length ∧
      report.diagnostics = ds ++ (orphans es).map missingSource ++
        wiringReport errors (Wiring.realize s.design p.table p.plan) := by
  have requested : s.requests ++ s.pins.entries.flatMap requestsOfPin = PinEnd.requests es := by
    rw [unasked, List.nil_append, C.requests]
  obtain ⟨⟨p, errors⟩, hplan, hdone⟩ := Checked.bind_eq_ok_iff.mp hf
  rw [requested] at hplan
  cases hdone
  refine ⟨requested, p, errors, hplan, rfl, congrArg List.length requested, ?_⟩
  rw [← C.faults]
  exact List.append_assoc ..

end Collected

/-! ### Turns -/

namespace Lowering

variable {d : Design} {h : Hierarchy} {options : LowerOptions} {s t u : LowerState} {n : Note}
  {before notes : List Note} {es : List PinEnd} {fault : Option LowerError} {ds : List Diagnostic}

/-- A note is lowered in a state: it is accepted, or refused with a fault. -/
inductive Lowered (options : LowerOptions) (n : Note) (s : LowerState) :
    Option LowerError → LowerState → Prop
  | accepted {t : LowerState} :
    lowerNote options .builtin n s = .ok () t → Lowered options n s none t
  | refused {e : LowerError} {t : LowerState} :
    lowerNote options .builtin n s = .error (.failure e) t → Lowered options n s (some e) t

/-- What is reported of a note. -/
def reportOf (n : Note) (fault : Option LowerError) : List Diagnostic :=
  (fault.map fun e => ⟨e, some n⟩).toList

/-- The first note of a list has its turn, and then the others have theirs. -/
theorem Steady.exists_turn (S : Steady d h s)
    (hd : drain options .builtin (n :: notes).length (n :: notes) s = .ok (u, ds)) :
    ∃ fault t later, Lowered options n s fault t ∧ Steady d h t ∧
      drain options .builtin notes.length notes t = .ok (u, later) ∧
      ds = reportOf n fault ++ later := by
  rw [List.length_cons] at hd
  rcases S.lowerNote options n with ⟨t, hn, S'⟩ | ⟨e, t, hn, -, S'⟩ | ⟨o, t, hn⟩
  · rw [drain_step_of_ok S'.idle hn] at hd
    exact ⟨none, t, ds, .accepted hn, S', hd, rfl⟩
  · rw [drain_step_of_failure S'.idle hn] at hd
    obtain ⟨⟨u', later⟩, hrest, he⟩ := Checked.bind_eq_ok_iff.mp hd
    cases he
    exact ⟨some e, t, later, .refused hn, S', hrest, rfl⟩
  · rw [drain, hn] at hd
    cases hd

theorem Lowered.drain_cons (L : Lowered options n s fault t) (idle : t.spawned = [])
    (hd : drain options .builtin notes.length notes t = .ok (u, ds)) :
    drain options .builtin (n :: notes).length (n :: notes) s =
      .ok (u, reportOf n fault ++ ds) := by
  rw [List.length_cons]
  cases L with
  | accepted hn => exact (drain_step_of_ok idle hn).trans hd
  | refused hn =>
    rw [drain_step_of_failure idle hn, hd]
    rfl

/-- A list of notes is lowered part by part. -/
theorem Steady.exists_of_drain_append (S : Steady d h s)
    (hd : drain options .builtin (before ++ notes).length (before ++ notes) s = .ok (u, ds)) :
    ∃ t noted later, drain options .builtin before.length before s = .ok (t, noted) ∧
      Steady d h t ∧ drain options .builtin notes.length notes t = .ok (u, later) ∧
      ds = noted ++ later := by
  induction before generalizing s ds with
  | nil => exact ⟨s, [], ds, rfl, S, hd, rfl⟩
  | cons n before ih =>
    obtain ⟨fault, s', ds', L, S', hd', rfl⟩ := S.exists_turn hd
    obtain ⟨t, noted, later, hbefore, T, hnotes, rfl⟩ := ih S' hd'
    exact ⟨t, _, later, L.drain_cons S'.idle hbefore, T, hnotes, (List.append_assoc ..).symm⟩

/-- How a note is treated when those before it have certain ends: a sink is accepted, and the first
source of a pin; a further source is refused and changes nothing that counts; a note that names no
end leaves the pins as they are. -/
def Treats (es : List PinEnd) (n : Note) (s : LowerState) (fault : Option LowerError)
    (t : LowerState) : Option PinEnd → Prop
  | none => t.pins = s.pins
  | some ⟨_, .sink, _⟩ => fault = none
  | some ⟨pin, .source, _⟩ =>
    if source? es pin = none then fault = none
    else fault = some (.rejected n.className (.secondSource pin)) ∧ Agree s t

end Lowering

namespace Collected

variable {d : Design} {h : Hierarchy} {options : LowerOptions} {s t : LowerState} {n : Note}
  {es : List PinEnd} {notes : List Note} {fault : Option LowerError} {ds : List Diagnostic}

/-- When a note is lowered, its end is collected. -/
theorem lowered (C : Collected s.pins es) (S : Steady d h s) (L : Lowered options n s fault t) :
    Treats es n s fault t (d.pinEnd? h options n) ∧
      Collected t.pins (es ++ (d.pinEnd? h options n).toList) := by
  cases hend : d.pinEnd? h options n with
  | none =>
    have same : t.pins = s.pins := by
      cases L with
      | accepted hn => exact pins_lowerNote S hend hn
      | refused hn =>
        rcases S.lowerNote options n with ⟨_, hn', -⟩ | ⟨_, _, hn', ⟨_, _, rfl⟩, -⟩ | ⟨_, _, hn'⟩
        · cases hn.symm.trans hn'
        · cases hn.symm.trans hn'
          rfl
        · cases hn.symm.trans hn'
    refine ⟨same, ?_⟩
    rw [same, Option.toList_none, List.append_nil]
    exact C
  | some e =>
    obtain ⟨pin, role, w⟩ := e
    cases role with
    | sink =>
      obtain ⟨names, unhandled, hn'⟩ := lowerNote_sink S.aligned hend
      cases L with
      | accepted hn =>
        cases hn.symm.trans hn'
        exact ⟨rfl, C.sink pin w⟩
      | refused hn => cases hn.symm.trans hn'
    | source =>
      by_cases new : source? es pin = none
      · obtain ⟨names, unhandled, hn'⟩ :=
          lowerNote_source S.aligned hend ((C.source pin).trans new)
        cases L with
        | accepted hn =>
          cases hn.symm.trans hn'
          exact ⟨by rw [Treats, if_pos new], C.firstSource new w⟩
        | refused hn => cases hn.symm.trans hn'
      · have known : ((s.pins.find? pin).bind Pin.source).isSome := by
          rw [C.source]
          exact Option.isSome_iff_ne_none.mpr new
        obtain ⟨names, unhandled, hn'⟩ := lowerNote_secondSource S.aligned hend known
        cases L with
        | accepted hn => cases hn.symm.trans hn'
        | refused hn =>
          cases hn.symm.trans hn'
          refine ⟨?_, C.secondSource new w⟩
          rw [Treats, if_neg new]
          exact ⟨rfl, names, unhandled, rfl⟩

/-- When notes are lowered, their ends are collected. -/
theorem drained (C : Collected s.pins es) (S : Steady d h s)
    (hd : drain options .builtin notes.length notes s = .ok (t, ds)) :
    Collected t.pins (es ++ notes.filterMap (d.pinEnd? h options)) := by
  induction notes generalizing s es ds with
  | nil =>
    cases hd
    rw [List.filterMap_nil, List.append_nil]
    exact C
  | cons n notes ih =>
    obtain ⟨fault, s', later, L, S', hd', -⟩ := S.exists_turn hd
    have first : (n :: notes).filterMap (d.pinEnd? h options) =
        (d.pinEnd? h options n).toList ++ notes.filterMap (d.pinEnd? h options) := by
      rw [List.filterMap_cons]
      cases d.pinEnd? h options n <;> rfl
    rw [first, ← List.append_assoc]
    exact ih (C.lowered S L).2 S' hd'

/-- Each note of a list has its turn, in the state that those before it have led to. -/
theorem exists_turn {before after : List Note} {noted : List Diagnostic} (C : Collected s.pins es)
    (S : Steady d h s) (hd : drain options .builtin notes.length notes s = .ok (t, noted))
    (split : notes = before ++ n :: after) : ∃ u u' fault ds later,
      drain options .builtin before.length before s = .ok (u, ds) ∧
      Lowered options n u fault u' ∧ noted = ds ++ reportOf n fault ++ later ∧
      Treats (es ++ before.filterMap (d.pinEnd? h options)) n u fault u'
        (d.pinEnd? h options n) := by
  subst split
  obtain ⟨u, ds, rest, hbefore, U, hrest, rfl⟩ := S.exists_of_drain_append hd
  obtain ⟨fault, u', later, L, -, -, rfl⟩ := U.exists_turn hrest
  refine ⟨u, u', fault, ds, later, hbefore, L, (List.append_assoc ..).symm, ?_⟩
  exact ((C.drained S hbefore).lowered U L).1

end Collected

/-! ### A whole lowering -/

/-- The ends that the notes of a design name, in their order. -/
def Design.pinEnds (d : Design) (h : Hierarchy) (options : LowerOptions) : List PinEnd :=
  d.pending.filterMap (d.pinEnd? h options)

/-- The account of the pins in a lowering that ended with a report and a design. The notes led to
the state `s` and to the diagnostics `noted`, and then the requests were planned as `p`. -/
structure PinAccount (d : Design) (h : Hierarchy) (options : LowerOptions) (s : LowerState)
    (noted : List Diagnostic) (p : Wiring.Planning) (report : Report) (d' : Design) : Prop where
  drained : drain options .builtin d.pending.length d.pending (.start { d with pending := [] } h) =
    .ok (s, noted)
  /-- The requests that are made are those that the ends amount to. -/
  made : s.requests ++ s.pins.entries.flatMap requestsOfPin = requests (d.pinEnds h options)
  counted : report.statistics.requests = (requests (d.pinEnds h options)).length
  /-- No pin is reported twice for want of a source. -/
  once : (orphans (d.pinEnds h options)).Nodup
  /-- These requests are planned and carried out, and no others. Behind the diagnostics of notes
  there is one for each pin with sinks and without a source, and what follows is about the wiring. -/
  wired : ∃ errors later,
    Wiring.plan s.design s.table (requests (d.pinEnds h options)) = .ok (p, errors) ∧
    d' = (Wiring.realize s.design p.table p.plan).design ∧
    report.diagnostics = noted ++ (orphans (d.pinEnds h options)).map missingSource ++ later ∧
    later = wiringReport errors (Wiring.realize s.design p.table p.plan) ∧
    (∀ x ∈ noted, x.note.isSome) ∧
    ∀ x ∈ later, x.note = none ∧ ∀ className fault, x.error ≠ .rejected className fault
  /-- Each note has its turn in the state that those before it have led to, and what is reported of
  it comes behind what is reported of them. -/
  turns : ∀ before n after, d.pending = before ++ n :: after → ∃ t t' fault ds later,
    drain options .builtin before.length before (.start { d with pending := [] } h) = .ok (t, ds) ∧
      Lowered options n t fault t' ∧ noted = ds ++ reportOf n fault ++ later ∧
      Treats (before.filterMap (d.pinEnd? h options)) n t fault t' (d.pinEnd? h options n)

namespace Design

variable {d : Design} {h : Hierarchy} {options : LowerOptions}

theorem fault?_ne_rejected {n : Nat} {r : WireRequest} {className : String} {fault : ApplyFault} :
    d.fault? n r ≠ some (.rejected className fault) := by
  have path : ∀ m, d.pathFault? n m ≠ some (.rejected className fault) := by
    intro m hm
    rw [pathFault?] at hm
    split at hm
    · cases hm
    · split at hm <;> cases hm
  intro hr
  rw [fault?] at hr
  split at hr
  · rcases Option.or_eq_some_iff.mp hr with ha | ⟨-, hb⟩
    · exact path _ ha
    · exact path _ hb
  · cases hr
  · cases hr

/-- The errors of a plan are the faults of its requests. -/
theorem errors_of_plan {t : PathTable} {rs : List WireRequest} {p : Wiring.Planning}
    {errors : List LowerError} (H : d.Coherent) (K : d.ChildrenKnown)
    (ht : t.hierarchy = d.hierarchy) (T : t.Right) (hplan : Wiring.plan d t rs = .ok (p, errors)) :
    errors = d.faults 0 rs := by
  obtain ⟨rank, R⟩ := T.ranked
  rcases Wiring.planFrom_cases H K (ht ▸ R) (.start ht T rs) (Nat.zero_le _) List.drop_zero with
    ⟨p', hplan', -⟩ | ⟨o, hplan', -⟩
  · cases hplan.symm.trans hplan'
    rfl
  · cases hplan.symm.trans hplan'

theorem pinAccount_of_idle (idle : d.pending = []) (h : Hierarchy) (options : LowerOptions) :
    PinAccount d h options (.start { d with pending := [] } h) [] ⟨.ofHierarchy h, .empty⟩ ⟨{}, []⟩
      { d with pending := [] } := by
  have none : d.pinEnds h options = [] := by rw [pinEnds, idle, List.filterMap_nil]
  exact {
    drained := by rw [idle]; rfl
    made := by rw [none]; rfl
    counted := by rw [none]; rfl
    once := by rw [none]; exact List.nodup_nil
    wired := by
      rw [none, realize_empty]
      exact ⟨[], [], rfl, rfl, rfl, rfl, nofun, nofun⟩
    turns := fun before n after split => by
      rw [idle] at split
      cases List.append_ne_nil_of_right_ne_nil before (List.cons_ne_nil n after) split.symm }

/-- When the wiring begins, the table is about the design. -/
theorem Built.ready (H : d.Built) (hh : Hierarchy.ofDesign d = .ok h) {cs : List Settlement}
    {s : LowerState} (R : Accounted d h cs (.start { d with pending := [] } h) s) :
    s.design.Coherent ∧ s.design.ChildrenKnown ∧ s.table.hierarchy = s.design.hierarchy ∧
      s.table.Right := by
  obtain ⟨ht, T⟩ := Wiring.table_of_design H.coherent hh []
  obtain ⟨_, _, _, _, _, _, _, rfl⟩ := R.frame
  exact ⟨H.coherent.congr rfl rfl rfl rfl, H.childrenKnown, ht, T⟩

/-- The pins of a design without cycles become the requests that the ends in its notes amount to,
unless something is too much for the lowering. -/
theorem lower_pins (H : d.Built) (A : d.Acyclic) (options : LowerOptions) :
    (∃ report d' s noted p, d.lower options = .ok (report, d') ∧
      PinAccount d d.hierarchy options s noted p report d') ∨
    ∃ o, d.lower options = .error (.overflow o) ∧ d.Strained := by
  have hh := Hierarchy.ofDesign_of_acyclic H A
  by_cases idle : d.pending = []
  · refine .inl ⟨_, _, _, _, _, ?_, pinAccount_of_idle idle d.hierarchy options⟩
    rw [lower, lowerWithin, idle]
    rfl
  refine (lower_cases hh idle options).imp_left ?_
  rintro ⟨s, report, d', hdrain, R, hfinish, hlower⟩
  have S := Steady.start d d.hierarchy []
  have C : Collected s.pins (d.pinEnds d.hierarchy options) := Collected.empty.drained S hdrain
  have unasked : s.requests = [] := by
    obtain ⟨_, _, _, _, _, _, _, rfl⟩ := R.frame
    rfl
  obtain ⟨made, p, errors, hplan, hd', counted, reported⟩ := C.finished unasked hfinish
  obtain ⟨H', K, ht, T⟩ := H.ready hh R
  refine ⟨report, d', s, _, p, hlower, {
    drained := hdrain
    made, counted
    once := (nodup_pins _).filter _
    wired := ⟨errors, _, hplan, hd', reported, rfl, fun x hx => ?_, fun x hx => ?_⟩
    turns := fun before n after split => Collected.empty.exists_turn S hdrain split }⟩
  · obtain ⟨c, -, hc⟩ := List.mem_filterMap.mp hx
    rw [Settlement.refusal?] at hc
    split at hc <;> cases hc
    rfl
  · rcases List.mem_append.mp hx with hx | hx
    · obtain ⟨e, he, rfl⟩ := List.mem_map.mp hx
      rw [errors_of_plan H' K ht T hplan] at he
      obtain ⟨_, -, he⟩ := List.mem_filterMap.mp he
      refine ⟨rfl, fun className fault rejected => ?_⟩
      cases rejected
      exact fault?_ne_rejected he
    · obtain ⟨e, -, rfl⟩ := List.mem_map.mp hx
      refine ⟨rfl, fun className fault rejected => ?_⟩
      cases rejected

/-- A note for an end of a pin. -/
def endNote (className target pin : String) : Note :=
  (Note.ofClassAndTarget className target).insert pinField (.str pin)

/-- Ends of four pins, mixed: a pin with a sink before its source and with a second source, one with
its source first, one with a sink alone and one with a source alone. -/
def mixedPins : Design := (Design.new "Top").edited
  [.newWire ⟨0⟩ "a" .clock, .newWire ⟨0⟩ "b" .clock, .newWire ⟨0⟩ "x" .clock,
    .newWire ⟨0⟩ "y" .clock,
    .setNotes [endNote Handlers.pinSinkClass "Top|Top>x" "p",
      endNote "firrtl.passes.wiring.SourceAnnotation" "Top|Top>a" "q",
      endNote "firrtl.passes.wiring.SourceAnnotation" "Top|Top>b" "p",
      endNote Handlers.pinSinkClass "Top|Top>y" "q",
      endNote "firrtl.passes.wiring.SourceAnnotation" "Top|Top>a" "p",
      endNote Handlers.pinSinkClass "Top|Top>y" "r",
      endNote Handlers.pinSinkClass "Top|Top>y" "p",
      endNote "firrtl.passes.wiring.SourceAnnotation" "Top|Top>a" "o"] .empty]

theorem lower_pins_mixedPins : mixedPins.Built ∧ mixedPins.Acyclic ∧
    ∃ report d' s noted p, mixedPins.lower {} = .ok (report, d') ∧
      PinAccount mixedPins mixedPins.hierarchy {} s noted p report d' ∧
      requests (mixedPins.pinEnds mixedPins.hierarchy {}) =
        [⟨⟨1⟩, ⟨2⟩, false, "p"⟩, ⟨⟨1⟩, ⟨3⟩, false, "p"⟩, ⟨⟨0⟩, ⟨3⟩, false, "q"⟩] ∧
      orphans (mixedPins.pinEnds mixedPins.hierarchy {}) = ["r"] ∧
      report.statistics.requests = 3 ∧ report.statistics.failures = 2 := by
  have H : mixedPins.Built := (Built.new "Top").edited _
  have A : mixedPins.Acyclic :=
    (acyclic_iff H.coherent H.childrenKnown).mpr (by decide +kernel)
  have counts : (mixedPins.lower {}).map (fun r =>
      (r.1.statistics.requests, r.1.statistics.failures)) = .ok (3, 2) := by
    decide +kernel
  rcases lower_pins H A {} with ⟨report, d', s, noted, p, hlower, account⟩ | ⟨o, hlower, -⟩
  · rw [hlower] at counts
    obtain ⟨three, two⟩ := Prod.mk.inj (Except.ok.inj counts)
    exact ⟨H, A, report, d', s, noted, p, hlower, account, by decide +kernel, by decide +kernel,
      three, two⟩
  · rw [hlower] at counts
    cases counts

end Design

end AnnotatedCircuit
