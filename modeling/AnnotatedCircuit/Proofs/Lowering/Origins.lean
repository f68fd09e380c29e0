import AnnotatedCircuit.Proofs.AnchorPool
import AnnotatedCircuit.Proofs.Lowering.References
import AnnotatedCircuit.Proofs.Lowering.Soundness
import AnnotatedCircuit.Proofs.Target.Soundness
import AnnotatedCircuit.Proofs.Wiring.Instances

/-!
# Where anchors begin

A lowering makes anchors for the targets of notes only, and writes them down as the hops of their
paths (`TargetPath.Resolves.spells`). Live instances lead along each of them, in the design before
and after the wiring, from the module of the first hop down to the leaf: an anchor begins at the top
exactly if its path does (`Design.lower_anchors`).
-/

namespace AnnotatedCircuit

namespace TargetPath

variable {d : Design} {hops : List Hop} {os : List OpId} {reached last : Option ModuleId}
  {p : TargetPath} {t : Target}

/-- The first hop is taken in a module of the design. -/
theorem Route.begins (H : d.Built) {hop : Hop} {rest : List Hop}
    (R : Route d d.hierarchy reached hops os last) (h : hops = hop :: rest) :
    ∃ n y, d.module? n = some y ∧ y.name = hop.module := by
  cases R with
  | nil => cases h
  | cons first _ =>
    cases h
    obtain ⟨n, y, -, hy, name, -⟩ := first.exists_first H
    exact ⟨n, y, hy, name⟩

/-- An anchor spelled as a path: its steps are the hops, and its leaf is the module. -/
structure Spells (p : TargetPath) (a : Anchor) : Prop where
  hops : p.hops ≠ []
  path : a.path = p.hops.map Hop.step
  leaf : p.module = some a.leaf

/-- What describes the way to a target is spelled as the path that resolves to it, and the instances
of the way lead along it. -/
theorem Resolves.spells {a : Anchor} (H : d.Built) (R : p.Resolves d d.hierarchy t)
    (far : t.isLocal = false) (described : d.describe t = .ok (a.path, a.leaf)) :
    p.Spells a ∧ ∃ n, d.Anchored a n t.route := by
  cases R with
  | circuit => cases far
  | @entity name route reached m named entity accesses part _ module hops found leaf denoted selected =>
    obtain ⟨x, hx, rfl⟩ := H.exists_of_named found
    obtain ⟨hop, rest, first⟩ : ∃ hop rest, p.hops = hop :: rest := by
      refine List.exists_cons_of_length_pos (hops.length ▸ List.length_pos_iff.mpr fun none => ?_)
      rw [Target.isLocal, none] at far
      cases far
    obtain ⟨n, y, hy, begins⟩ := hops.begins H first
    have L := hops.leads H hx leaf hy (begins.trans (by rw [first]; rfl))
    have owner := (shows_of_selects H.coherent hx denoted selected).entityModule H.coherent hx
    have written : d.describe ⟨entity, part, route⟩ = .ok (p.hops.map Hop.step, x.name) := by
      refine Checked.bind_eq_ok_iff.mpr ⟨m, owner, ?_⟩
      rw [Design.writeRoute, L.written, Design.moduleName, Design.module_eq_ok_iff.mpr hx]
      rfl
    obtain ⟨path, leafName⟩ := Prod.mk.inj (Except.ok.inj (described.symm.trans written))
    exact ⟨⟨first ▸ List.cons_ne_nil _ _, path, leafName ▸ module⟩, n, m, x, path ▸ L, hx,
      leafName.symm⟩

end TargetPath

namespace Design

open Lowering TargetPath

variable {d d' : Design} {options : LowerOptions} {report : Report} {n : Note} {a : Anchor}
  {m : ModuleId} {os : List OpId} {f : OpId → OpId}

/-- Where a way begins that instances lead along: the module of the first step. -/
theorem Anchored.begins (A : d.Anchored a m os) (hp : a.path ≠ []) :
    os ≠ [] ∧ ∃ x, d.module? m = some x ∧ a.path.head?.map PathStep.module = some x.name := by
  obtain ⟨last, x, L, -⟩ := A
  revert L hp
  generalize a.path = path
  rintro hp (_ | ⟨found, module⟩)
  · cases hp rfl
  · exact ⟨List.cons_ne_nil _ _, _, found, congrArg some module.symm⟩

/-- A way begins at the top exactly if the first step is taken in a module of that name. -/
theorem Anchored.eq_top_iff (A : d.Anchored a m os) (H : d.Built) (hp : a.path ≠ [])
    (R : d.Retains d' f) (top : d'.top = d.top) :
    m = d'.top ↔ ∃ x, d'.module? d'.top = some x ∧
      a.path.head?.map PathStep.module = some x.name := by
  obtain ⟨-, x, hx, first⟩ := A.begins hp
  constructor
  · rintro rfl
    obtain ⟨y, hy, name⟩ := R.module hx
    exact ⟨y, hy, name ▸ first⟩
  · rintro ⟨y, hy, e⟩
    obtain ⟨z, hz⟩ := H.coherent.top_module
    obtain ⟨z', hz', name⟩ := R.module hz
    rw [top, hz'] at hy
    cases hy
    rw [top]
    exact H.module_unique hx hz ((Option.some.inj (first.symm.trans e)).trans name)

/-- An anchor that was made for a note is spelled as its target. -/
theorem spells_of_describes {pins : Pins} {v : Verdict} (H : d.Built)
    (hv : d.verdict d.hierarchy options pins n = .ok v) (D : v.Describes d n a) :
    ∃ text p, n.str? Note.targetField = some text ∧ parse? (canonical text) = some p ∧
      p.Spells a ∧ ∃ m os, d.Anchored a m os := by
  obtain ⟨t, rfl, needed, described⟩ := D
  obtain ⟨_, _, -, ht, rfl⟩ := fits_of_verdict hv
  rw [Note.needsAnchor, Bool.and_eq_true, Bool.not_eq_true'] at needed
  obtain ⟨text, htext, located⟩ := Option.bind_eq_some_iff.mp (named_of_target? ht needed.1)
  obtain ⟨p, parsed, R⟩ := locate?_eq_some_iff.mp located
  obtain ⟨spelled, n, A⟩ := R.spells H needed.1 described
  exact ⟨text, p, htext, parsed, spelled, n, _, A⟩

/-- Every anchor that a lowering makes is spelled as the target of a note. Live instances lead along
it down to its leaf, before and after, and they begin at the top exactly if the first hop of the
target is taken in the top module. -/
theorem lower_anchors (H : d.Built) (A : d.Acyclic) (hl : d.lower options = .ok (report, d')) :
    ∃ added, d'.anchors = d.anchors ++ added ∧ ∀ a ∈ added,
      (∃ n ∈ d.pending, ∃ text p, n.str? Note.targetField = some text ∧
        parse? (canonical text) = some p ∧ p.Spells a) ∧
      ∃ m os os', d.Anchored a m os ∧ d'.Anchored a m os' ∧ os' ≠ [] ∧
        (m = d'.top ↔ ∃ x, d'.module? d'.top = some x ∧
          a.path.head?.map PathStep.module = some x.name) := by
  rcases lower_outcome hl with rfl | ⟨h, s, hh, R, hf⟩
  · exact ⟨[], (List.append_nil _).symm, nofun⟩
  obtain rfl := Except.ok.inj (hh.symm.trans (Hierarchy.ofDesign_of_acyclic H A))
  have F := (finish_reports hf).1
  obtain ⟨_, _, _, _, hd⟩ := R.aligned.design
  obtain ⟨f, wired⟩ : ∃ f, d.Retains d' f := by
    obtain ⟨p, _, -, rfl⟩ := exists_plan_of_finish hf
    rw [hd]
    exact (retains_annotated ..).exists_trans (Wiring.realize_retains ..)
  obtain ⟨added, anchors, made⟩ := R.gained
  refine ⟨added, F.anchors.trans anchors, fun a ha => ?_⟩
  obtain ⟨c, hc, v, hv, D⟩ := made a ha
  obtain ⟨pins, settled⟩ := settlement_eq_verdict hc
  obtain ⟨text, p, htext, parsed, spelled, m, os, B⟩ := spells_of_describes H (settled ▸ hv) D
  have steps : a.path ≠ [] := fun e =>
    spelled.hops (List.map_eq_nil_iff.mp (spelled.path.symm.trans e))
  have B' := wired.anchored B
  have listed : c.note ∈ d.pending :=
    d.map_note_settlements d.hierarchy options .empty d.pending ▸ List.mem_map_of_mem hc
  exact ⟨⟨c.note, listed, text, p, htext, parsed, spelled⟩, m, os, _, B, B', (B'.begins steps).1,
    B.eq_top_iff H steps wired (F.top.trans (by rw [hd]))⟩

/-- Two notes on one wire. The path of the first begins at the top, that of the second midway. -/
def midwayNotes : Design := (Design.new "Top").edited
  [.newModule "A" .defined, .newModule "B" .defined, .newWire ⟨2⟩ "w" (.uint (some 1)),
    .instantiate ⟨1⟩ "b" ⟨2⟩, .instantiate ⟨0⟩ "a" ⟨1⟩,
    .setNotes [.ofClassAndTarget "circt.test" "Top|Top/a:A/b:B>w",
      .ofClassAndTarget "circt.test" "Top|A/b:B>w"] .empty]

theorem lower_anchors_midwayNotes : midwayNotes.Built ∧ midwayNotes.Acyclic ∧
    ∃ (report : Report) (d' : Design), midwayNotes.lower {} = .ok (report, d') ∧
      (∃ a ∈ d'.anchors, a.path = [⟨"Top", "a"⟩, ⟨"A", "b"⟩] ∧ ∃ os, d'.Anchored a d'.top os) ∧
      ∃ a ∈ d'.anchors, a.path = [⟨"A", "b"⟩] ∧ ∃ m os, m ≠ d'.top ∧ d'.Anchored a m os := by
  have H : midwayNotes.Built := (Built.new "Top").edited _
  have A : midwayNotes.Acyclic := by
    rw [← acyclic_hierarchy_iff H.coherent,
      ← Hierarchy.cycle?_eq_none_iff (closed_hierarchy H.coherent H.childrenKnown).enclosed]
    decide +kernel
  have run : (midwayNotes.lower {}).map (fun r =>
      (r.2.anchors.map Anchor.path, (r.2.module? r.2.top).map Module.name)) =
      .ok ([[⟨"Top", "a"⟩, ⟨"A", "b"⟩], [⟨"A", "b"⟩]], some "Top") := by
    decide +kernel
  cases hl : midwayNotes.lower {} with
  | error e =>
    rw [hl] at run
    cases run
  | ok r =>
    obtain ⟨report, d'⟩ := r
    rw [hl] at run
    obtain ⟨paths, named⟩ := Prod.mk.inj (Except.ok.inj run)
    obtain ⟨x, hx, name⟩ := Option.map_eq_some_iff.mp named
    obtain ⟨added, anchors, made⟩ := lower_anchors H A hl
    have unanchored : midwayNotes.anchors = [] := by rfl
    obtain rfl : d'.anchors = added := by rw [anchors, unanchored, List.nil_append]
    have listed : ∀ path ∈ d'.anchors.map Anchor.path, ∃ a ∈ d'.anchors, a.path = path := fun _ =>
      List.mem_map.mp
    rw [paths] at listed
    obtain ⟨a, ha, whole⟩ := listed [⟨"Top", "a"⟩, ⟨"A", "b"⟩] (by simp)
    obtain ⟨b, hb, part⟩ := listed [⟨"A", "b"⟩] (by simp)
    obtain ⟨-, m, _, os, -, L, -, top⟩ := made a ha
    obtain ⟨-, n, _, os', -, L', -, top'⟩ := made b hb
    refine ⟨H, A, report, d', rfl, ⟨a, ha, whole, os, ?_⟩, b, hb, part, n, os', fun e => ?_, L'⟩
    · rw [← top.mpr ⟨x, hx, by rw [whole, name]; rfl⟩]
      exact L
    · obtain ⟨y, hy, first⟩ := top'.mp e
      rw [hx] at hy
      cases hy
      rw [part, name] at first
      exact absurd (Option.some.inj first) (by decide)

end Design

end AnnotatedCircuit
