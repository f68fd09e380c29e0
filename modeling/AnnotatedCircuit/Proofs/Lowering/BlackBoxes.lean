import AnnotatedCircuit.Proofs.Lowering.Pins
import AnnotatedCircuit.Proofs.Lowering.Soundness
import AnnotatedCircuit.Proofs.Wiring.BareModules

/-!
# External modules in a lowering

An external module has no body. Nothing in a lowering asks for the kind of a module to which a pin
is wired, so that an external module gets a body when a planned request ends in it. If none does,
the module stays as it is (`Design.lower_external`).
-/

namespace AnnotatedCircuit.Design

open Lowering PinEnd

variable {d : Design} {options : LowerOptions}

/-- The bodies of external modules are empty. -/
def Boxed (d : Design) : Prop :=
  ∀ m x, d.module? m = some x → x.kind = .external → x.body = []

/-- What becomes of the external modules of a design in a lowering that wires some requests: the
body of such a module is empty just when no planned request has a side in it, and then the module
stays as it is. Its ports stay the same just when each planned request with a side in it has both
sides there. -/
def ExternalsAfter (d : Design) (rs : List WireRequest) (d' : Design) : Prop :=
  ∀ m x, d.module? m = some x → x.kind = .external →
    ∃ y, d'.module? m = some y ∧ y.kind = .external ∧
      (y.body = [] ↔ ∀ r ∈ rs, d.Plannable r → ∀ role,
        d.valueModule (r.side role) ≠ .ok m) ∧
      (y.ports = x.ports ↔ ∀ r ∈ rs, d.Plannable r → ∀ role,
        d.valueModule (r.side role) = .ok m → ∀ role, d.valueModule (r.side role) = .ok m) ∧
      (y.body = [] → y = x)

/-- A lowering does not ask whether the module is external to which it wires a pin. So an external
module keeps its empty body just when no request that is planned ends in it. -/
theorem lower_external (H : d.Built) (hd : d.check = .ok ()) (A : d.Acyclic) (boxed : d.Boxed)
    (options : LowerOptions) :
    (∃ report d', d.lower options = .ok (report, d') ∧
      d.ExternalsAfter (requests (d.pinEnds d.hierarchy options)) d') ∨
    ∃ o, d.lower options = .error (.overflow o) ∧ d.Strained := by
  have hh := Hierarchy.ofDesign_of_acyclic H A
  obtain ⟨hv, hf⟩ := (check_eq_ok_iff H.coherent).mp hd
  have S : d.Sound fun _ => 0 := ⟨H.coherent, hv, hf⟩
  by_cases idle : d.pending = []
  · refine .inl ⟨⟨{}, []⟩, { d with pending := [] }, by rw [lower, lowerWithin, idle]; rfl, ?_⟩
    intro m x hx external
    have none : requests (d.pinEnds d.hierarchy options) = [] := by
      rw [pinEnds, idle, List.filterMap_nil]
      rfl
    rw [none]
    exact ⟨x, hx, external, iff_of_true (boxed m x hx external) (by simp),
      iff_of_true rfl (by simp), fun _ => rfl⟩
  refine (lower_cases hh idle options).imp_left ?_
  rintro ⟨s, report, d', hdrain, R, hfinish, hlower⟩
  refine ⟨report, d', hlower, fun m x hx external => ?_⟩
  have C : Collected s.pins (d.pinEnds d.hierarchy options) :=
    Collected.empty.drained (Steady.start d d.hierarchy []) hdrain
  obtain ⟨S', ht, T⟩ := R.ready S hh
  obtain ⟨_, _, _, _, _, _, _, rfl⟩ := R.frame
  obtain ⟨-, p, errors, hplan, rfl, -, -⟩ := C.finished rfl hfinish
  rcases Wiring.plan_cases S' ht T (requests (d.pinEnds d.hierarchy options)) with
    ⟨_, _, hplan', P, -⟩ | ⟨o, hplan', -⟩
  · cases hplan.symm.trans hplan'
    obtain ⟨y, hy, kind, after⟩ := P.bare S' hx (boxed m x hx external)
    exact ⟨y, hy, kind.trans external, after⟩
  · cases hplan.symm.trans hplan'

/-- Two external modules, each with a port and an instance in the top module. One of the ports is
the source of a pin, whose sink is a wire of the top module. -/
def blackBoxes : Design := (Design.new "Top").edited
  [.newModule "E" .external, .newModule "F" .external,
    .newPort ⟨1⟩ ⟨"p", .uint (some 1), .output⟩, .newPort ⟨2⟩ ⟨"p", .uint (some 1), .output⟩,
    .newWire ⟨0⟩ "w" (.uint (some 1)), .instantiate ⟨0⟩ "e" ⟨1⟩, .instantiate ⟨0⟩ "f" ⟨2⟩,
    .setNotes [endNote "firrtl.passes.wiring.SourceAnnotation" "Top|E>p" "q",
      endNote Handlers.pinSinkClass "Top|Top>w" "q"] .empty]

/-- The pin is wired without a failure, from the inside of one external module. It gets a port and a
body, and the other one stays as it is. -/
theorem lower_external_blackBoxes : blackBoxes.Built ∧ blackBoxes.check = .ok () ∧
    blackBoxes.Acyclic ∧ blackBoxes.Boxed ∧
    ∃ report d', blackBoxes.lower {} = .ok (report, d') ∧ report.statistics.failures = 0 ∧
      blackBoxes.ExternalsAfter [⟨⟨0⟩, ⟨2⟩, false, "q"⟩] d' ∧
      d'.module? ⟨1⟩ = some ⟨⟨1⟩, "E", .external, [⟨⟨"p", .uint (some 1), .output⟩, ⟨0⟩⟩,
        ⟨⟨"q", .uint (some 1), .output⟩, ⟨5⟩⟩], [⟨3⟩]⟩ ∧
      d'.module? ⟨2⟩ = blackBoxes.module? ⟨2⟩ := by
  have H : blackBoxes.Built := (Built.new "Top").edited _
  have hd : blackBoxes.check = .ok () := by decide +kernel
  have A : blackBoxes.Acyclic :=
    (acyclic_iff H.coherent H.childrenKnown).mpr (by decide +kernel)
  have boxed : blackBoxes.Boxed := by
    have all : ∀ x ∈ blackBoxes.modules, x.kind = .external → x.body = [] := by decide +kernel
    exact fun m x hx => all x (module?_mem hx)
  have asked : requests (blackBoxes.pinEnds blackBoxes.hierarchy {}) =
      [⟨⟨0⟩, ⟨2⟩, false, "q"⟩] := by decide +kernel
  have run : (blackBoxes.lower {}).map (fun r =>
      (r.1.statistics.failures, [r.2.module? ⟨1⟩, r.2.module? ⟨2⟩])) =
      .ok (0, [some ⟨⟨1⟩, "E", .external, [⟨⟨"p", .uint (some 1), .output⟩, ⟨0⟩⟩,
        ⟨⟨"q", .uint (some 1), .output⟩, ⟨5⟩⟩], [⟨3⟩]⟩, blackBoxes.module? ⟨2⟩]) := by
    decide +kernel
  rcases lower_external H hd A boxed {} with ⟨report, d', hlower, after⟩ | ⟨o, hlower, -⟩
  · rw [hlower] at run
    rw [asked] at after
    obtain ⟨none, modules⟩ := Prod.mk.inj (Except.ok.inj run)
    obtain ⟨grown, rest⟩ := List.cons.inj modules
    exact ⟨H, hd, A, boxed, report, d', hlower, none, after, grown, (List.cons.inj rest).1⟩
  · rw [hlower] at run
    cases run

end AnnotatedCircuit.Design
