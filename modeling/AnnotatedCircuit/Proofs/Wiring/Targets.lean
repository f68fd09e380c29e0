import AnnotatedCircuit.Proofs.Target.Continued
import AnnotatedCircuit.Proofs.Wiring.Signatures

/-!
# Wiring does not move targets

Carrying out any plan lets a design go on (`realize_continues`), and the ports planned for requests
shadow no name. So paths go on to name their targets, up to the instances that were replaced, and
anchors go on to lead to their leaves (`targets_realize_plan`).
-/

namespace AnnotatedCircuit

namespace Design

variable {d : Design} {m : ModuleId} {name : String} {e : Entity}

/-- Only the names of a module stand for something. -/
theorem Denotes.mem_namesOf (he : d.Denotes m name e) : name ∈ d.namesOf m := by
  obtain ⟨x, hx, he | ⟨-, he⟩⟩ := denotes_iff.mp he
  · have := List.mem_map_of_mem (f := Prod.fst) (OrderedMap.mem_of_lookup he)
    rw [map_fst_portEntries] at this
    rw [namesOf, hx]
    exact List.mem_append_left _ this
  · obtain ⟨o, ho, hentry⟩ := List.mem_filterMap.mp (OrderedMap.mem_of_lookup he)
    obtain ⟨op, hop, hname⟩ := Option.bind_eq_some_iff.mp hentry
    obtain ⟨n, hn, e⟩ := Option.map_eq_some_iff.mp hname
    obtain rfl := congrArg Prod.fst e
    refine List.mem_append_right _ (List.mem_filterMap.mpr ⟨op, ?_, hn⟩)
    rw [opsIn, hx]
    exact List.mem_filterMap.mpr ⟨o, ho, hop⟩

end Design

namespace Wiring

open Design

variable {d : Design} {h : Hierarchy} {rs : List WireRequest} {m : ModuleId} {p : Plan} {n : Nat}

namespace Realize

variable {s s' : Realizing} {ports : List PlannedPort} {sites : List Site} {done : List ModuleId}

theorem Replaces.continues (R : Replaces ports sites s s') :
    ∃ f, s.design.Continues s'.design f := by
  induction R with
  | nil s => exact ⟨id, .refl _⟩
  | cons _ first _ ih =>
    obtain ⟨ts, htypes, hts⟩ := first.typed
    obtain ⟨f, C⟩ := ih
    have C' := first.design.continues first.live first.child (htypes ▸ List.prefix_append ..) hts
    exact ⟨_, C'.trans C⟩

theorem Visits.continues (V : Visits m s s') : ∃ f, s.design.Continues s'.design f := by
  cases V with
  | nothing => exact ⟨id, .refl _⟩
  | work found filled replaced =>
    obtain ⟨f, C⟩ := replaced.continues
    have C' := (continues_enterPorts s.design m ..).trans filled.design.continues
    exact ⟨_, C'.trans C⟩

/-- Planned ports shadow no name. -/
theorem Grown.unshadowed (G : Grown d p done s) (T : p.Tidy d rs n) :
    d.Unshadowed s.design := by
  intro m x y hx hy q hq e he
  have hold : d.portsOf m = some x.ports := by rw [portsOf, hx, Option.map_some]
  obtain ⟨added, hnew, hadded⟩ := G.ports hold
  rw [portsOf, hy] at hnew
  obtain hports : y.ports = x.ports ++ added := Option.some.inj hnew
  rw [hports, List.drop_left] at hq
  have hq := List.mem_map_of_mem (f := Port.toPortDecl) hq
  rw [hadded] at hq
  split at hq
  · obtain ⟨q', hq', e'⟩ := List.mem_map.mp hq
    have hname : q'.port.name = q.name := congrArg PortDecl.name e'
    exact T.free hq' (hname ▸ he.mem_namesOf)
  · cases hq

end Realize

/-- Carrying out any plan lets a design go on. -/
theorem realize_continues {t : PathTable} (S : d.Sound fun _ => 0)
    (ht : t.hierarchy = d.hierarchy) (T : t.Right) (p : Plan) :
    d.Continues (realize d t p).design (d.standIn (realize d t p).design) := by
  have := realize_keeps (Q := fun _ s => ∃ f, d.Continues s.design f) S ht T p ⟨id, .refl d⟩
    fun _ _ V ⟨f, C⟩ => by
      obtain ⟨g, C'⟩ := V.continues
      exact ⟨_, C.trans C'⟩
  obtain ⟨f, C⟩ := this
  exact C.standIn S.coherent

/-- After the requests are planned and carried out, every operation is there in its place, itself or
replaced; every path that named a target goes on to name it, with replaced instances exchanged; and
so do anchors. Only a module with as many names as there are words stops the planning. -/
theorem targets_realize_plan (H : d.Built) (hd : d.check = .ok ())
    (hh : Hierarchy.ofDesign d = .ok h) (ms : List ModuleId) (rs : List WireRequest) :
    match plan d ((PathTable.ofHierarchy h).asked ms) rs with
    | .error _ => ∃ x ∈ d.modules, Word.limit ≤ x.ports.length + x.body.length + rs.length
    | .ok (s, _) =>
      d.Continues (realize d s.table s.plan).design
        (d.standIn (realize d s.table s.plan).design) ∧
      (∃ h', Hierarchy.ofDesign (realize d s.table s.plan).design = .ok h' ∧
        ∀ path t, d.locate? h path = some t → (realize d s.table s.plan).design.locate? h' path =
          some (t.mapOps (d.standIn (realize d s.table s.plan).design))) ∧
      (realize d s.table s.plan).design.anchors = d.anchors ∧
      ∀ a ∈ d.anchors, ∀ m os, d.Anchored a m os →
        (realize d s.table s.plan).design.Anchored a m
          (os.map (d.standIn (realize d s.table s.plan).design)) := by
  have C := H.coherent
  obtain ⟨hv, hf⟩ := (check_eq_ok_iff C).mp hd
  have S : d.Sound fun _ => 0 := ⟨C, hv, hf⟩
  obtain ⟨ht, T⟩ := table_of_design C hh ms
  obtain ⟨-, hc, rfl⟩ := (Hierarchy.ofDesign_eq_ok_iff C).mp hh
  rcases plan_cases S ht T rs with ⟨s, errors, hplan, P, -⟩ | ⟨o, hplan, hfull⟩
  · rw [hplan]
    have steady := realize_steady S P.hierarchy P.table s.plan
    have on := realize_continues S P.hierarchy P.table s.plan
    have fresh := (realize_grown S P.hierarchy P.table s.plan).unshadowed (plan_tidy hplan)
    refine ⟨on, ⟨_, steady.ofDesign hc, fun path t ht => ?_⟩, on.anchors,
      fun a _ m os A => on.anchored A⟩
    obtain ⟨p, hp, R⟩ := locate?_eq_some_iff.mp ht
    refine locate?_eq_some_iff.mpr ⟨p, hp, on.resolves C steady.sound.design.coherent fresh ?_ R⟩
    intro name
    rw [Hierarchy.named, Hierarchy.named, ← steady.sound.hierarchy, steady.alike.modules]
  · rw [hplan]
    exact hfull

/-- The wire in the instance of the top module. -/
def sourcePath : String := "Top|Top/a:A>src"

theorem targets_realize_plan_upwards : sideInstances.Built ∧ sideInstances.check = .ok () ∧
    Hierarchy.ofDesign sideInstances = .ok sideInstances.hierarchy ∧
    sideInstances.locate? sideInstances.hierarchy sourcePath = some ⟨.op ⟨1⟩, 0, [⟨2⟩]⟩ ∧
    ∃ s errors h', plan sideInstances (.ofHierarchy sideInstances.hierarchy) [upwards] =
        .ok (s, errors) ∧
      Hierarchy.ofDesign (realize sideInstances s.table s.plan).design = .ok h' ∧
      (realize sideInstances s.table s.plan).design.locate? h' sourcePath =
        some (Target.mapOps (sideInstances.standIn (realize sideInstances s.table s.plan).design)
          ⟨.op ⟨1⟩, 0, [⟨2⟩]⟩) := by
  obtain ⟨H, hd, hh⟩ := sideInstances_sound
  have located : sideInstances.locate? sideInstances.hierarchy sourcePath =
      some ⟨.op ⟨1⟩, 0, [⟨2⟩]⟩ := by decide +kernel
  obtain ⟨s, errors, hplan⟩ := upwards_planned
  have all := targets_realize_plan H hd hh [] [upwards]
  rw [PathTable.asked, List.foldl_nil, hplan] at all
  obtain ⟨-, ⟨h', hh', targets⟩, -⟩ := all
  exact ⟨H, hd, hh, located, s, errors, h', hplan, hh', targets _ _ located⟩

end Wiring

end AnnotatedCircuit
