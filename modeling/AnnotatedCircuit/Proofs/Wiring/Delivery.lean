import AnnotatedCircuit.Proofs.Wiring.Planning

/-!
# Requests are delivered

The plan for a list of requests is matched (`Planned.matched`). So it is carried out without an
error, and in the design that it leaves the source of every planned request drives its sink.
-/

namespace AnnotatedCircuit.Wiring

open Design

variable {d : Design} {h : Hierarchy} {m : ModuleId} {n : Nat} {s : Planning} {rs : List WireRequest}
  {r : WireRequest} {rank : ModuleId → Nat} {w : Course}

/-- What a plan holds of a request comes from its course. -/
theorem Planned.course_of (P : Planned d rs rs.length s)
    (hm : (s.plan.changesOf m).ends n ≠ [] ∨ portRoles (s.plan.changesOf m).ports n ≠ []) :
    ∃ r w, rs[n]? = some r ∧ Course.Right d.hierarchy w ∧
      (∀ role, d.valueModule (r.side role) = .ok (w.owner role)) ∧ s.plan.Follows n r w := by
  by_cases absent : rs.length ≤ n ∨ ∀ r, rs[n]? = some r → ¬d.Plannable r
  · obtain ⟨he, hp⟩ := P.absent absent m
    rcases hm with hm | hm
    · exact absurd he hm
    · exact absurd hp hm
  · rw [not_or, Nat.not_le] at absent
    obtain ⟨hn, hsome⟩ := absent
    obtain ⟨r, hr, hplan⟩ : ∃ r, rs[n]? = some r ∧ d.Plannable r := by simpa using hsome
    obtain ⟨w, W, owners, F⟩ := P.course hn hr hplan
    exact ⟨r, w, hr, W, owners, F⟩

theorem Course.mem_ends {e : Endpoint} (he : e ∈ w.ends r m) :
    w.owner e.role = m ∧ e.value = r.side e.role := by
  obtain ⟨role, hrole, rfl⟩ := List.mem_map.mp he
  exact ⟨Role.mem_those.mp hrole, rfl⟩

theorem Planned.placed (P : Planned d rs rs.length s) : s.plan.Placed d rs := by
  have found : ∀ {m n e}, e ∈ (s.plan.changesOf m).ends n →
      ∃ r w, rs[n]? = some r ∧ e ∈ Course.ends w r m ∧
        ∀ role, d.valueModule (r.side role) = .ok (w.owner role) := by
    intro m n e he
    obtain ⟨r, w, hr, -, owners, F⟩ := P.course_of (.inl (List.ne_nil_of_mem he))
    exact ⟨r, w, hr, (F.ends m).mem_iff.mp he, owners⟩
  refine ⟨P.opened, fun he => ?_, fun he => ?_⟩
  · obtain ⟨r, w, -, he, owners⟩ := found he
    obtain ⟨hm, hv⟩ := Course.mem_ends he
    rw [hv, owners, hm]
  · obtain ⟨r, w, hr, he, -⟩ := found he
    exact ⟨r, hr, (Course.mem_ends he).2⟩

theorem Planned.matched (P : Planned d rs rs.length s) (R : d.hierarchy.Ranked rank)
    (Q : d.hierarchy.Plain) : s.plan.Matched d.hierarchy := by
  intro m q hq
  have hrole : Realize.roleOfResult q.port.direction ∈
      portRoles (s.plan.changesOf m).ports q.request :=
    List.mem_map.mpr ⟨q, List.mem_filter.mpr ⟨hq, by simp⟩, rfl⟩
  obtain ⟨r, w, -, W, -, F⟩ := P.course_of (.inr (List.ne_nil_of_mem hrole))
  exact F.expected_port W R Q hrole

/-- The plan for a list of requests is carried out without an error, and every request that can be
planned is joined. -/
theorem Planned.realized (S : d.Sound fun _ => 0) (P : Planned d rs rs.length s) :
    (realize d s.table s.plan).errors = [] ∧ ∀ r ∈ rs, d.Plannable r →
      ∃ v w, d.counterpart (realize d s.table s.plan).design r.source = some v ∧
        d.counterpart (realize d s.table s.plan).design r.sink = some w ∧
        (realize d s.table s.plan).design.Drives v w := by
  obtain ⟨rank, R⟩ := P.table.ranked
  rw [P.hierarchy] at R
  have Q := plain_hierarchy S.coherent
  have C := closed_hierarchy S.coherent (Fits.childrenKnown S.fits)
  have G := realize_progress S P.hierarchy P.table P.placed (P.matched R Q)
  refine ⟨G.errors, fun r hmem hplan => ?_⟩
  obtain ⟨n, hr⟩ := List.mem_iff_getElem?.mp hmem
  obtain ⟨w, W, owners, F⟩ := P.course (List.getElem?_eq_some_iff.mp hr).1 hr hplan
  have hmeet : w.module ∈ d.hierarchy.childrenFirst := by
    rw [Hierarchy.mem_childrenFirst C]
    exact W.meets.end_mem C
  obtain ⟨r', hr', hdrive⟩ := G.joined w.module hmeet n (F.expected_meeting W R Q)
  rw [hr] at hr'
  cases hr'
  exact ⟨_, _, G.kept.counterpart S.coherent (owners .source),
    G.kept.counterpart S.coherent (owners .sink), hdrive⟩

theorem plan_cases (S : d.Sound fun _ => 0) {t : PathTable} (hh : t.hierarchy = d.hierarchy)
    (T : t.Right) (rs : List WireRequest) :
    (∃ s errors, plan d t rs = .ok (s, errors) ∧ Planned d rs rs.length s ∧
      (errors = [] ↔ ∀ r ∈ rs, d.Plannable r)) ∨
    ∃ o, plan d t rs = .error o ∧
      ∃ x ∈ d.modules, Word.limit ≤ x.ports.length + x.body.length + rs.length := by
  obtain ⟨rank, R⟩ := T.ranked
  rcases planFrom_cases S.coherent (Fits.childrenKnown S.fits) (hh ▸ R) (.start hh T rs)
    (Nat.zero_le _) rfl with ⟨s, hplan, P⟩ | overflow
  · exact .inl ⟨s, _, hplan, P, faults_eq_nil_iff⟩
  · exact .inr overflow

/-- Requests between live values, in modules with one path each, are planned and carried out without
an error, and then every source drives its sink. Only a module with as many names as there are
words stops the planning. -/
theorem drives_realize_plan (H : d.Built) (hd : d.check = .ok ()) (hh : Hierarchy.ofDesign d = .ok h)
    (ms : List ModuleId) (rs : List WireRequest)
    (live : ∀ r ∈ rs, ∃ a b pa pb, d.valueModule r.source = .ok a ∧ d.valueModule r.sink = .ok b ∧
      ((PathTable.ofHierarchy h).paths a).1 = [pa] ∧ ((PathTable.ofHierarchy h).paths b).1 = [pb]) :
    match plan d ((PathTable.ofHierarchy h).asked ms) rs with
    | .error _ => ∃ x ∈ d.modules, Word.limit ≤ x.ports.length + x.body.length + rs.length
    | .ok (s, errors) => errors = [] ∧ (realize d s.table s.plan).errors = [] ∧
      ∀ r ∈ rs, ∃ v w, d.counterpart (realize d s.table s.plan).design r.source = some v ∧
        d.counterpart (realize d s.table s.plan).design r.sink = some w ∧
        (realize d s.table s.plan).design.Drives v w := by
  have C := H.coherent
  obtain ⟨hv, hf⟩ := (check_eq_ok_iff C).mp hd
  obtain ⟨ht, T⟩ := table_of_design C hh ms
  have all : ∀ r ∈ rs, d.Plannable r := by
    intro r hr role
    obtain ⟨a, b, pa, pb, ha, hb, hpa, hpb⟩ := live r hr
    rw [paths_of_design C hh] at hpa hpb
    cases role
    · exact ⟨a, pa, ha, hpa⟩
    · exact ⟨b, pb, hb, hpb⟩
  rcases plan_cases ⟨C, hv, hf⟩ ht T rs with ⟨s, errors, hplan, P, he⟩ | ⟨o, hplan, hfull⟩
  · rw [hplan]
    obtain ⟨herr, hdrive⟩ := P.realized ⟨C, hv, hf⟩
    exact ⟨he.mpr all, herr, fun r hr => hdrive r hr (all r hr)⟩
  · rw [hplan]
    exact hfull

/-- The wire of the instance drives the wire of the top module. -/
def upwards : WireRequest := ⟨⟨1⟩, ⟨0⟩, false, "up"⟩

theorem upwards_planned : ∃ s errors,
    plan sideInstances (.ofHierarchy sideInstances.hierarchy) [upwards] = .ok (s, errors) := by
  have planned : (plan sideInstances (.ofHierarchy sideInstances.hierarchy)
      [upwards]).isOk = true := by
    decide +kernel
  cases hplan : plan sideInstances (.ofHierarchy sideInstances.hierarchy) [upwards] with
  | error o =>
    rw [hplan] at planned
    cases planned
  | ok a => exact ⟨a.1, a.2, rfl⟩

theorem drives_realize_plan_upwards : sideInstances.Built ∧ sideInstances.check = .ok () ∧
    Hierarchy.ofDesign sideInstances = .ok sideInstances.hierarchy ∧
    (plan sideInstances (.ofHierarchy sideInstances.hierarchy) [upwards]).isOk = true ∧
    match plan sideInstances (.ofHierarchy sideInstances.hierarchy) [upwards] with
    | .error _ => ∃ x ∈ sideInstances.modules, Word.limit ≤ x.ports.length + x.body.length + 1
    | .ok (s, errors) => errors = [] ∧ (realize sideInstances s.table s.plan).errors = [] ∧
      ∀ r ∈ [upwards], ∃ v w,
        sideInstances.counterpart (realize sideInstances s.table s.plan).design r.source = some v ∧
        sideInstances.counterpart (realize sideInstances s.table s.plan).design r.sink = some w ∧
        (realize sideInstances s.table s.plan).design.Drives v w := by
  obtain ⟨H, hd, hh⟩ := sideInstances_sound
  refine ⟨H, hd, hh, by decide +kernel, drives_realize_plan H hd hh [] [upwards] fun r hr => ?_⟩
  obtain rfl := List.mem_singleton.mp hr
  exact ⟨⟨1⟩, ⟨0⟩, [⟨2⟩], [], by decide +kernel, by decide +kernel, by decide +kernel,
    by decide +kernel⟩

end AnnotatedCircuit.Wiring
