import AnnotatedCircuit.Proofs.Hierarchy.Chains
import AnnotatedCircuit.Proofs.Wiring.Delivery
import AnnotatedCircuit.Proofs.Wiring.Grown
import AnnotatedCircuit.Proofs.Wiring.PlannedNames

/-!
# The signatures of modules after wiring

Each module keeps its ports and gets one more for each request that passes it below the parting of
its ways, in the order of the requests (`Gains`, `signature_realize_plan`).
-/

namespace AnnotatedCircuit

open Wiring

namespace Design

variable {d : Design} {r : WireRequest} {m : ModuleId} {role : Role} {w : Course}
  {rank : ModuleId → Nat} {p q : InstPath} {x y x' y' : InstPath}

/-- A module lies on the way to one side of a request, strictly below the parting: from the top, a
single chain of instances leads to each side, the two share their instances as long as they can,
and one of the others on that side instantiates the module. -/
def Under (d : Design) (r : WireRequest) (role : Role) (m : ModuleId) : Prop :=
  ∃ (shared : InstPath) (side : Role → InstPath),
    (∀ role, ∃ a, d.valueModule (r.side role) = .ok a ∧
      ∀ p, d.Chain d.top p a ↔ p = shared ++ side role) ∧
    (∀ o ∈ (side .source).head?, ∀ o' ∈ (side .sink).head?, o ≠ o') ∧
    ∃ o ∈ side role, ∃ op, d.op? o = some op ∧ op.kind.child? = some m

/-! ### The ways of a request -/

/-- Two lists part at one place only. -/
theorem append_eq_of_parting (hx : p ++ x = q ++ x') (hy : p ++ y = q ++ y')
    (parts : ∀ a ∈ x.head?, ∀ b ∈ y.head?, a ≠ b)
    (parts' : ∀ a ∈ x'.head?, ∀ b ∈ y'.head?, a ≠ b) : p = q := by
  induction p generalizing q with
  | nil =>
    cases q with
    | nil => rfl
    | cons c q =>
      rw [List.nil_append] at hx hy
      exact absurd rfl (parts c (by simp [hx]) c (by simp [hy]))
  | cons c p ih =>
    cases q with
    | nil =>
      rw [List.nil_append] at hx hy
      exact absurd rfl (parts' c (by simp [← hx]) c (by simp [← hy]))
    | cons c' q =>
      obtain ⟨rfl, rest⟩ := List.cons.inj hx
      exact congrArg (c :: ·) (ih rest (List.cons.inj hy).2)

/-- The chains to the owner of a side are the one of the course. -/
theorem chain_owner_iff (H : d.Coherent) (W : w.Right d.hierarchy) (role : Role) :
    d.Chain d.top p (w.owner role) ↔ p = (w.shared ++ w.side role).map Site.op := by
  rw [chain_iff H]
  constructor
  · rintro ⟨ss, T, rfl⟩
    rw [(W.sole role).only ss T]
  · rintro rfl
    exact ⟨_, (W.sole role).trail, rfl⟩

/-- The instances of one side of a course lead into the modules on that side. -/
theorem mem_side_iff (H : d.Coherent) (W : w.Right d.hierarchy) :
    (∃ o ∈ (w.side role).map Site.op, ∃ op, d.op? o = some op ∧ op.kind.child? = some m) ↔
      m ∈ (w.side role).map Site.child := by
  have live : ∀ site ∈ w.side role, ∃ op, d.op? site.op = some op ∧
      op.kind.child? = some site.child := by
    intro site hsite
    obtain ⟨op, ho, -, hc⟩ := (mem_sites_iff H).mp
      (sites_hierarchy d ▸ (W.trail role).sites site hsite)
    exact ⟨op, ho, hc⟩
  simp only [List.mem_map]
  constructor
  · rintro ⟨_, ⟨site, hsite, rfl⟩, op, ho, hc⟩
    obtain ⟨op', ho', hc'⟩ := live site hsite
    obtain rfl := Option.some.inj (ho.symm.trans ho')
    exact ⟨site, hsite, Option.some.inj (hc'.symm.trans hc)⟩
  · rintro ⟨site, hsite, rfl⟩
    obtain ⟨op, ho, hc⟩ := live site hsite
    exact ⟨_, ⟨site, hsite, rfl⟩, op, ho, hc⟩

/-- Below the parting of a request lie the modules on the sides of its course. -/
theorem under_iff (H : d.Coherent) (W : w.Right d.hierarchy)
    (owners : ∀ role, d.valueModule (r.side role) = .ok (w.owner role)) :
    d.Under r role m ↔ m ∈ (w.side role).map Site.child := by
  have parts : ∀ o ∈ ((w.side .source).map Site.op).head?,
      ∀ o' ∈ ((w.side .sink).map Site.op).head?, o ≠ o' := by
    intro o ho o' ho' e
    rw [List.head?_map, Option.mem_map] at ho ho'
    obtain ⟨s, hs, rfl⟩ := ho
    obtain ⟨s', hs', rfl⟩ := ho'
    refine W.parts s hs s' hs' ((plain_hierarchy H).site_eq ?_ ?_ e)
    · exact (W.trail .source).sites s (List.mem_of_mem_head? hs)
    · exact (W.trail .sink).sites s' (List.mem_of_mem_head? hs')
  rw [← mem_side_iff H W]
  constructor
  · rintro ⟨shared, side, chains, parts', hm⟩
    have way : ∀ role, shared ++ side role =
        w.shared.map Site.op ++ (w.side role).map Site.op := by
      intro role
      obtain ⟨a, ha, chain⟩ := chains role
      obtain rfl := Except.ok.inj (ha.symm.trans (owners role))
      rw [← List.map_append]
      exact (chain_owner_iff H W role).mp ((chain _).mpr rfl)
    obtain rfl := append_eq_of_parting (way .source) (way .sink) parts' parts
    rwa [List.append_cancel_left (way role)] at hm
  · intro hm
    refine ⟨w.shared.map Site.op, fun role => (w.side role).map Site.op, fun role => ?_, parts, hm⟩
    refine ⟨w.owner role, owners role, fun p => ?_⟩
    rw [chain_owner_iff H W, List.map_append]

/-- A request with a module below its parting can be planned. -/
theorem Under.plannable (H : d.Coherent) (R : d.hierarchy.Ranked rank) (h : d.Under r role m) :
    d.Plannable r := by
  obtain ⟨shared, side, chains, -⟩ := h
  intro role
  obtain ⟨a, ha, chain⟩ := chains role
  refine ⟨a, shared ++ side role, ha, ?_⟩
  have mem : ∀ p, p ∈ d.hierarchy.pathsTo a ↔ p = shared ++ side role := fun p =>
    (Hierarchy.mem_pathsTo_iff R).trans ((route_hierarchy_iff H).trans (chain p))
  refine List.perm_singleton.mp ?_
  rw [List.perm_ext_iff_of_nodup (Hierarchy.nodup_pathsTo R (plain_hierarchy H) a)
    (List.nodup_singleton _)]
  simpa using mem

/-- The top module lies below nothing. -/
theorem not_under_top (H : d.Coherent) (R : d.hierarchy.Ranked rank) (W : w.Right d.hierarchy)
    (owners : ∀ role, d.valueModule (r.side role) = .ok (w.owner role)) :
    ¬ d.Under r role d.top := by
  rw [under_iff H W owners]
  intro hm
  have hnodup := (W.sole role).trail.nodup_passed R
  rw [List.map_append] at hnodup
  exact (List.nodup_cons.mp hnodup).1 (List.mem_append_right _ hm)

end Design

namespace Wiring

open Design

variable {d : Design} {h : Hierarchy} {rs : List WireRequest} {r : WireRequest} {n : Nat}
  {m : ModuleId} {s : Planning} {rank : ModuleId → Nat}

/-! ### What the plan holds -/

/-- A planned port stands on the side that it points to. -/
theorem Planned.side_of_port (P : Planned d rs n s) {q : PlannedPort}
    (hq : q ∈ (s.plan.changesOf m).ports) : ∃ r, q.request < n ∧ rs[q.request]? = some r ∧
      d.Plannable r ∧ ∃ w : Course, w.Right d.hierarchy ∧
        (∀ role, d.valueModule (r.side role) = .ok (w.owner role)) ∧
        m ∈ (w.side (Realize.roleOfResult q.port.direction)).map Site.child := by
  have hrole : Realize.roleOfResult q.port.direction ∈
      portRoles (s.plan.changesOf m).ports q.request :=
    List.mem_map_of_mem (List.mem_filter.mpr ⟨hq, by simp⟩)
  by_cases hk : n ≤ q.request ∨ ∀ r, rs[q.request]? = some r → ¬d.Plannable r
  · rw [(P.absent hk m).2] at hrole
    cases hrole
  · rw [not_or, Nat.not_le] at hk
    obtain ⟨hk, hsome⟩ := hk
    obtain ⟨r, hr, hplan⟩ : ∃ r, rs[q.request]? = some r ∧ d.Plannable r := by simpa using hsome
    obtain ⟨w, W, owners, F⟩ := P.course hk hr hplan
    exact ⟨r, hk, hr, hplan, w, W, owners, Role.mem_those.mp ((F.ports m).mem_iff.mp hrole)⟩

section

variable (H : d.Coherent) (R : d.hierarchy.Ranked rank) (P : Planned d rs rs.length s)
include H R P

/-- The ports of a module are planned for the requests that it lies under. -/
theorem Planned.mem_requests_iff :
    n ∈ (s.plan.changesOf m).ports.map PlannedPort.request ↔
      ∃ r, rs[n]? = some r ∧ ∃ role, d.Under r role m := by
  constructor
  · intro hn
    obtain ⟨q, hq, rfl⟩ := List.mem_map.mp hn
    obtain ⟨r, -, hr, -, w, W, owners, hm⟩ := P.side_of_port hq
    exact ⟨r, hr, _, (under_iff H W owners).mpr hm⟩
  · rintro ⟨r, hr, role, hu⟩
    have hlt := (List.getElem?_eq_some_iff.mp hr).1
    obtain ⟨w, W, owners, F⟩ := P.course hlt hr (hu.plannable H R)
    have hrole := (F.ports m).mem_iff.mpr (Role.mem_those.mpr ((under_iff H W owners).mp hu))
    obtain ⟨q, hq, -⟩ := List.mem_map.mp hrole
    obtain ⟨hq, hn⟩ := List.mem_filter.mp hq
    exact List.mem_map.mpr ⟨q, hq, by simpa using hn⟩

/-- A port is an output on the side of the source and an input on that of the sink. -/
theorem Planned.direction_iff {q : PlannedPort} (hq : q ∈ (s.plan.changesOf m).ports)
    (hr : rs[q.request]? = some r) :
    (q.port.direction = .output ↔ d.Under r .source m) ∧
      (q.port.direction = .input ↔ d.Under r .sink m) := by
  obtain ⟨r', -, hr', -, w, W, owners, hm⟩ := P.side_of_port hq
  obtain rfl := Option.some.inj (hr.symm.trans hr')
  rw [under_iff H W owners, under_iff H W owners]
  have other : ∀ {role}, role ≠ Realize.roleOfResult q.port.direction →
      m ∉ (w.side role).map Site.child := fun hne h =>
    W.not_passed R hm hne (List.mem_cons_of_mem _ h)
  cases hd : q.port.direction with
  | output =>
    rw [hd] at hm other
    exact ⟨iff_of_true rfl hm, iff_of_false nofun (other nofun)⟩
  | input =>
    rw [hd] at hm other
    exact ⟨iff_of_false nofun (other nofun), iff_of_true rfl hm⟩

theorem Planned.no_ports_top : (s.plan.changesOf d.top).ports = [] := by
  rw [List.eq_nil_iff_forall_not_mem]
  intro q hq
  obtain ⟨r, -, -, -, w, W, owners, hm⟩ := P.side_of_port hq
  exact not_under_top H R W owners ((under_iff H W owners).mpr hm)

end

/-! ### What modules gain -/

/-- A port passes the request of a number on: it is an output on the side of the source and an input
on that of the sink. -/
def Passes (d : Design) (rs : List WireRequest) (m : ModuleId) (n : Nat) (p : PortDecl) : Prop :=
  ∃ r, rs[n]? = some r ∧ p.Carries d r ∧ (p.direction = .output ↔ d.Under r .source m) ∧
    (p.direction = .input ↔ d.Under r .sink m)

/-- The ports that a module gains: one for each request that it lies under, in the order of the
requests. -/
structure Gains (d : Design) (rs : List WireRequest) (m : ModuleId) (added : List Port) : Prop where
  ports : ∃ ns : List Nat, ns.Pairwise (· < ·) ∧
    (∀ n, n ∈ ns ↔ ∃ r, rs[n]? = some r ∧ ∃ role, d.Under r role m) ∧
    List.Forall₂ (fun n p => Passes d rs m n p.toPortDecl) ns added
  distinct : (added.map (·.name)).Nodup
  free : ∀ p ∈ added, p.name ∉ d.namesOf m
  top : m = d.top → added = []

/-- The ports of a plan are gained. -/
theorem Planned.gains (H : d.Coherent) (R : d.hierarchy.Ranked rank) (P : Planned d rs rs.length s)
    (T : s.plan.Tidy d rs rs.length) {added : List Port}
    (hadded : added.map Port.toPortDecl = (s.plan.changesOf m).ports.map (·.port)) :
    Gains d rs m added where
  ports := by
    refine ⟨(s.plan.changesOf m).ports.map PlannedPort.request, ?_, fun n =>
      P.mem_requests_iff H R, ?_⟩
    · exact ((T.ordered m).and (P.nodup_requests R m)).imp fun h => Nat.lt_of_le_of_ne h.1 h.2
    · rw [← List.forall₂_map_right_iff (f := Port.toPortDecl), hadded, List.forall₂_map_left_iff,
        List.forall₂_map_right_iff, List.forall₂_same]
      intro q hq
      obtain ⟨r, hr, carries⟩ := T.carries hq
      exact ⟨r, hr, carries, P.direction_iff H R hq hr⟩
  distinct := by
    have names := congrArg (List.map PortDecl.name) hadded
    rw [List.map_map, List.map_map] at names
    exact names ▸ T.distinct m
  free p hp := by
    have := List.mem_map_of_mem (f := Port.toPortDecl) hp
    rw [hadded] at this
    obtain ⟨q, hq, e⟩ := List.mem_map.mp this
    exact (congrArg PortDecl.name e : q.port.name = p.name) ▸ T.free hq
  top e := by
    subst e
    rw [P.no_ports_top H R] at hadded
    exact List.map_eq_nil_iff.mp hadded

/-- Each module keeps its ports and gains those of the requests that it lies under, and the results
of its instances follow. Only a module with as many names as there are words stops the planning. -/
theorem signature_realize_plan (H : d.Built) (hd : d.check = .ok ())
    (hh : Hierarchy.ofDesign d = .ok h) (ms : List ModuleId) (rs : List WireRequest) :
    match plan d ((PathTable.ofHierarchy h).asked ms) rs with
    | .error _ => ∃ x ∈ d.modules, Word.limit ≤ x.ports.length + x.body.length + rs.length
    | .ok (s, _) => ∀ m x, d.module? m = some x → ∃ y added,
      (realize d s.table s.plan).design.module? m = some y ∧ y.ports = x.ports ++ added ∧
      Gains d rs m added ∧
      (∀ i p, y.ports[i]? = some p →
        (realize d s.table s.plan).design.value? p.value = some ⟨p.type, .port m i⟩) ∧
      ∀ o op, (realize d s.table s.plan).design.op? o = some op → op.kind.child? = some m →
        List.Forall₂ (fun v p => (realize d s.table s.plan).design.valueType v = .ok p.type)
          (op.results.drop x.ports.length) added := by
  have C := H.coherent
  obtain ⟨hv, hf⟩ := (check_eq_ok_iff C).mp hd
  have S : d.Sound fun _ => 0 := ⟨C, hv, hf⟩
  obtain ⟨ht, T⟩ := table_of_design C hh ms
  rcases plan_cases S ht T rs with ⟨s, errors, hplan, P, -⟩ | ⟨o, hplan, hfull⟩
  · rw [hplan]
    intro m x hx
    obtain ⟨rank, R⟩ := P.table.ranked
    rw [P.hierarchy] at R
    have G := realize_grown S P.hierarchy P.table s.plan
    have S' := (realize_steady S P.hierarchy P.table s.plan).sound.design
    have visited : m ∈ d.hierarchy.childrenFirst := by
      rw [Hierarchy.mem_childrenFirst (closed_hierarchy C (Fits.childrenKnown hf))]
      exact (mem_ids_hierarchy C).mpr ⟨x, hx⟩
    have hold : d.portsOf m = some x.ports := by rw [Design.portsOf, hx, Option.map_some]
    obtain ⟨added, hnew, hadded⟩ := G.ports hold
    rw [if_pos visited] at hadded
    obtain ⟨y, hy, hports⟩ := Option.map_eq_some_iff.mp hnew
    refine ⟨y, added, hy, hports, P.gains C R (plan_tidy hplan) hadded,
      fun i p hp => S'.coherent.port_value hy hp, fun o op ho hc => ?_⟩
    have hlen : op.results.length = (x.ports ++ added).length :=
      Fits.length_eq S'.fits ho hc hnew
    rw [List.forall₂_iff_get]
    refine ⟨by rw [List.length_drop, hlen, List.length_append, Nat.add_sub_cancel_left], ?_⟩
    intro i hi hi'
    refine G.mirrored ho hc hold hnew (Nat.le_add_right _ i) ?_ ?_
    · rw [List.get_eq_getElem, List.getElem_drop, List.getElem?_eq_getElem]
    · rw [List.get_eq_getElem, List.getElem?_append_right (Nat.le_add_right ..),
        Nat.add_sub_cancel_left, List.getElem?_eq_getElem]
  · rw [hplan]
    exact hfull

theorem signature_realize_plan_upwards : sideInstances.Built ∧ sideInstances.check = .ok () ∧
    Hierarchy.ofDesign sideInstances = .ok sideInstances.hierarchy ∧
    ∃ s errors, plan sideInstances (.ofHierarchy sideInstances.hierarchy) [upwards] =
        .ok (s, errors) ∧
      ∃ x y added, sideInstances.module? ⟨1⟩ = some x ∧
        (realize sideInstances s.table s.plan).design.module? ⟨1⟩ = some y ∧
        y.ports = x.ports ++ added ∧ Gains sideInstances [upwards] ⟨1⟩ added := by
  obtain ⟨H, hd, hh⟩ := sideInstances_sound
  obtain ⟨s, errors, hplan⟩ := upwards_planned
  have all := signature_realize_plan H hd hh [] [upwards]
  rw [PathTable.asked, List.foldl_nil, hplan] at all
  obtain ⟨y, added, hy, hports, gains, -⟩ := all ⟨1⟩ _ rfl
  exact ⟨H, hd, hh, s, errors, hplan, _, y, added, rfl, hy, hports, gains⟩

end Wiring

end AnnotatedCircuit
