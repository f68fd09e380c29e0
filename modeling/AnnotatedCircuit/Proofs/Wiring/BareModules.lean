import AnnotatedCircuit.Proofs.Wiring.Delivery
import AnnotatedCircuit.Proofs.Wiring.Locality

/-!
# Modules without operations

Ways end in a module without instances, so a request passes such a module only if one of its sides
is a value there (`Course.Right.owner_eq`). Carrying out the plan for a list of requests leaves a
module with an empty body as it is if no planned request ends in it, and otherwise its body is no
longer empty (`Planned.bare`).
-/

namespace AnnotatedCircuit.Wiring

open Design

variable {d : Design} {h : Hierarchy} {t : PathTable} {p : Plan} {rs : List WireRequest}
  {r : WireRequest} {m : ModuleId} {x : Module} {w : Course} {rank : ModuleId → Nat} {role : Role}
  {n : Nat}

namespace Course.Right

theorem mem_passed_owner (W : w.Right h) (role : Role) : w.owner role ∈ w.passed role := by
  rw [Course.passed, ← (W.trail role).passed]
  exact List.mem_append_right _ List.mem_cons_self

/-- A way ends in a module without instances. -/
theorem owner_eq (W : w.Right h) (bare : ∀ site ∈ h.sites, site.parent ≠ m)
    (hm : m ∈ w.passed role) : w.owner role = m := by
  rw [Course.passed, ← (W.trail role).passed, List.mem_append, List.mem_singleton] at hm
  rcases hm with hm | rfl
  · obtain ⟨site, hsite, rfl⟩ := List.mem_map.mp hm
    exact absurd rfl (bare site ((W.trail role).sites site hsite))
  · rfl

end Course.Right

/-- There are no instances in a module with an empty body. -/
theorem parent_ne_of_bare (H : d.Coherent) (hx : d.module? m = some x) (bare : x.body = []) :
    ∀ site ∈ d.hierarchy.sites, site.parent ≠ m := by
  rintro site hsite rfl
  rw [sites_hierarchy] at hsite
  obtain ⟨op, ho, hp, -⟩ := (mem_sites_iff H).mp hsite
  have mem := (H.mem_body hx).mpr ⟨op, ho, hp⟩
  rw [bare] at mem
  cases mem

/-! ### Carrying out a plan -/

namespace Realize

variable {s s' : Realizing} {done rest : List ModuleId}

theorem isEmpty_of_nothing {c : ModuleChanges} (noports : c.ports = [])
    (noends : ∀ n, c.ends n = []) : c.isEmpty = true := by
  have noclosings : c.closings = [] := by
    rw [List.eq_nil_iff_forall_not_mem]
    intro r hr
    exact List.ne_nil_of_mem (mem_ends_of_closing hr) (noends r.2)
  have noendpoints : c.endpoints.entries = [] := by
    rw [List.eq_nil_iff_forall_not_mem]
    intro r hr
    refine List.ne_nil_of_mem (a := r.2) ?_ (noends r.1)
    rw [ModuleChanges.ends, OrderedMap.find?_of_mem hr]
    exact List.mem_cons_self
  rw [ModuleChanges.isEmpty, OrderedMap.isEmpty, noports, noclosings, noendpoints]
  rfl

/-- What a plan has for a module keeps its body from being empty. -/
def Busy (h : Hierarchy) (p : Plan) (m : ModuleId) : Prop :=
  (p.changesOf m).ports ≠ [] ∨ ∃ n, 2 ≤ (expected h p m n).length

/-- A plan has nothing for a module, and it will receive nothing. -/
def Idling (h : Hierarchy) (p : Plan) (m : ModuleId) : Prop :=
  (p.changesOf m).ports = [] ∧ ∀ n, expected h p m n = []

/-- A module with an empty body while a plan is carried out. -/
structure Bare (h : Hierarchy) (p : Plan) (m : ModuleId) (x : Module) (done : List ModuleId)
    (s : Realizing) : Prop where
  before : m ∉ done → s.design.module? m = some x
  after : m ∈ done → ∃ y, s.design.module? m = some y ∧ y.kind = x.kind ∧
    (Busy h p m → y.body ≠ []) ∧ (Idling h p m → y = x)

theorem eq_of_body (bare : x.body = []) (f : OpId → OpId) :
    ({ x with body := x.body.map f } : Module) = x := by
  rw [bare, List.map_nil, ← bare]

/-- The visit of another module. -/
theorem Bare.elsewhere {k : ModuleId} (B : Bare h p m x done s) (bare : x.body = []) (hk : m ≠ k)
    (V : Visits k s s') : Bare h p m x (done ++ [k]) s' := by
  obtain ⟨_, _, f, hf⟩ := V.modules
  have hm := hf m
  simp only [if_neg hk] at hm
  have visited : m ∈ done ++ [k] ↔ m ∈ done := by simp [hk]
  refine ⟨fun hnot => ?_, fun hmem => ?_⟩
  · rw [hm, B.before (mt visited.mpr hnot), Option.map_some, eq_of_body bare]
  · obtain ⟨y, hy, kind, busy, idling⟩ := B.after (visited.mp hmem)
    refine ⟨{ y with body := y.body.map f }, by rw [hm, hy, Option.map_some], kind, fun b => ?_,
      fun i => ?_⟩
    · rw [Ne, List.map_eq_nil_iff]
      exact busy b
    · obtain rfl := idling i
      exact eq_of_body bare f

section

variable (P : Progress d p rs done s) (hm : m ∉ done)
  (hc : ∀ c ∈ d.hierarchy.children m, c ∈ done)
include P hm hc

/-- At its turn, a module for which there is something gets a connection into its body. -/
theorem Progress.body_ne_nil (V : Visits m s s') (clean : s'.errors = [])
    (busy : Busy d.hierarchy p m) : ∃ y, s'.design.module? m = some y ∧ y.body ≠ [] := by
  have roles := P.roles hm hc
  have ports := P.underway.ports hm
  cases V with
  | nothing empty =>
    obtain ⟨noports, -, noends⟩ := nothing_of_isEmpty empty
    rcases busy with some | ⟨n, two⟩
    · exact absurd (ports.symm.trans noports) some
    · rw [← (roles n).length_eq, noends n] at two
      cases two
  | @work _ s₁ _ found filled replaced joined =>
    have work : (s.plan.changesOf m).ports ≠ [] ∨ (s.plan.changesOf m).closings ≠ [] := by
      refine busy.imp (fun some => ports ▸ some) fun ⟨n, two⟩ none => ?_
      have closed := (P.underway.opened hm).length_ends n
      rw [none, List.filter_nil, List.length_nil] at closed
      rw [← (roles n).length_eq, List.length_map] at two
      omega
    have T : Steady d.hierarchy (withoutChanges s m) := P.steady.congr rfl rfl
    obtain ⟨y, hy, some⟩ := body_ne_nil_of_joined T.sound found joined
      (replaced.idle.errors.symm.trans clean) work
    obtain ⟨f, hf⟩ := replaced.modules
    refine ⟨{ y with body := y.body.map f }, by rw [hf, hy, Option.map_some], ?_⟩
    rw [Ne, List.map_eq_nil_iff]
    exact some

/-- A module for which there is nothing is passed over. -/
theorem Progress.idle (run : Realize.visit m s = .ok () s') (idling : Idling d.hierarchy p m) :
    s'.design = s.design := by
  have empty : (s.plan.changesOf m).isEmpty = true :=
    isEmpty_of_nothing ((P.underway.ports hm).trans idling.1) fun n => by
      have := P.roles hm hc n
      rw [idling.2 n] at this
      exact List.map_eq_nil_iff.mp this.eq_nil
  rw [visit_eq, if_pos empty] at run
  rw [← (EStateM.Result.ok.inj run).2]
  rfl

/-- The turn of the module. -/
theorem Bare.visit (B : Bare d.hierarchy p m x done s) (run : Realize.visit m s = .ok () s')
    (V : Visits m s s') (clean : s'.errors = []) : Bare d.hierarchy p m x (done ++ [m]) s' := by
  have hx := B.before hm
  obtain ⟨ports, body, f, hf⟩ := V.modules
  have hy := hf m
  rw [hx, Option.map_some, if_pos rfl] at hy
  refine ⟨fun hnot => absurd (List.mem_append_right _ List.mem_cons_self) hnot,
    fun _ => ⟨_, hy, rfl, fun busy => ?_, fun idling => ?_⟩⟩
  · obtain ⟨y, hy', some⟩ := P.body_ne_nil hm hc V clean busy
    obtain rfl := Option.some.inj (hy'.symm.trans hy)
    exact some
  · have same := P.idle hm hc run idling
    rw [same, hx] at hy
    exact (Option.some.inj hy).symm

end

end Realize

/-- A module with an empty body while a matched plan is carried out. -/
theorem realize_bare (S : d.Sound fun _ => 0) (ht : t.hierarchy = d.hierarchy) (T : t.Right)
    (placed : p.Placed d rs) (matched : p.Matched d.hierarchy) (hx : d.module? m = some x)
    (bare : x.body = []) :
    Realize.Bare d.hierarchy p m x d.hierarchy.childrenFirst (realize d t p) := by
  obtain ⟨rank, R⟩ := T.ranked
  rw [ht] at R
  have C := closed_hierarchy S.coherent (Fits.childrenKnown S.fits)
  have start : Realize.Bare d.hierarchy p m x [] ⟨d, t, p, .empty, {}, []⟩ := ⟨fun _ => hx, nofun⟩
  refine (realize_runs (Q := fun done s => Realize.Progress d p rs done s ∧
    Realize.Bare d.hierarchy p m x done s) S ht T p ⟨.start S ht T placed, start⟩ ?_).2
  intro done k rest s s' split _ _ run V ⟨P, B⟩
  obtain ⟨hk, -, hid, hc⟩ := Hierarchy.childrenFirst_split C R split
  obtain ⟨s'', run', P', -⟩ := P.visit matched hk hc hid
  obtain rfl := (EStateM.Result.ok.inj (run.symm.trans run')).2
  refine ⟨P', ?_⟩
  by_cases e : m = k
  · subst e
    exact B.visit P hk hc run V P'.errors
  · exact B.elsewhere bare e V

/-! ### Planned requests -/

section

variable {s : Planning} (P : Planned d rs rs.length s) (H : d.Coherent)
  (R : d.hierarchy.Ranked rank)
  (bare : ∀ site ∈ d.hierarchy.sites, site.parent ≠ m)
include P bare

/-- There is nothing for a module in which no request ends. -/
theorem Planned.idling (none : ∀ r ∈ rs, d.Plannable r → ∀ role,
    d.valueModule (r.side role) ≠ .ok m) : Realize.Idling d.hierarchy s.plan m := by
  have noends : ∀ n, (s.plan.changesOf m).ends n = [] := by
    intro n
    by_cases absent : rs.length ≤ n ∨ ∀ r, rs[n]? = some r → ¬d.Plannable r
    · exact (P.absent absent m).1
    · rw [not_or, Nat.not_le] at absent
      obtain ⟨hn, hsome⟩ := absent
      obtain ⟨r, hr, plannable⟩ : ∃ r, rs[n]? = some r ∧ d.Plannable r := by simpa using hsome
      obtain ⟨w, -, owners, F⟩ := P.course hn hr plannable
      rw [List.eq_nil_iff_forall_not_mem]
      intro e he
      obtain ⟨hm, -⟩ := Course.mem_ends ((F.ends m).mem_iff.mp he)
      exact none r (List.mem_of_getElem? hr) plannable e.role (hm ▸ owners e.role)
  refine ⟨?_, fun n => ?_⟩
  · rw [List.eq_nil_iff_forall_not_mem]
    intro q hq
    obtain ⟨r, -, hr, plannable, w, W, owners, hm⟩ := P.side_of_port hq
    have hm := W.owner_eq bare (List.mem_cons_of_mem _ hm)
    exact none r (List.mem_of_getElem? hr) plannable _ (hm ▸ owners _)
  · have noinstances : (d.hierarchy.sites.map Site.ends).filter (fun e => e.1 = m) = [] := by
      rw [List.filter_eq_nil_iff]
      intro e he
      obtain ⟨site, hsite, rfl⟩ := List.mem_map.mp he
      have : ¬site.ends.1 = m := bare site hsite
      simpa using this
    rw [expected, noends n, noinstances]
    rfl

include R H

/-- A request with a side in a module has a port there, or it closes there, and then both of its
sides are there. -/
theorem Planned.port_or_closing (hr : r ∈ rs) (plannable : d.Plannable r)
    (hm : d.valueModule (r.side role) = .ok m) : (s.plan.changesOf m).ports ≠ [] ∨
      (∃ n, (expected d.hierarchy s.plan m n).length = 2) ∧
        ∀ role, d.valueModule (r.side role) = .ok m := by
  obtain ⟨n, hn⟩ := List.mem_iff_getElem?.mp hr
  obtain ⟨w, W, owners, F⟩ := P.course (List.getElem?_eq_some_iff.mp hn).1 hn plannable
  obtain rfl := Except.ok.inj (hm.symm.trans (owners role))
  rcases List.mem_cons.mp (W.mem_passed_owner role) with meeting | below
  · rw [meeting] at bare ⊢
    refine .inr ⟨⟨n, ?_⟩, fun role => ?_⟩
    · exact (F.expected_meeting W R (plain_hierarchy H)).length_eq
    · rw [owners, W.owner_eq bare List.mem_cons_self]
  · left
    intro none
    have hrole := (F.ports (w.owner role)).mem_iff.mpr (Role.mem_those.mpr below)
    rw [none] at hrole
    cases hrole

/-- A module gets no ports if each request with a side in it has both sides in it. -/
theorem Planned.no_ports_iff : (s.plan.changesOf m).ports = [] ↔ ∀ r ∈ rs, d.Plannable r →
    ∀ role, d.valueModule (r.side role) = .ok m → ∀ role, d.valueModule (r.side role) = .ok m := by
  constructor
  · intro none r hr plannable role hm
    exact ((P.port_or_closing H R bare hr plannable hm).resolve_left fun some => some none).2
  · intro both
    rw [List.eq_nil_iff_forall_not_mem]
    intro q hq
    obtain ⟨r, -, hr, plannable, w, W, owners, below⟩ := P.side_of_port hq
    generalize Realize.roleOfResult q.port.direction = role at below
    have hm := W.owner_eq bare (List.mem_cons_of_mem _ below)
    obtain ⟨role', other⟩ : ∃ role', role' ≠ role := by
      cases role
      · exact ⟨.sink, nofun⟩
      · exact ⟨.source, nofun⟩
    have hm' := both r (List.mem_of_getElem? hr) plannable role (hm ▸ owners role) role'
    obtain rfl := Except.ok.inj (hm'.symm.trans (owners role'))
    exact W.not_passed R below other (W.mem_passed_owner role')

end

/-- Carrying out the plan for a list of requests leaves the body of a module empty just when no
planned request ends there, and then the module stays as it is. Its ports stay the same just when
each planned request that ends there begins there, too. -/
theorem Planned.bare {s : Planning} (S : d.Sound fun _ => 0) (P : Planned d rs rs.length s)
    (hx : d.module? m = some x) (bare : x.body = []) :
    ∃ y, (realize d s.table s.plan).design.module? m = some y ∧ y.kind = x.kind ∧
      (y.body = [] ↔ ∀ r ∈ rs, d.Plannable r → ∀ role, d.valueModule (r.side role) ≠ .ok m) ∧
      (y.ports = x.ports ↔ ∀ r ∈ rs, d.Plannable r → ∀ role,
        d.valueModule (r.side role) = .ok m → ∀ role, d.valueModule (r.side role) = .ok m) ∧
      (y.body = [] → y = x) := by
  have H := S.coherent
  obtain ⟨rank, R⟩ := P.table.ranked
  rw [P.hierarchy] at R
  have leaf := parent_ne_of_bare H hx bare
  have visited : m ∈ d.hierarchy.childrenFirst := by
    rw [Hierarchy.mem_childrenFirst (closed_hierarchy H (Fits.childrenKnown S.fits))]
    exact (mem_ids_hierarchy H).mpr ⟨x, hx⟩
  obtain ⟨y, hy, kind, busy, idling⟩ := (realize_bare S P.hierarchy P.table P.placed
    (P.matched R (plain_hierarchy H)) hx bare).after visited
  have empty : y.body = [] ↔ ∀ r ∈ rs, d.Plannable r → ∀ role,
      d.valueModule (r.side role) ≠ .ok m := by
    constructor
    · intro none r hr plannable role hm
      refine busy ?_ none
      exact (P.port_or_closing H R leaf hr plannable hm).imp_right fun ⟨⟨n, two⟩, _⟩ =>
        ⟨n, two.ge⟩
    · intro none
      rw [idling (P.idling leaf none)]
      exact bare
  refine ⟨y, hy, kind, empty, ?_, fun none => idling (P.idling leaf (empty.mp none))⟩
  have old : d.portsOf m = some x.ports := by rw [Design.portsOf, hx, Option.map_some]
  obtain ⟨added, ports, hadded⟩ := (realize_grown S P.hierarchy P.table s.plan).ports old
  rw [Design.portsOf, hy, Option.map_some, Option.some.injEq] at ports
  rw [if_pos visited] at hadded
  rw [← P.no_ports_iff H R leaf, ports, List.append_right_eq_self, ← List.map_eq_nil_iff, hadded,
    List.map_eq_nil_iff]

end AnnotatedCircuit.Wiring
