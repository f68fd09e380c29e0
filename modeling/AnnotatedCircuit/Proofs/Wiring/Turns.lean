import AnnotatedCircuit.Proofs.Wiring.Closings
import AnnotatedCircuit.Proofs.Wiring.Delivery

/-!
# How often requests turn

A request that is planned turns once in the module where its sides part, and this turn drives its
sink from its source. Besides, a module that cannot be reached turns a request whenever two of its
instances get ports for it, whatever the roles of these are (`turns_realize_plan`).
-/

namespace AnnotatedCircuit.Wiring

open Design

namespace Realize

variable {rs : List WireRequest} {s s' : Realizing} {m : ModuleId} {c : ModuleChanges} {n : Nat}
  {e f : Endpoint} {lag : OpId → Nat} {t : Turn} {l : List (Endpoint × Nat)} {d₀ : Design}
  {p₀ : Plan} {done rest : List ModuleId} {h : Hierarchy}

theorem turnOf_congr (hr : s'.renames = s.renames) (m : ModuleId) (c : ModuleChanges) :
    turnOf m c s' = turnOf m c s := by
  funext r
  simp only [turnOf, now, hr]

theorem exists_turnOf (H : c.Opened) {r : Endpoint × Nat} (hr : r ∈ c.closings) (m : ModuleId)
    (s : Realizing) : ∃ t, turnOf m c s r = some t := by
  obtain ⟨f, hf⟩ := H r hr
  rw [turnOf, hf]
  exact ⟨_, rfl⟩

/-- All closings of a module that has its endpoints turn. -/
theorem closeTurns_eq (S : s.Sound lag) (H : c.Opened)
    (A : ∀ {n e}, e ∈ c.ends n → Attached rs s m n e) (hl : ∀ r ∈ l, r ∈ c.closings) :
    closeTurns m c l s = l.filterMap (turnOf m c s) := by
  induction l generalizing s with
  | nil => rfl
  | cons r l ih =>
    obtain ⟨hr, hl⟩ := List.forall_mem_cons.mp hl
    have he := mem_ends_of_closing hr
    obtain ⟨f, hf, hm⟩ := H.first he
    obtain ⟨s', F, -⟩ := close_ok S hf (A he) (A hm)
    have hafter : (recorded (close m c r.1 r.2)).after s = s' :=
      EStateM.after_of_ok (recorded_of_ok F.ok)
    have A' : ∀ {n e}, e ∈ c.ends n → Attached rs s' m n e := fun he =>
      (A he).move (moves_of_filled F.filled)
    obtain ⟨t, ht⟩ := exists_turnOf H hr m s
    rw [closeTurns, F.ok, hafter, ih (F.filled.sound S) A' hl, turnOf_congr F.filled.renames, ht,
      List.filterMap_cons_some ht]
    rfl

/-- Every closing makes a turn of its request. -/
theorem map_request_turns (H : c.Opened) (hl : ∀ r ∈ l, r ∈ c.closings) :
    (l.filterMap (turnOf m c s)).map Turn.request = l.map Prod.snd := by
  induction l with
  | nil => rfl
  | cons r l ih =>
    obtain ⟨hr, hl⟩ := List.forall_mem_cons.mp hl
    obtain ⟨t, ht⟩ := exists_turnOf H hr m s
    rw [List.filterMap_cons_some ht, List.map_cons, List.map_cons, ih hl, (module_of_turnOf ht).2]

theorem length_turns (H : c.Opened) (m : ModuleId) (s : Realizing) :
    (c.closings.filterMap (turnOf m c s)).length = c.closings.length := by
  simpa using congrArg List.length (map_request_turns H (m := m) (s := s) fun _ => id)

theorem length_filter_turns (H : c.Opened) (m : ModuleId) (s : Realizing) (n : Nat) :
    ((c.closings.filterMap (turnOf m c s)).filter (·.request = n)).length =
      (c.ends n).length - 1 := by
  have := congrArg (List.countP fun k => decide (k = n))
    (map_request_turns H (m := m) (s := s) fun _ => id)
  rw [List.countP_map, List.countP_map] at this
  rw [H.length_ends, ← List.countP_eq_length_filter, ← List.countP_eq_length_filter]
  exact this

/-- Where two sides meet, the sink is driven from the source. -/
theorem roles_of_turnOf (H : c.Opened) (h : ((c.ends n).map Endpoint.role).Perm [.source, .sink])
    (ht : t ∈ c.closings.filterMap (turnOf m c s)) (hn : t.request = n) :
    t.dest.role = .sink ∧ t.src.role = .source := by
  obtain ⟨f, e, hf, honly, hne⟩ := closing_of_perm H h
  obtain ⟨r, hr, ht⟩ := List.mem_filterMap.mp ht
  have hreq := (module_of_turnOf ht).2
  have hmem : r ∈ c.closings.filter (·.2 = n) := List.mem_filter.mpr ⟨hr, by simp [← hreq, hn]⟩
  rw [honly, List.mem_singleton] at hmem
  subst hmem
  rw [turnOf, hf] at ht
  obtain rfl := Option.some.inj ht
  dsimp only
  cases he : e.role <;> cases hf : f.role <;> simp_all [now]

/-! ### The turns of a run -/

theorem Progress.visitTurns_eq (P : Progress d₀ p₀ rs done s) (matched : p₀.Matched d₀.hierarchy)
    (hm : m ∉ done) (hc : ∀ c ∈ d₀.hierarchy.children m, c ∈ done) (hid : m ∈ d₀.hierarchy.ids) :
    visitTurns m s =
      (s.plan.changesOf m).closings.filterMap (turnOf m (s.plan.changesOf m) s) := by
  have U := P.underway
  unfold visitTurns
  dsimp only
  split
  · rename_i hempty
    simp only [ModuleChanges.isEmpty, Bool.and_eq_true, List.isEmpty_iff] at hempty
    rw [hempty.2, List.filterMap_nil]
  · obtain ⟨x, hx⟩ := P.known hid
    have T : Steady d₀.hierarchy (withoutChanges s m) := P.steady.congr rfl rfl
    have A : ∀ {n e}, e ∈ (s.plan.changesOf m).ends n → Attached rs (withoutChanges s m) m n e :=
      fun he => ⟨(U.attached hm he).visible, (U.attached hm he).linked⟩
    have hports := U.ports hm
    obtain ⟨s₁, h₁, F₁, -⟩ := joinPorts_linked (s := withoutChanges s m) T.sound hx (U.opened hm) A
      fun q hq => (P.roles hm hc _).trans (matched (hports ▸ hq))
    have A₁ : ∀ {n e}, e ∈ (s.plan.changesOf m).ends n → Attached rs s₁ m n e := fun he =>
      (A he).move (moves_of_grown F₁)
    rw [h₁]
    dsimp only
    rw [closeTurns_eq (F₁.sound (sound_grown T.sound hx _)) (U.opened hm) A₁ fun _ => id,
      turnOf_congr F₁.renames]
    rfl

/-- The turns of some modules: each module turns a request once less than it receives endpoints. -/
structure TurnsOf (h : Hierarchy) (p : Plan) (ms : List ModuleId) (ts : List Turn) : Prop where
  length : ∀ m n, (ts.filter fun t => t.module = m ∧ t.request = n).length =
    if m ∈ ms then (expected h p m n).length - 1 else 0
  roles : ∀ t ∈ ts, (expected h p t.module t.request).Perm [.source, .sink] →
    t.dest.role = .sink ∧ t.src.role = .source

theorem TurnsOf.cons {ts ts' : List Turn} {ms : List ModuleId} (T : TurnsOf h p₀ [m] ts)
    (T' : TurnsOf h p₀ ms ts') (hm : m ∉ ms) : TurnsOf h p₀ (m :: ms) (ts ++ ts') where
  length k n := by
    rw [List.filter_append, List.length_append, T.length, T'.length]
    by_cases hk : k = m
    · subst hk
      simp [hm]
    · simp [hk]
  roles t ht := by
    rcases List.mem_append.mp ht with ht | ht
    · exact T.roles t ht
    · exact T'.roles t ht

theorem Progress.turnsOf_visit (P : Progress d₀ p₀ rs done s) (matched : p₀.Matched d₀.hierarchy)
    (hm : m ∉ done) (hc : ∀ c ∈ d₀.hierarchy.children m, c ∈ done) (hid : m ∈ d₀.hierarchy.ids) :
    TurnsOf d₀.hierarchy p₀ [m] (visitTurns m s) := by
  have H := P.underway.opened hm
  have roles := P.roles hm hc
  have module_eq : ∀ t ∈ visitTurns m s, t.module = m := by
    rw [P.visitTurns_eq matched hm hc hid]
    intro t ht
    obtain ⟨r, -, ht⟩ := List.mem_filterMap.mp ht
    exact (module_of_turnOf ht).1
  refine ⟨fun k n => ?_, fun t ht hperm => ?_⟩
  · by_cases hk : k = m
    · subst hk
      have hfilter : (visitTurns k s).filter (fun t => t.module = k ∧ t.request = n) =
          (visitTurns k s).filter (·.request = n) :=
        List.filter_congr fun t ht => by simp [module_eq t ht]
      rw [hfilter, P.visitTurns_eq matched hm hc hid, length_filter_turns H,
        if_pos List.mem_cons_self, ← (roles n).length_eq, List.length_map]
    · have hfilter : (visitTurns m s).filter (fun t => t.module = k ∧ t.request = n) = [] :=
        List.filter_eq_nil_iff.mpr fun t ht => by simp [module_eq t ht, Ne.symm hk]
      rw [hfilter, if_neg (by simpa using hk)]
      rfl
  · have hmod := module_eq t ht
    subst hmod
    rw [P.visitTurns_eq matched hm hc hid] at ht
    exact roles_of_turnOf H ((roles t.request).trans hperm) ht rfl

theorem Progress.turnsOf_rest {rank : ModuleId → Nat} (P : Progress d₀ p₀ rs done s)
    (matched : p₀.Matched d₀.hierarchy) (C : d₀.hierarchy.Closed) (R : d₀.hierarchy.Ranked rank)
    (hdone : done ++ rest = d₀.hierarchy.childrenFirst) :
    TurnsOf d₀.hierarchy p₀ rest (turnsFrom rest s) := by
  induction rest generalizing done s with
  | nil => exact ⟨by simp [turnsFrom], nofun⟩
  | cons m rest ih =>
    obtain ⟨hm, hm', hid, hc⟩ := Hierarchy.childrenFirst_split C R hdone
    obtain ⟨s', h, P', -⟩ := P.visit matched hm hc hid
    rw [turnsFrom, EStateM.after_of_ok h]
    exact (P.turnsOf_visit matched hm hc hid).cons (ih P' (by simpa using hdone)) hm'

/-- The connections of a run are those of the new ports and its turns. -/
theorem Progress.closes_rest {rank : ModuleId → Nat} (P : Progress d₀ p₀ rs done s)
    (matched : p₀.Matched d₀.hierarchy) (C : d₀.hierarchy.Closed) (R : d₀.hierarchy.Ranked rank)
    (hdone : done ++ rest = d₀.hierarchy.childrenFirst) :
    ∃ s', rest.forM Realize.visit s = .ok () s' ∧ s.Closes (turnsFrom rest s).length s' := by
  induction rest generalizing done s with
  | nil => exact ⟨s, rfl, rfl⟩
  | cons m rest ih =>
    obtain ⟨hm, -, hid, hc⟩ := Hierarchy.childrenFirst_split C R hdone
    obtain ⟨s', h, P', closes⟩ := P.visit matched hm hc hid
    obtain ⟨s'', h', closes'⟩ := ih P' (by simpa using hdone)
    refine ⟨s'', (EStateM.bind_of_ok h).trans h', ?_⟩
    rw [turnsFrom, EStateM.after_of_ok h, List.length_append, P.visitTurns_eq matched hm hc hid,
      length_turns (P.underway.opened hm)]
    exact closes.trans closes'

end Realize

/-- The instances in a module that get a port for a request. -/
def gaining (h : Hierarchy) (p : Plan) (n : Nat) (m : ModuleId) : Nat :=
  (h.instances m).countP fun site => (p.changesOf site.child).ports.any (·.request = n)

section

variable {d : Design} {h : Hierarchy} {m : ModuleId} {n : Nat} {s : Planning}
  {rs : List WireRequest} {r : WireRequest} {rank : ModuleId → Nat} {w : Course} {p : Plan}

theorem Planned.turnsOf (S : d.Sound fun _ => 0) (P : Planned d rs rs.length s) :
    Realize.TurnsOf d.hierarchy s.plan d.hierarchy.childrenFirst (turns d s.table s.plan) := by
  obtain ⟨rank, R⟩ := P.table.ranked
  rw [P.hierarchy] at R
  have C := closed_hierarchy S.coherent (Fits.childrenKnown S.fits)
  rw [turns, P.hierarchy]
  exact (Realize.Progress.start S P.hierarchy P.table P.placed).turnsOf_rest
    (P.matched R (plain_hierarchy S.coherent)) C R rfl

/-- Every connection that is counted joins a new port or is a turn. -/
theorem Planned.connections_eq (S : d.Sound fun _ => 0) (P : Planned d rs rs.length s) :
    (realize d s.table s.plan).counts.connections =
      (realize d s.table s.plan).counts.ports + (turns d s.table s.plan).length := by
  obtain ⟨rank, R⟩ := P.table.ranked
  rw [P.hierarchy] at R
  have C := closed_hierarchy S.coherent (Fits.childrenKnown S.fits)
  obtain ⟨s', h, closes⟩ := (Realize.Progress.start S P.hierarchy P.table P.placed).closes_rest
    (P.matched R (plain_hierarchy S.coherent)) C R (List.nil_append d.hierarchy.childrenFirst)
  rw [realize, turns, P.hierarchy, h]
  exact Eq.trans closes (by rw [Nat.zero_add])

theorem length_portRoles {ports : List PlannedPort} (hle : (portRoles ports n).length ≤ 1) :
    (portRoles ports n).length = if ports.any (·.request = n) then 1 else 0 := by
  rw [portRoles, List.length_map] at hle ⊢
  split
  · rename_i hany
    obtain ⟨q, hq, hn⟩ := List.any_eq_true.mp hany
    have hmem : q ∈ ports.filter (·.request = n) := List.mem_filter.mpr ⟨hq, hn⟩
    have := List.length_pos_of_mem hmem
    omega
  · rename_i hany
    rw [List.length_eq_zero_iff, List.filter_eq_nil_iff]
    exact fun q hq hn => hany (List.any_eq_true.mpr ⟨q, hq, hn⟩)

/-- A module receives its own endpoints and one for each instance that gets a port. -/
theorem Plan.Follows.length_expected (F : p.Follows n r w) (W : w.Right h) (R : h.Ranked rank)
    (m : ModuleId) : (expected h p m n).length = (w.ends r m).length + gaining h p n m := by
  have ports : ∀ c, (portRoles (p.changesOf c).ports n).length =
      if (p.changesOf c).ports.any (·.request = n) then 1 else 0 := fun c =>
    length_portRoles ((F.ports c).length_eq ▸ W.length_sides_le R c)
  have step : ∀ l : List (ModuleId × ModuleId),
      (l.flatMap fun e => portRoles (p.changesOf e.2).ports n).length =
        l.countP fun e => (p.changesOf e.2).ports.any (·.request = n) := by
    intro l
    induction l with
    | nil => rfl
    | cons e l ih =>
      rw [List.flatMap_cons, List.length_append, ih, ports, List.countP_cons, Nat.add_comm]
  rw [expected, List.length_append, List.length_map, (F.ends m).length_eq, step, gaining]
  refine congrArg (_ + ·) ?_
  simp only [Hierarchy.sites, Hierarchy.instances, List.countP_filter, List.countP_map]
  apply List.countP_congr
  intro e _
  simp only [Function.comp_apply, Site.ends, Bool.and_eq_true, beq_iff_eq]
  exact and_congr_right fun _ => decide_eq_true_iff

/-- Apart from the meeting, a module turns a request if two of its instances get ports for it. -/
theorem Plan.Follows.length_elsewhere (F : p.Follows n r w) (W : w.Right h) (R : h.Ranked rank)
    (Q : h.Plain) (hm : m ≠ w.module) :
    (expected h p m n).length - 1 = gaining h p n m - 1 ∧
      (h.pathsTo m ≠ [] → gaining h p n m ≤ 1) := by
  have hlen := F.length_expected W R m
  by_cases reached : ∃ qs, h.Trail h.top qs m
  · obtain ⟨qs, T⟩ := reached
    have hperm := (F.expected_perm W R Q T).length_eq
    have hle := W.length_sides_le R m
    have : (Role.those fun role => m ∈ w.passed role) =
        Role.those fun role => m ∈ (w.side role).map Site.child :=
      List.filter_congr fun role _ => by simp [Course.passed, hm]
    rw [this] at hperm
    refine ⟨by omega, fun _ => by omega⟩
  · have owner : ∀ role, w.owner role ≠ m := fun role e =>
      reached ⟨_, e ▸ (W.sole role).trail⟩
    rw [Course.ends_eq, if_neg (owner .source), if_neg (owner .sink)] at hlen
    refine ⟨by simpa using congrArg (· - 1) hlen, fun hne => ?_⟩
    obtain ⟨path, hpath⟩ := List.exists_mem_of_ne_nil _ hne
    obtain ⟨qs, T, -⟩ := ((Hierarchy.mem_pathsTo_iff R).mp hpath).exists_trail
    exact absurd ⟨qs, T⟩ reached

/-- Two paths from the top part in a module. -/
def PartIn (h : Hierarchy) (p q : InstPath) (m : ModuleId) : Prop :=
  ∃ shared xs ys, p = shared ++ xs ∧ q = shared ++ ys ∧ h.Route shared m ∧
    ∀ x ∈ xs.head?, ∀ y ∈ ys.head?, x ≠ y

theorem Course.Right.partIn (W : w.Right h) (Q : h.Plain) :
    PartIn h ((w.shared ++ w.side .source).map Site.op) ((w.shared ++ w.side .sink).map Site.op)
      w.module := by
  refine ⟨w.shared.map Site.op, (w.side .source).map Site.op, (w.side .sink).map Site.op,
    List.map_append, List.map_append, W.meets.route, fun x hx y hy e => ?_⟩
  rw [List.head?_map, Option.mem_def, Option.map_eq_some_iff] at hx hy
  obtain ⟨x, hx, rfl⟩ := hx
  obtain ⟨y, hy, rfl⟩ := hy
  have hxs := (W.trail .source).sites x (List.mem_of_mem_head? hx)
  have hys := (W.trail .sink).sites y (List.mem_of_mem_head? hy)
  exact W.parts x hx y hy (Q.site_eq hxs hys e)

theorem gaining_of_unknown (C : h.Closed) (hm : m ∉ h.ids) (p : Plan) (n : Nat) :
    gaining h p n m = 0 := by
  apply List.countP_eq_zero.mpr
  intro site hs
  obtain ⟨e, he, -⟩ := List.mem_map.mp hs
  obtain ⟨hedge, hp⟩ := List.mem_filter.mp he
  have hp : e.parent = m := by simpa using hp
  exact absurd (hp ▸ C.parent hedge) hm

/-- A request that turns once in a module turns once in all just if it turns in no other module. -/
theorem length_requests_eq_one_iff {ts : List Turn}
    (one : (ts.filter fun t => t.module = m ∧ t.request = n).length = 1) :
    (ts.filter (·.request = n)).length = 1 ↔
      ∀ m' ≠ m, (ts.filter fun t => t.module = m' ∧ t.request = n).length = 0 := by
  have here : (ts.filter (·.request = n)).filter (·.module = m) =
      ts.filter fun t => t.module = m ∧ t.request = n := by
    rw [List.filter_filter]
    exact List.filter_congr fun t _ => by simp
  rw [List.length_eq_length_filter_add (fun t : Turn => decide (t.module = m)), here, one,
    Nat.add_eq_left, List.length_eq_zero_iff, List.filter_eq_nil_iff]
  constructor
  · intro h m' hne
    rw [List.length_eq_zero_iff, List.filter_eq_nil_iff]
    intro t ht hm
    obtain ⟨rfl, hn⟩ : t.module = m' ∧ t.request = n := by simpa using hm
    exact h t (List.mem_filter.mpr ⟨ht, by simpa using hn⟩) (by simpa using hne)
  · intro h t ht hm
    obtain ⟨ht, hn⟩ := List.mem_filter.mp ht
    have hnone := h t.module (by simpa using hm)
    rw [List.length_eq_zero_iff, List.filter_eq_nil_iff] at hnone
    exact hnone t ht (by simpa using hn)

/-- If a request turns elsewhere once less than a number, then only the numbers of the modules far
from the top are left to be small. -/
theorem length_turns_eq_one_iff {ts : List Turn} {number : ModuleId → Nat} {far : ModuleId → Prop}
    (near : ¬far m) (one : (ts.filter fun t => t.module = m ∧ t.request = n).length = 1)
    (other : ∀ m' ≠ m, (ts.filter fun t => t.module = m' ∧ t.request = n).length = number m' - 1)
    (few : ∀ m' ≠ m, ¬far m' → number m' ≤ 1) :
    (ts.filter (·.request = n)).length = 1 ↔ ∀ m', far m' → number m' ≤ 1 := by
  rw [length_requests_eq_one_iff one]
  constructor
  · intro h m' hfar
    have hne : m' ≠ m := fun e => near (e ▸ hfar)
    have hnone := h m' hne
    rw [other m' hne] at hnone
    omega
  · intro h m' hne
    have hle : number m' ≤ 1 := by
      by_cases hfar : far m'
      · exact h m' hfar
      · exact few m' hne hfar
    rw [other m' hne]
    omega

/-- The turns of a request whose course the plan follows. -/
theorem Planned.turns_course (S : d.Sound fun _ => 0) (P : Planned d rs rs.length s)
    (R : d.hierarchy.Ranked rank) (W : w.Right d.hierarchy) (F : s.plan.Follows n r w) :
    (∃ t, (turns d s.table s.plan).filter (fun t => t.module = w.module ∧ t.request = n) = [t] ∧
      t.dest.role = .sink ∧ t.src.role = .source) ∧
    (∀ m' ≠ w.module, ((turns d s.table s.plan).filter
      fun t => t.module = m' ∧ t.request = n).length = gaining d.hierarchy s.plan n m' - 1) ∧
    (((turns d s.table s.plan).filter (·.request = n)).length = 1 ↔
      ∀ m', d.hierarchy.pathsTo m' = [] → gaining d.hierarchy s.plan n m' ≤ 1) := by
  have Q := plain_hierarchy S.coherent
  have C := closed_hierarchy S.coherent (Fits.childrenKnown S.fits)
  have G := P.turnsOf S
  have hmeet := F.expected_meeting W R Q
  have one : ((turns d s.table s.plan).filter
      fun t => t.module = w.module ∧ t.request = n).length = 1 := by
    rw [G.length, if_pos ((Hierarchy.mem_childrenFirst C).mpr (W.meets.end_mem C)),
      hmeet.length_eq]
    rfl
  have other : ∀ m' ≠ w.module, ((turns d s.table s.plan).filter
      fun t => t.module = m' ∧ t.request = n).length = gaining d.hierarchy s.plan n m' - 1 := by
    intro m' hne
    rw [G.length]
    split
    · exact (F.length_elsewhere W R Q hne).1
    · rename_i hm'
      rw [gaining_of_unknown C fun hid => hm' ((Hierarchy.mem_childrenFirst C).mpr hid)]
  have near : ¬d.hierarchy.pathsTo w.module = [] :=
    List.ne_nil_of_mem ((Hierarchy.mem_pathsTo_iff R).mpr W.meets.route)
  refine ⟨?_, other, length_turns_eq_one_iff near one other
    fun m' hne => (F.length_elsewhere W R Q hne).2⟩
  obtain ⟨t, ht⟩ := List.length_eq_one_iff.mp one
  have hmem : t ∈ turns d s.table s.plan ∧ t.module = w.module ∧ t.request = n := by
    have := List.mem_filter.mp (ht ▸ List.mem_cons_self : t ∈ List.filter _ _)
    simpa using this
  exact ⟨t, ht, G.roles t hmem.1 (by rw [hmem.2.1, hmem.2.2]; exact hmeet)⟩

/-- The connections of a run join its new ports or are its turns, and each turn is a connection in
the design that is left, by a new operation of its own. A request that is planned turns once in the
module where the paths to its values part, and there its sink is driven from its source. Every other
module turns it once less than it has instances that get ports for it. So it turns once in the whole
design just if no module without a path from the top has two of them. -/
theorem turns_realize_plan {errors : List LowerError} {a b : ModuleId} {pa pb : InstPath}
    (H : d.Built) (hd : d.check = .ok ()) (hh : Hierarchy.ofDesign d = .ok h) (ms : List ModuleId)
    (hplan : plan d ((PathTable.ofHierarchy h).asked ms) rs = .ok (s, errors))
    (hr : rs[n]? = some r) (ha : d.valueModule r.source = .ok a) (hb : d.valueModule r.sink = .ok b)
    (hpa : ((PathTable.ofHierarchy h).paths a).1 = [pa])
    (hpb : ((PathTable.ofHierarchy h).paths b).1 = [pb]) :
    (realize d s.table s.plan).counts.connections =
        (realize d s.table s.plan).counts.ports + (turns d s.table s.plan).length ∧
      (∃ os, List.Forall₂ (fun t o => (realize d s.table s.plan).design.Connection t.module
          t.dest.value t.src.value o) (turns d s.table s.plan) os ∧
        os.Nodup ∧ ∀ o ∈ os, d.ops.length ≤ o.index) ∧
      ∃ m, PartIn h pa pb m ∧
      (∃ t, (turns d s.table s.plan).filter (fun t => t.module = m ∧ t.request = n) = [t] ∧
        t.dest.role = .sink ∧ t.src.role = .source) ∧
      (∀ m' ≠ m, ((turns d s.table s.plan).filter fun t => t.module = m' ∧ t.request = n).length =
        gaining h s.plan n m' - 1) ∧
      (((turns d s.table s.plan).filter (·.request = n)).length = 1 ↔
        ∀ m', ((PathTable.ofHierarchy h).paths m').1 = [] → gaining h s.plan n m' ≤ 1) := by
  have K := H.coherent
  obtain ⟨hv, hf⟩ := (check_eq_ok_iff K).mp hd
  have S : d.Sound fun _ => 0 := ⟨K, hv, hf⟩
  have hpaths := paths_of_design K hh
  obtain ⟨ht, T⟩ := table_of_design K hh ms
  obtain ⟨-, -, rfl⟩ := (Hierarchy.ofDesign_eq_ok_iff K).mp hh
  obtain ⟨rank, R⟩ := T.ranked
  rw [ht] at R
  have Q := plain_hierarchy K
  simp only [hpaths] at hpa hpb ⊢
  rcases plan_cases S ht T rs with ⟨s', errors', hplan', P, -⟩ | ⟨o, hplan', -⟩ <;>
    rw [hplan] at hplan'
  · cases hplan'
    obtain ⟨w, W, owners, F⟩ := P.course (List.getElem?_eq_some_iff.mp hr).1 hr fun role => by
      cases role
      · exact ⟨a, pa, ha, hpa⟩
      · exact ⟨b, pb, hb, hpb⟩
    obtain rfl : a = w.owner .source := Except.ok.inj (ha.symm.trans (owners .source))
    obtain rfl : b = w.owner .sink := Except.ok.inj (hb.symm.trans (owners .sink))
    obtain rfl := (W.sole .source).path_eq R hpa
    obtain rfl := (W.sole .sink).path_eq R hpb
    obtain ⟨one, other, once⟩ := P.turns_course S R W F
    obtain ⟨os, E⟩ := exists_entered_turns S P.hierarchy P.table _
    exact ⟨P.connections_eq S, ⟨os, E.connections.imp fun _ _ => And.right, E.nodup,
      fun o ho => (E.within o ho).1⟩, w.module, W.partIn Q, one, other, once⟩
  · cases hplan'

/-- The module that instantiates twice what gets a port, and has no path from the top, turns the
request once more, from one source to another. -/
theorem turns_realize_plan_upwards : ∃ s errors,
    plan sideInstances (.ofHierarchy sideInstances.hierarchy) [upwards] = .ok (s, errors) ∧
      gaining sideInstances.hierarchy s.plan 0 ⟨2⟩ = 2 ∧
      ((turns sideInstances s.table s.plan).filter (·.request = 0)).length ≠ 1 ∧
      ∃ t ∈ turns sideInstances s.table s.plan, t.module = ⟨2⟩ ∧ t.dest.role = .source ∧
        t.src.role = .source ∧ ∃ o, (realize sideInstances s.table s.plan).design.Connection ⟨2⟩
          t.dest.value t.src.value o := by
  obtain ⟨H, hd, hh⟩ := sideInstances_sound
  have run : (plan sideInstances (.ofHierarchy sideInstances.hierarchy) [upwards]).toOption.any
      (fun r : Planning × List LowerError => decide (
        gaining sideInstances.hierarchy r.1.plan 0 ⟨2⟩ = 2 ∧
        ∃ t ∈ turns sideInstances r.1.table r.1.plan,
          t.module = ⟨2⟩ ∧ t.dest.role = .source ∧ t.src.role = .source)) = true := by
    decide +kernel
  cases hplan : plan sideInstances (.ofHierarchy sideInstances.hierarchy) [upwards] with
  | error o =>
    rw [hplan] at run
    cases run
  | ok result =>
    obtain ⟨s, errors⟩ := result
    rw [hplan] at run
    simp only [Except.toOption, Option.any_some, decide_eq_true_eq] at run
    have ha : sideInstances.valueModule upwards.source = .ok ⟨1⟩ := by decide +kernel
    have hb : sideInstances.valueModule upwards.sink = .ok ⟨0⟩ := by decide +kernel
    have hpa : ((PathTable.ofHierarchy sideInstances.hierarchy).paths ⟨1⟩).1 = [[⟨2⟩]] := by
      decide +kernel
    have hpb : ((PathTable.ofHierarchy sideInstances.hierarchy).paths ⟨0⟩).1 = [[]] := by
      decide +kernel
    have hr : [upwards][0]? = some upwards := rfl
    obtain ⟨two, t, ht, module, dest, src⟩ := run
    obtain ⟨-, ⟨os, connected, -⟩, -, -, -, -, honce⟩ :=
      turns_realize_plan H hd hh [] hplan hr ha hb hpa hpb
    obtain ⟨i, hi, rfl⟩ := List.mem_iff_getElem.mp ht
    have here := connected.get hi (connected.length_eq ▸ hi)
    refine ⟨s, errors, rfl, two, fun h => ?_, _, ht, module, dest, src, _, module ▸ here⟩
    have := honce.mp h ⟨2⟩ (by decide +kernel)
    rw [two] at this
    exact absurd this (by decide)

end

end AnnotatedCircuit.Wiring
