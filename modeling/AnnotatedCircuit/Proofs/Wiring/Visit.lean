import AnnotatedCircuit.Proofs.Wiring.Joining

/-!
# Visiting the modules of a matched plan

In a matched plan every new port finds an endpoint of its own role. Such a plan is carried out
without an error: a visit keeps all endpoints linked (`Progress.visit`), and a request is joined in
every module that receives one endpoint of each role.
-/

namespace AnnotatedCircuit.Wiring

open Design

/-- Every new port has just one endpoint in its module, of the role that the port has outside. -/
def Plan.Matched (h : Hierarchy) (p : Plan) : Prop :=
  ∀ {m q}, q ∈ (p.changesOf m).ports →
    (expected h p m q.request).Perm [Realize.roleOfResult q.port.direction]

/-- Besides one for each new port, a number of connections was made. -/
def Realizing.Closes (s : Realizing) (k : Nat) (s' : Realizing) : Prop :=
  s'.counts.connections + s.counts.ports = s.counts.connections + s'.counts.ports + k

theorem Realizing.Closes.trans {s s' s'' : Realizing} {j k : Nat} (h : s.Closes j s')
    (h' : s'.Closes k s'') : s.Closes (j + k) s'' := by
  unfold Realizing.Closes at *
  omega

namespace Realize

variable {rs : List WireRequest} {s s' : Realizing} {m : ModuleId} {c : ModuleChanges} {n : Nat}
  {e f : Endpoint} {lag : OpId → Nat} {x : Module} {base : Nat} {ports : List PlannedPort}
  {site : Site} {op : Op} {types : List SignalType} {τ : ValueId → ValueId} {role : Role}

theorem role_of_perm {l : List Endpoint} (h : (l.map Endpoint.role).Perm [role]) (he : e ∈ l) :
    e.role = role :=
  List.mem_singleton.mp (h.mem_iff.mp (List.mem_map_of_mem he))

/-- A request with a single role has a first endpoint of this role. -/
theorem first_of_perm (H : c.Opened) (h : ((c.ends n).map Endpoint.role).Perm [role]) :
    ∃ f, c.endpoints.find? n = some f ∧ f ∈ c.ends n ∧ f.role = role := by
  obtain ⟨e, he, -⟩ := List.mem_map.mp (h.mem_iff.mpr List.mem_cons_self)
  obtain ⟨f, hf, hm⟩ := H.first he
  exact ⟨f, hf, hm, role_of_perm h hm⟩

theorem mem_ends_of_closing {r : Endpoint × Nat} (hr : r ∈ c.closings) : r.1 ∈ c.ends r.2 :=
  List.mem_append_right _ (List.mem_map.mpr ⟨r, List.mem_filter.mpr ⟨hr, by simp⟩, rfl⟩)

/-- A request with two endpoints of different roles is closed once, by the second one. -/
theorem closing_of_perm (H : c.Opened)
    (h : ((c.ends n).map Endpoint.role).Perm [.source, .sink]) :
    ∃ f e, c.endpoints.find? n = some f ∧ c.closings.filter (·.2 = n) = [(e, n)] ∧
      e.role ≠ f.role := by
  obtain ⟨e, he, -⟩ := List.mem_map.mp (h.mem_iff.mpr List.mem_cons_self)
  obtain ⟨f, hf, -⟩ := H.first he
  have hlen := h.length_eq
  rw [List.length_map, ModuleChanges.ends, hf, Option.toList_some, List.length_append,
    List.length_map] at hlen
  obtain ⟨r, hr⟩ := List.length_eq_one_iff.mp (Nat.add_left_cancel hlen : _ = 1)
  have hmem : r ∈ c.closings.filter (·.2 = n) := hr ▸ List.mem_cons_self
  obtain rfl : r.2 = n := by simpa using (List.mem_filter.mp hmem).2
  refine ⟨f, r.1, hf, hr, fun e => ?_⟩
  rw [ModuleChanges.ends, hf, hr] at h
  have hnodup := h.nodup_iff.mpr (by decide)
  simp [e] at hnodup

/-! ### The phases of a visit -/

theorem valueModule_grown {r : PlannedPort × ValueId}
    (hr : r ∈ ports.zip (s.design.nextValues (ports.map (·.port)))) :
    (grown s m x ports).design.valueModule r.2 = .ok m := by
  obtain ⟨i, hi⟩ := List.mem_iff_getElem?.mp (List.of_mem_zip (a := r.1) (b := r.2) hr).2
  obtain ⟨hlt, hv⟩ := getElem?_nextValues.mp hi
  exact valueModule_eq_ok_iff.mpr ⟨_, .inl ⟨_, value?_enterPorts.mpr
    (.inr ⟨i, _, List.getElem?_eq_getElem hlt, hv, rfl⟩)⟩⟩

/-- Growing ports and entering operations extends the design and renames nothing. -/
theorem moves_of_grown (F : (grown s m x ports).Filled s') : Moves id s s' :=
  moves_of_extends (.trans (extends_enterPorts ..) F.design.extension) F.renames

/-- The new ports are joined with their endpoints. -/
theorem joinPorts_linked (S : s.Sound fun _ => 0) (hx : s.design.module? m = some x)
    (H : c.Opened) (A : ∀ {n e}, e ∈ c.ends n → Attached rs s m n e)
    (matched : ∀ q ∈ c.ports,
      ((c.ends q.request).map Endpoint.role).Perm [roleOfResult q.port.direction]) :
    ∃ s', joinPorts m c s = .ok () s' ∧ (grown s m x c.ports).Filled s' ∧ s'.errors = s.errors ∧
      s.Closes 0 s' ∧ ∀ r ∈ c.ports.zip (s.design.nextValues (c.ports.map (·.port))),
        Linked rs s' r.1.request (roleOfResult r.1.port.direction) r.2 := by
  have S' := sound_grown S hx c.ports
  rw [joinPorts_eq hx]
  obtain ⟨s', F, hl⟩ := forM_recorded_fills
    (x := fun r : PlannedPort × ValueId => joinPort m c r.1 r.2)
    (D := fun r s' => Linked rs s' r.1.request (roleOfResult r.1.port.direction) r.2)
    (s := grown s m x c.ports)
    (fun h F => h.move (moves_of_filled F)) fun r hr s' F => by
      obtain ⟨f, hf, hm, hrole⟩ := first_of_perm H (matched r.1 (List.of_mem_zip hr).1)
      have hp := (moves_of_filled F).valueModule (valueModule_grown hr)
      exact joinPort_ok (F.sound S') hf ((A hm).move (moves_of_grown F)) hrole hp
  have closes : s.Closes 0 s' := by
    rw [Realizing.Closes, F.counts, List.length_zip, length_nextValues, List.length_map,
      Nat.min_self]
    simp only [grown]
    omega
  exact ⟨s', F.ok, F.filled, F.errors, closes, hl⟩

/-- The requests that meet in a module are joined. -/
theorem closeAll_joined (S : s.Sound lag) (H : c.Opened)
    (A : ∀ {n e}, e ∈ c.ends n → Attached rs s m n e) :
    ∃ s', Fills (closeAll m c) c.closings.length s s' ∧ ∀ {n},
      ((c.ends n).map Endpoint.role).Perm [.source, .sink] → Joined rs s' n := by
  obtain ⟨s', F, hj⟩ := forM_recorded_fills
    (x := fun r : Endpoint × Nat => close m c r.1 r.2) (l := c.closings) (s := s)
    (D := fun r s' => ∀ f, c.endpoints.find? r.2 = some f → r.1.role ≠ f.role → Joined rs s' r.2)
    (fun h F f hf hne => (h f hf hne).move (moves_of_filled F)) fun r hr s' F => by
      have he := mem_ends_of_closing hr
      obtain ⟨f, hf, hm⟩ := H.first he
      obtain ⟨s'', F', hJ⟩ := close_ok (F.sound S) hf ((A he).move (moves_of_filled F))
        ((A hm).move (moves_of_filled F))
      refine ⟨s'', F', fun f' hf' => ?_⟩
      rw [hf] at hf'
      cases hf'
      exact hJ
  refine ⟨s', F, fun h => ?_⟩
  obtain ⟨f, e, hf, honly, hne⟩ := closing_of_perm H h
  have hmem : (e, _) ∈ c.closings := (List.mem_filter.mp (honly ▸ List.mem_cons_self)).1
  exact hj _ hmem f hf hne

/-! ### The instances of a visited module -/

/-- The last ports of a module are linked as their plans ask. -/
def PortsLinked (rs : List WireRequest) (m : ModuleId) (base : Nat) (ports : List PlannedPort)
    (s : Realizing) : Prop :=
  ∃ x, s.design.module? m = some x ∧ x.ports.length = base + ports.length ∧
    ∀ i q, ports[i]? = some q → ∃ r, x.ports[base + i]? = some r ∧
      r.direction = q.port.direction ∧ Linked rs s q.request (roleOfResult q.port.direction) r.value

/-- The ports that have grown, once they are linked. -/
theorem PortsLinked.grown (hx : s.design.module? m = some x)
    (F : (Realize.grown s m x ports).Filled s')
    (linked : ∀ r ∈ ports.zip (s.design.nextValues (ports.map (·.port))),
      Linked rs s' r.1.request (roleOfResult r.1.port.direction) r.2) :
    PortsLinked rs m x.ports.length ports s' := by
  obtain ⟨y₀, hg, -, -, hgrown⟩ :=
    exists_module?_enterPorts hx m x.ports.length (ports.map (·.port))
  rw [if_pos rfl] at hgrown
  obtain ⟨y, hy, hports⟩ := F.design.same_ports hg
  rw [hgrown] at hports
  refine ⟨y, hy, by simp [hports], fun i q hq => ?_⟩
  have hi : i < ports.length := (List.getElem?_eq_some_iff.mp hq).1
  refine ⟨⟨q.port, ⟨s.design.values.length + i⟩⟩, ?_, rfl, ?_⟩
  · rw [hports, List.getElem?_append_right (Nat.le_add_right ..), Nat.add_sub_cancel_left]
    exact getElem?_nextPorts.mpr ⟨q.port, by rw [List.getElem?_map, hq]; rfl, rfl⟩
  · refine linked (q, ⟨s.design.values.length + i⟩) (List.mem_of_getElem? (i := i) ?_)
    rw [List.getElem?_zip_eq_some]
    exact ⟨hq, getElem?_nextValues.mpr ⟨by simpa using hi, rfl⟩⟩

theorem PortsLinked.filled (P : PortsLinked rs m base ports s) (F : s.Filled s') :
    PortsLinked rs m base ports s' := by
  obtain ⟨x, hx, hlen, hp⟩ := P
  obtain ⟨y, hy, hports⟩ := F.design.same_ports hx
  refine ⟨y, hy, hports ▸ hlen, fun i q hq => ?_⟩
  obtain ⟨r, hr, hd, hl⟩ := hp i q hq
  exact ⟨r, hports ▸ hr, hd, hl.move (moves_of_filled F)⟩

theorem PortsLinked.reissued {d₀ : Design} (P : PortsLinked rs m base ports s)
    (R : Reissuing ports site op types s s') (S : s.design.Sound lag) (K : Kept d₀ s) :
    PortsLinked rs m base ports s' := by
  obtain ⟨x, hx, hlen, hp⟩ := P
  refine ⟨_, R.design.module_some hx, hlen, fun i q hq => ?_⟩
  obtain ⟨r, hr, hd, hl⟩ := hp i q hq
  have hl' := hl.move (R.moves S K)
  rw [resultRenaming_port S.coherent R.live (R.length ▸ Nat.le_add_right ..) hx hr] at hl'
  exact ⟨r, hr, hd, hl'⟩

/-- The results of a copy for new ports are linked as these are. -/
theorem PortsLinked.results (P : PortsLinked rs site.child op.results.length ports s')
    (R : Reissuing ports site op types s s') :
    ∀ r ∈ ports.zip ((s.design.nextValues types).drop op.results.length),
      Linked rs s' r.1.request (roleOfResult r.1.port.direction) r.2 := by
  obtain ⟨x, hx, -, hp⟩ := P
  intro r hr
  obtain ⟨i, hi⟩ := List.mem_iff_getElem?.mp hr
  obtain ⟨hq, hv⟩ := List.getElem?_zip_eq_some.mp hi
  rw [List.getElem?_drop] at hv
  obtain ⟨port, hport, hd, hl⟩ := hp i r.1 hq
  cases h : r.1.port.direction with
  | output =>
    rw [h] at hd hl
    exact hl.forward (Feeds.leave R.design.op_copy R.child hx hport hv hd).drives
  | input =>
    rw [h] at hd hl
    exact hl.backward (Feeds.enter R.design.op_copy R.child hx hport hv hd).drives

/-- The new ports of the last module are spreading to its instances. -/
structure Spreading (d₀ : Design) (p₀ : Plan) (rs : List WireRequest) (done : List ModuleId)
    (m : ModuleId) (base : Nat) (ports : List PlannedPort) (sites : List Site) (s : Realizing) :
    Prop where
  alike : d₀.hierarchy.Alike s.table.hierarchy
  errors : s.errors = []
  kept : Kept d₀ s
  underway : Underway d₀.hierarchy p₀ rs done (coming ports sites) s
  linked : PortsLinked rs m base ports s
  sites : ∀ site ∈ sites, site.child = m
  joined : ∀ k ∈ done, ∀ n, (expected d₀.hierarchy p₀ k n).Perm [.source, .sink] → Joined rs s n

variable {d₀ : Design} {p₀ : Plan} {done : List ModuleId} {sites : List Site}

theorem Spreading.step (C : Catching ports (site :: sites) s)
    (R : Reissuing ports site op types s s')
    (P : Spreading d₀ p₀ rs done m base ports (site :: sites) s) :
    Spreading d₀ p₀ rs done m base ports sites s' := by
  have S := C.sound.design
  have M := R.moves S P.kept
  have K := R.kept S P.kept
  obtain ⟨hchild, hsites⟩ := List.forall_mem_cons.mp P.sites
  subst hchild
  have L := P.linked.reissued R S P.kept
  have hbase : op.results.length = base := by
    obtain ⟨x, hx, hlen, -⟩ := P.linked
    obtain ⟨y, hy, hl⟩ := S.fits R.live R.child
    rw [hx] at hy
    cases hy
    have hl : op.results.length + ports.length = x.ports.length := by simpa using hl
    exact Nat.add_right_cancel (hl.trans hlen)
  have results := PortsLinked.results (hbase ▸ L) R
  exact ⟨R.table ▸ P.alike.trans (Hierarchy.alike_renamed ..), R.errors.trans P.errors, K,
    P.underway.reissued R M K.follow_live results, L, hsites,
    fun k hk n hn => (P.joined k hk n hn).move M⟩

/-! ### A visit -/

/-- The modules of `done` were visited without an error. -/
structure Progress (d₀ : Design) (p₀ : Plan) (rs : List WireRequest) (done : List ModuleId)
    (s : Realizing) : Prop where
  steady : Steady d₀.hierarchy s
  errors : s.errors = []
  kept : Kept d₀ s
  underway : Underway d₀.hierarchy p₀ rs done (fun _ _ => []) s
  joined : ∀ k ∈ done, ∀ n, (expected d₀.hierarchy p₀ k n).Perm [.source, .sink] → Joined rs s n

theorem coming_of_no_ports (sites : List Site) : coming [] sites = fun _ _ => [] := by
  funext m n
  simp [coming, portRoles]

theorem visit_eq (m : ModuleId) (s : Realizing) : visit m s =
    if (s.plan.changesOf m).isEmpty then .ok () (withoutChanges s m)
    else recorded (realizeModule m (s.plan.changesOf m)) (withoutChanges s m) := by
  cases hc : s.plan.changes.find? m with
  | some c =>
    rw [visit_of_some hc, Plan.changesOf, hc]
    rfl
  | none =>
    have hplan : s.plan.changes.erase m = s.plan.changes := OrderedMap.ext <| by
      apply List.filter_eq_self.mpr
      intro e he
      have hm : m ∉ s.plan.changes.keys := by
        rw [← OrderedMap.contains_iff, OrderedMap.contains, hc]
        simp
      have : e.1 ≠ m := fun h => hm (h ▸ List.mem_map_of_mem he)
      simpa using this
    rw [visit_of_none hc, Plan.changesOf, hc, withoutChanges, hplan]
    rfl

theorem nothing_of_isEmpty (h : c.isEmpty = true) :
    c.ports = [] ∧ c.closings = [] ∧ ∀ n, c.ends n = [] := by
  simp only [ModuleChanges.isEmpty, Bool.and_eq_true, List.isEmpty_iff, OrderedMap.isEmpty] at h
  obtain ⟨⟨hp, he⟩, hc⟩ := h
  refine ⟨hp, hc, fun n => ?_⟩
  rw [ModuleChanges.ends, hc, OrderedMap.find?, he]
  rfl

theorem Kept.grown (K : Kept d₀ s) (H : s.design.Coherent)
    (F : (Realize.grown s m x ports).Filled s') : Kept d₀ s' :=
  K.extends H (.trans (extends_enterPorts ..) F.design.extension) F.renames

theorem closes_of_fills {y : Realize Unit} {k : Nat} (F : Fills y k s s') : s.Closes k s' := by
  rw [Realizing.Closes, F.counts]
  exact Nat.add_right_comm ..

theorem closes_of_reissuing (R : Reissuing ports site op types s s') : s.Closes 0 s' := by
  rw [Realizing.Closes, R.counts]
  rfl

/-- Once its ports are joined and its requests are closed, a module hands its ports on. -/
theorem Spreading.start (T : Steady d₀.hierarchy s) (he : s.errors = []) (K : Kept d₀ s)
    (U : Underway d₀.hierarchy p₀ rs (done ++ [m]) (coming ports (s.table.hierarchy.uses m)) s)
    (J : ∀ k ∈ done, ∀ n, (expected d₀.hierarchy p₀ k n).Perm [.source, .sink] → Joined rs s n)
    (F : (grown s m x ports).Filled s') (he' : s'.errors = s.errors)
    (L : PortsLinked rs m x.ports.length ports s')
    (J' : ∀ n, (expected d₀.hierarchy p₀ m n).Perm [.source, .sink] → Joined rs s' n) :
    Spreading d₀ p₀ rs (done ++ [m]) m x.ports.length ports (s'.table.hierarchy.uses m) s' := by
  have M := moves_of_grown F
  have ht : s'.table = s.table := F.table
  refine
    { alike := ht ▸ T.alike, errors := he'.trans he, kept := K.grown T.sound.design.coherent F,
      underway := ?_, linked := L, sites := fun site hs => (Hierarchy.mem_uses_iff.mp hs).2,
      joined := fun k hk n hn => ?_ }
  · rw [ht]
    exact U.move M F.plan
  · rcases List.mem_append.mp hk with hk | hk
    · exact (J k hk n hn).move M
    · obtain rfl := List.mem_singleton.mp hk
      exact J' n hn

/-- The changes of a module whose children were visited are carried out without an error. -/
theorem realizeModule_progress (T : Steady d₀.hierarchy s) (he : s.errors = []) (K : Kept d₀ s)
    (U : Underway d₀.hierarchy p₀ rs (done ++ [m]) (coming c.ports (s.table.hierarchy.uses m)) s)
    (J : ∀ k ∈ done, ∀ n, (expected d₀.hierarchy p₀ k n).Perm [.source, .sink] → Joined rs s n)
    (hx : s.design.module? m = some x) (H : c.Opened)
    (A : ∀ {n e}, e ∈ c.ends n → Attached rs s m n e)
    (roles : ∀ n, ((c.ends n).map Endpoint.role).Perm (expected d₀.hierarchy p₀ m n))
    (matched : ∀ q ∈ c.ports,
      ((c.ends q.request).map Endpoint.role).Perm [roleOfResult q.port.direction]) :
    ∃ s', realizeModule m c s = .ok () s' ∧ Progress d₀ p₀ rs (done ++ [m]) s' ∧
      s.Closes c.closings.length s' := by
  have G := sound_grown T.sound hx c.ports
  obtain ⟨s₁, h₁, F₁, e₁, k₁, L₁⟩ := joinPorts_linked T.sound hx H A matched
  obtain ⟨s₂, F₂, J₂⟩ := closeAll_joined (F₁.sound G) H fun he => (A he).move (moves_of_grown F₁)
  have F := F₁.trans F₂.filled
  have ht : s₂.table = s.table := F.table
  have spread := Spreading.start T he K U J F (F₂.errors.trans e₁)
    ((PortsLinked.grown hx F₁ L₁).filled F₂.filled) fun n hn => J₂ ((roles n).trans hn)
  have closes : s.Closes c.closings.length s₂ := by
    rw [← Nat.zero_add c.closings.length]
    exact k₁.trans (closes_of_fills F₂)
  obtain ⟨s₃, h₃, S₃, hQ⟩ := reissueAll_ok (Q := fun sites s' =>
      Spreading d₀ p₀ rs (done ++ [m]) m x.ports.length c.ports sites s' ∧
        s.Closes c.closings.length s') c.ports
    (fun C R ⟨P, hk⟩ => ⟨P.step C R, hk.trans (closes_of_reissuing R)⟩)
    (ht ▸ F.sound G) ⟨spread, closes⟩
  refine ⟨s₃, (EStateM.bind_of_ok h₁).trans ((EStateM.bind_of_ok F₂.ok).trans h₃), ?_⟩
  rcases hQ with ⟨hnone, rfl⟩ | ⟨P, closes⟩
  · have U₃ := spread.underway
    rw [hnone, coming_of_no_ports] at U₃
    exact ⟨⟨⟨S₃, spread.alike⟩, spread.errors, spread.kept, U₃, spread.joined⟩, closes⟩
  · exact ⟨⟨⟨S₃, P.alike⟩, P.errors, P.kept, P.underway, P.joined⟩, closes⟩

/-- A module whose children were visited has received all its endpoints. -/
theorem Progress.roles (P : Progress d₀ p₀ rs done s) (hm : m ∉ done)
    (hc : ∀ c ∈ d₀.hierarchy.children m, c ∈ done) (n : Nat) :
    (((s.plan.changesOf m).ends n).map Endpoint.role).Perm (expected d₀.hierarchy p₀ m n) := by
  have := P.underway.roles hm n
  rwa [List.append_nil, received_children hc] at this

theorem Progress.known (P : Progress d₀ p₀ rs done s) (hid : m ∈ d₀.hierarchy.ids) :
    ∃ x, s.design.module? m = some x := by
  rw [← mem_ids_hierarchy P.steady.sound.design.coherent, ← P.steady.sound.hierarchy,
    P.steady.alike.ids]
  exact hid

theorem Progress.visit (P : Progress d₀ p₀ rs done s) (matched : p₀.Matched d₀.hierarchy)
    (hm : m ∉ done) (hc : ∀ c ∈ d₀.hierarchy.children m, c ∈ done) (hid : m ∈ d₀.hierarchy.ids) :
    ∃ s', Realize.visit m s = .ok () s' ∧ Progress d₀ p₀ rs (done ++ [m]) s' ∧
      s.Closes (s.plan.changesOf m).closings.length s' := by
  have U := P.underway
  have roles := P.roles hm hc
  have hports := U.ports hm
  have U' := U.begin hm P.steady.alike
  rw [← hports] at U'
  have T : Steady d₀.hierarchy (withoutChanges s m) := P.steady.congr rfl rfl
  have K : Kept d₀ (withoutChanges s m) := ⟨P.kept.dead, P.kept.traced, P.kept.ports⟩
  rw [visit_eq]
  split
  · rename_i hempty
    obtain ⟨noports, noclosings, noends⟩ := nothing_of_isEmpty hempty
    rw [noports, coming_of_no_ports] at U'
    refine ⟨_, rfl, ⟨T, P.errors, K, U', fun k hk n hn => ?_⟩, ?_⟩
    · rcases List.mem_append.mp hk with hk | hk
      · exact P.joined k hk n hn
      · obtain rfl := List.mem_singleton.mp hk
        have := (roles n).trans hn
        rw [noends] at this
        cases this.length_eq
    · rw [noclosings]
      exact rfl
  · obtain ⟨x, hx⟩ := P.known hid
    obtain ⟨s', h, P'⟩ := realizeModule_progress T P.errors K U' P.joined hx (U.opened hm)
      (fun he => ⟨(U.attached hm he).visible, (U.attached hm he).linked⟩) roles
      fun q hq => (roles _).trans (matched (hports ▸ hq))
    exact ⟨s', recorded_of_ok h, P'⟩

theorem forM_visit_progress {rank : ModuleId → Nat} (P : Progress d₀ p₀ rs [] s)
    (matched : p₀.Matched d₀.hierarchy) (C : d₀.hierarchy.Closed) (R : d₀.hierarchy.Ranked rank) :
    ∃ s', d₀.hierarchy.childrenFirst.forM Realize.visit s = .ok () s' ∧
      Progress d₀ p₀ rs d₀.hierarchy.childrenFirst s' := by
  obtain ⟨s', h, done, hdone, P'⟩ := EStateM.forM_of_ok (f := Realize.visit) (s := s)
    (P := fun rest s => ∃ done, done ++ rest = d₀.hierarchy.childrenFirst ∧
      Progress d₀ p₀ rs done s) (fun m rest s ⟨done, hdone, P⟩ => by
      obtain ⟨hm, -, hid, hc⟩ := Hierarchy.childrenFirst_split C R hdone
      obtain ⟨s', h, P', -⟩ := P.visit matched hm hc hid
      exact ⟨s', h, done ++ [m], by simpa using hdone, P'⟩)
    ⟨[], rfl, P⟩
  rw [List.append_nil] at hdone
  exact ⟨s', h, hdone ▸ P'⟩

end Realize

/-- The endpoints of a plan are the sides of the requests, in their modules. -/
structure Plan.Placed (d : Design) (rs : List WireRequest) (p : Plan) : Prop where
  opened : ∀ m, (p.changesOf m).Opened
  module : ∀ {m n e}, e ∈ (p.changesOf m).ends n → d.valueModule e.value = .ok m
  request : ∀ {m n e}, e ∈ (p.changesOf m).ends n →
    ∃ r, rs[n]? = some r ∧ e.value = r.side e.role

section

variable {d : Design} {t : PathTable} {p : Plan} {rs : List WireRequest}

theorem Realize.Progress.start (S : d.Sound fun _ => 0) (ht : t.hierarchy = d.hierarchy)
    (T : t.Right) (placed : p.Placed d rs) :
    Realize.Progress d p rs [] ⟨d, t, p, .empty, {}, []⟩ := by
  refine ⟨⟨⟨S, ht, T⟩, by rw [ht]; exact .refl _⟩, rfl, ⟨nofun, .refl S.coherent, id⟩, ?_, nofun⟩
  refine ⟨fun _ => placed.opened _, fun _ => rfl, fun {m} _ n => ?_, fun {m} _ n e he => ?_⟩
  · rw [List.append_nil, received_nil]
  · refine ⟨placed.module he, ?_⟩
    obtain ⟨r, hr, hv⟩ := placed.request he
    obtain ⟨v, role⟩ := e
    cases role with
    | source =>
      obtain rfl : v = r.source := hv
      exact ⟨r, hr, .refl⟩
    | sink =>
      obtain rfl : v = r.sink := hv
      exact ⟨r, hr, .refl⟩

/-- A matched plan is carried out without an error. -/
theorem realize_progress (S : d.Sound fun _ => 0) (ht : t.hierarchy = d.hierarchy) (T : t.Right)
    (placed : p.Placed d rs) (matched : p.Matched d.hierarchy) :
    Realize.Progress d p rs d.hierarchy.childrenFirst (realize d t p) := by
  obtain ⟨rank, R⟩ := T.ranked
  have C := closed_hierarchy S.coherent (Fits.childrenKnown S.fits)
  obtain ⟨s, h, P⟩ := Realize.forM_visit_progress (.start S ht T placed) matched C (ht ▸ R)
  rw [realize, ht, h]
  exact P

end

end AnnotatedCircuit.Wiring
