import AnnotatedCircuit.Proofs.Wiring.PlannedNames

/-!
# Planning requests

A request can be planned if its two values have modules and each module has a single path
(`Design.Plannable`), and any other has a fault (`Design.fault?`). After any number of requests a
plan follows the course of those that can be planned and holds nothing of the others (`Planned`).
Planning one more request keeps this (`planRequest_cases`), unless a module has as many names as
there are words; so planning a list of requests reports their faults and nothing else
(`planFrom_cases`).
-/

namespace AnnotatedCircuit

/-- Both values of a request have modules with a single path. -/
def Design.Plannable (d : Design) (r : WireRequest) : Prop :=
  ∀ role, ∃ m p, d.valueModule (r.side role) = .ok m ∧ d.hierarchy.pathsTo m = [p]

/-- What is reported of a request with a value in a module, unless this has a single path. -/
def Design.pathFault? (d : Design) (n : Nat) (m : ModuleId) : Option LowerError :=
  match d.hierarchy.pathsTo m with
  | [_] => none
  | ps => match d.moduleName m with
    | .ok name => some (.ambiguous n name ps.length)
    | .error e => some (.design e)

/-- What is reported of a request, if it cannot be planned. -/
def Design.fault? (d : Design) (n : Nat) (r : WireRequest) : Option LowerError :=
  match d.valueModule r.source, d.valueModule r.sink with
  | .ok a, .ok b => (d.pathFault? n a).or (d.pathFault? n b)
  | .error e, _ | .ok _, .error e => some (.design e)

/-- What is reported of a list of requests, numbered one after the other. -/
def Design.faults (d : Design) (n : Nat) (rs : List WireRequest) : List LowerError :=
  (rs.zipIdx n).filterMap fun (r, k) => d.fault? k r

namespace Design

variable {d : Design} {m : ModuleId} {n : Nat} {r : WireRequest} {rs : List WireRequest}

theorem pathFault?_eq_none_iff : d.pathFault? n m = none ↔ ∃ p, d.hierarchy.pathsTo m = [p] := by
  rw [pathFault?]
  rcases d.hierarchy.pathsTo m with _ | ⟨p, _ | ⟨q, ps⟩⟩
  · cases d.moduleName m <;> simp
  · simp
  · cases d.moduleName m <;> simp

theorem fault?_eq_none_iff : d.fault? n r = none ↔ d.Plannable r := by
  have sides : d.Plannable r ↔
      (∃ a p, d.valueModule r.source = .ok a ∧ d.hierarchy.pathsTo a = [p]) ∧
      ∃ b p, d.valueModule r.sink = .ok b ∧ d.hierarchy.pathsTo b = [p] :=
    ⟨fun h => ⟨h .source, h .sink⟩, fun ⟨h, h'⟩ role => by cases role <;> assumption⟩
  rw [sides, fault?]
  cases d.valueModule r.source with
  | error e => simp
  | ok a =>
    cases d.valueModule r.sink with
    | error e => simp
    | ok b => simp [pathFault?_eq_none_iff]

theorem faults_cons_of_some {e : LowerError} (he : d.fault? n r = some e) (rs : List WireRequest) :
    d.faults n (r :: rs) = e :: d.faults (n + 1) rs := by
  simp [faults, he]

theorem faults_cons_of_none (he : d.fault? n r = none) (rs : List WireRequest) :
    d.faults n (r :: rs) = d.faults (n + 1) rs := by
  simp [faults, he]

theorem faults_eq_nil_iff : d.faults n rs = [] ↔ ∀ r ∈ rs, d.Plannable r := by
  rw [faults, List.filterMap_eq_nil_iff]
  conv_rhs => rw [← List.zipIdx_map_fst n rs]
  simp only [fault?_eq_none_iff, List.forall_mem_map]

end Design

namespace Wiring

open Design

variable {d : Design} {p p' p'' : Plan} {m : ModuleId} {x : Module} {n k : Nat} {s s' : Planning}
  {rs : List WireRequest} {r : WireRequest} {w : Course} {rank : ModuleId → Nat}

/-! ### Finding the way -/

theorem pathsOf_ok (T : s.table.Right) (m : ModuleId) : pathsOf m s =
    .ok (s.table.hierarchy.pathsTo m) { s with table := (s.table.paths m).2 } := by
  rw [← PathTable.paths_eq T]
  rfl

theorem onlyPath_of_single {path : InstPath} (T : s.table.Right)
    (h : s.table.hierarchy.pathsTo m = [path]) (n : Nat) :
    onlyPath d n m s = .ok path { s with table := (s.table.paths m).2 } := by
  refine (EStateM.bind_of_ok (pathsOf_ok T m)).trans ?_
  rw [h]
  rfl

theorem onlyPath_of_fault {e : LowerError} (hh : s.table.hierarchy = d.hierarchy)
    (T : s.table.Right) (he : d.pathFault? n m = some e) :
    onlyPath d n m s = .error (.failure e) { s with table := (s.table.paths m).2 } := by
  refine (EStateM.bind_of_ok (pathsOf_ok T m)).trans ?_
  rw [hh]
  rw [pathFault?] at he
  match hps : d.hierarchy.pathsTo m with
  | [path] =>
    rw [hps] at he
    cases he
  | [] | _ :: _ :: _ =>
    rw [hps] at he
    cases hm : d.moduleName m <;>
    · rw [hm] at he
      cases he
      rfl

/-! ### What was planned -/

/-- A plan for the requests up to a number. -/
structure Planned (d : Design) (rs : List WireRequest) (n : Nat) (s : Planning) : Prop where
  hierarchy : s.table.hierarchy = d.hierarchy
  table : s.table.Right
  named : s.plan.Named d
  opened : ∀ m, (s.plan.changesOf m).Opened
  course : ∀ {k r}, k < n → rs[k]? = some r → d.Plannable r → ∃ w : Course, w.Right d.hierarchy ∧
    (∀ role, d.valueModule (r.side role) = .ok (w.owner role)) ∧ s.plan.Follows k r w
  absent : ∀ {k}, (n ≤ k ∨ ∀ r, rs[k]? = some r → ¬d.Plannable r) → ∀ m,
    (s.plan.changesOf m).ends k = [] ∧ portRoles (s.plan.changesOf m).ports k = []

/-- A request that cannot be planned leaves nothing in the plan. -/
theorem Planned.skip (P : Planned d rs n s) (hr : rs[n]? = some r) (hnot : ¬d.Plannable r)
    (hh : s'.table.hierarchy = d.hierarchy) (ht : s'.table.Right) (hp : s'.plan = s.plan) :
    Planned d rs (n + 1) s' where
  hierarchy := hh
  table := ht
  named := hp ▸ P.named
  opened := hp ▸ P.opened
  course {k r'} hk hr' hplan := by
    rw [hp]
    rcases Nat.lt_succ_iff_lt_or_eq.mp hk with hk | rfl
    · exact P.course hk hr' hplan
    · rw [hr] at hr'
      cases hr'
      exact absurd hplan hnot
  absent {k} hk m := by
    rw [hp]
    exact P.absent (hk.imp_left Nat.le_of_succ_le) m

/-- No module has two ports for one request. -/
theorem Planned.nodup_requests (P : Planned d rs n s) (R : d.hierarchy.Ranked rank)
    (m : ModuleId) : ((s.plan.changesOf m).ports.map PlannedPort.request).Nodup := by
  have few : ∀ k, (portRoles (s.plan.changesOf m).ports k).length ≤ 1 := by
    intro k
    by_cases hk : n ≤ k ∨ ∀ r, rs[k]? = some r → ¬d.Plannable r
    · rw [(P.absent hk m).2]
      exact Nat.zero_le _
    · rw [not_or, Nat.not_le] at hk
      obtain ⟨hk, hsome⟩ := hk
      obtain ⟨r, hr, hplan⟩ : ∃ r, rs[k]? = some r ∧ d.Plannable r := by simpa using hsome
      obtain ⟨w, W, -, F⟩ := P.course hk hr hplan
      rw [(F.ports m).length_eq]
      exact W.length_sides_le R m
  apply List.nodup_iff_count_le_one.mpr
  intro k
  have := few k
  rw [portRoles, List.length_map, ← List.countP_eq_length_filter] at this
  rw [List.count, List.countP_map]
  exact this

theorem Planned.length_ports_le (P : Planned d rs n s) (R : d.hierarchy.Ranked rank)
    (m : ModuleId) : (s.plan.changesOf m).ports.length ≤ n := by
  have below : ∀ k ∈ (s.plan.changesOf m).ports.map PlannedPort.request, k < n := by
    intro k hk
    by_contra hle
    obtain ⟨q, hq, rfl⟩ := List.mem_map.mp hk
    have hnone := (P.absent (.inl (Nat.le_of_not_lt hle)) m).2
    rw [portRoles, List.map_eq_nil_iff, List.filter_eq_nil_iff] at hnone
    exact hnone q hq (by simp)
  have subset : (s.plan.changesOf m).ports.map PlannedPort.request ⊆ List.range n :=
    fun k hk => List.mem_range.mpr (below k hk)
  simpa using ((P.nodup_requests R m).subperm subset).length_le

/-! ### The sides of a request -/

theorem ends_modify_record (p : Plan) (a : ModuleId) (n : Nat) (e : Endpoint) (m : ModuleId)
    (k : Nat) : (((p.modify a (·.record n e)).changesOf m).ends k).Perm
      ((if a = m ∧ n = k then [e] else []) ++ (p.changesOf m).ends k) := by
  rw [Plan.changesOf_modify]
  by_cases h : a = m
  · subst h
    simpa using ModuleChanges.ends_record (p.changesOf a) n e k
  · simp [h]

theorem ports_modify_record (p : Plan) (a : ModuleId) (n : Nat) (e : Endpoint) (m : ModuleId) :
    ((p.modify a (·.record n e)).changesOf m).ports = (p.changesOf m).ports := by
  rw [Plan.changesOf_modify]
  split
  · subst m
    exact ModuleChanges.ports_record ..
  · rfl

theorem opened_modify_record (H : ∀ m, (p.changesOf m).Opened) (a : ModuleId) (n : Nat)
    (e : Endpoint) (m : ModuleId) : ((p.modify a (·.record n e)).changesOf m).Opened := by
  rw [Plan.changesOf_modify]
  split
  · exact (H a).record n e
  · exact H m

/-- A plan with the sides of one more request. -/
def Plan.withSides (p : Plan) (n : Nat) (r : WireRequest) (w : Course) : Plan :=
  (p.modify (w.owner .source) (·.record n ⟨r.source, .source⟩)).modify (w.owner .sink)
    (·.record n ⟨r.sink, .sink⟩)

theorem ends_withSides (p : Plan) (n : Nat) (r : WireRequest) (w : Course) (m : ModuleId) (k : Nat) :
    (((p.withSides n r w).changesOf m).ends k).Perm
      ((if k = n then w.ends r m else []) ++ (p.changesOf m).ends k) := by
  refine (ends_modify_record ..).trans (((ends_modify_record ..).append_left _).trans ?_)
  rw [← List.append_assoc]
  refine List.Perm.append_right _ ?_
  by_cases hk : k = n
  · subst hk
    rw [if_pos rfl]
    rw [Course.ends_eq]
    simp only [and_true]
    exact List.perm_append_comm
  · simp [hk, Ne.symm hk]

theorem ports_withSides (p : Plan) (n : Nat) (r : WireRequest) (w : Course) (m : ModuleId) :
    ((p.withSides n r w).changesOf m).ports = (p.changesOf m).ports :=
  (ports_modify_record ..).trans (ports_modify_record ..)

theorem opened_withSides (H : ∀ m, (p.changesOf m).Opened) (n : Nat) (r : WireRequest) (w : Course)
    (m : ModuleId) : ((p.withSides n r w).changesOf m).Opened :=
  opened_modify_record (opened_modify_record H _ _ _) _ _ _ m

theorem Plan.Named.withSides (N : p.Named d) (n : Nat) (r : WireRequest) (w : Course) :
    (p.withSides n r w).Named d where
  counted := N.counted
  few h hx := by
    rw [ports_withSides]
    exact N.few h hx

/-! ### One request -/

/-- A plan with the ports on both sides of a request. -/
structure Plan.Extended (n : Nat) (r : WireRequest) (w : Course) (p p' : Plan) : Prop where
  opened : (∀ m, (p.changesOf m).Opened) → ∀ m, (p'.changesOf m).Opened
  ends : ∀ m k, ((p'.changesOf m).ends k).Perm
    ((if k = n then w.ends r m else []) ++ (p.changesOf m).ends k)
  ports : ∀ m k, portRoles (p'.changesOf m).ports k = portRoles (p.changesOf m).ports k ++
    if k = n then Role.those fun role => m ∈ (w.side role).map Site.child else []

theorem Plan.Extended.intro
    (G : (p.withSides n r w).Grows n .source ((w.side .source).map Site.child) p')
    (G' : p'.Grows n .sink ((w.side .sink).map Site.child) p'') : p.Extended n r w p'' := by
  have changes : ∀ m, ∃ ports,
      p''.changesOf m = { (p.withSides n r w).changesOf m with ports } := by
    intro m
    obtain ⟨ports, h⟩ := G.changes m
    obtain ⟨ports', h'⟩ := G'.changes m
    exact ⟨ports', by rw [h', h]⟩
  refine ⟨fun H m => ?_, fun m k => ?_, fun m k => ?_⟩
  · obtain ⟨ports, h⟩ := changes m
    rw [h]
    exact opened_withSides H n r w m
  · obtain ⟨ports, h⟩ := changes m
    rw [h]
    exact ends_withSides p n r w m k
  · rw [G'.roles, G.roles, ports_withSides, List.append_assoc]
    refine congrArg (_ ++ ·) ?_
    by_cases hk : k = n
    · rw [if_pos hk, Role.those_eq]
      simp only [hk, true_and]
    · simp [hk]

/-- A request that can be planned is planned along its course. -/
theorem Planned.extend (P : Planned d rs n s) (hr : rs[n]? = some r) (W : w.Right d.hierarchy)
    (owners : ∀ role, d.valueModule (r.side role) = .ok (w.owner role))
    (hh : s'.table.hierarchy = d.hierarchy) (ht : s'.table.Right) (N : s'.plan.Named d)
    (hplan : d.Plannable r) (E : s.plan.Extended n r w s'.plan) : Planned d rs (n + 1) s' where
  hierarchy := hh
  table := ht
  named := N
  opened := E.opened P.opened
  course {k r'} hk hr' hplan := by
    rcases Nat.lt_succ_iff_lt_or_eq.mp hk with hk | rfl
    · obtain ⟨w', W', owners', F⟩ := P.course hk hr' hplan
      refine ⟨w', W', owners', fun m => ?_, fun m => ?_⟩
      · have := E.ends m k
        rw [if_neg (Nat.ne_of_lt hk), List.nil_append] at this
        exact this.trans (F.ends m)
      · rw [E.ports, if_neg (Nat.ne_of_lt hk), List.append_nil]
        exact F.ports m
    · rw [hr] at hr'
      cases hr'
      refine ⟨w, W, owners, fun m => ?_, fun m => ?_⟩
      · have := E.ends m k
        rwa [if_pos rfl, (P.absent (.inl (Nat.le_refl _)) m).1, List.append_nil] at this
      · rw [E.ports, if_pos rfl, (P.absent (.inl (Nat.le_refl _)) m).2, List.nil_append]
  absent {k} hk m := by
    have hne : k ≠ n := by
      rintro rfl
      rcases hk with hk | hk
      · exact absurd hk (Nat.not_succ_le_self _)
      · exact hk r hr hplan
    obtain ⟨he, hp⟩ := P.absent (hk.imp_left Nat.le_of_succ_le) m
    have := E.ends m k
    rw [if_neg hne, he] at this
    exact ⟨this.eq_nil, by rw [E.ports, hp, if_neg hne]; rfl⟩

theorem ofDesign_of_ok {σ α : Type} {question : Except DesignError α} {a : α}
    (h : question = .ok a) (s : σ) : (Attempt.ofDesign question : Attempt σ α) s = .ok a s := by
  rw [h]
  rfl

/-- The state once the course of a request is known and its sides are recorded. -/
def Planning.withSides (s : Planning) (n : Nat) (r : WireRequest) (w : Course) : Planning where
  table := ((s.table.paths (w.owner .source)).2.paths (w.owner .sink)).2
  plan := s.plan.withSides n r w

section

variable (R : d.hierarchy.Ranked rank)
include R

theorem Planned.full_bound (P : Planned d rs n s) (hr : rs[n]? = some r)
    (h : s.plan.Full d m) :
    ∃ x ∈ d.modules, Word.limit ≤ x.ports.length + x.body.length + rs.length := by
  obtain ⟨x, hx, hlen⟩ := h
  have h₁ := P.length_ports_le R m
  have h₂ := (List.getElem?_eq_some_iff.mp hr).1
  exact ⟨x, module?_mem hx, by omega⟩

/-- The ports of a request that can be planned are planned along its course. -/
theorem planRequest_eq (H : d.Coherent) (P : Planned d rs n s) (hplan : d.Plannable r) :
    ∃ w : Course, w.Right d.hierarchy ∧ (∀ role, d.valueModule (r.side role) = .ok (w.owner role)) ∧
      ∃ type, planRequest d n r s = (do
        planPorts d n r.hint type .output ((w.side .source).map Site.op)
        planPorts d n r.hint type .input ((w.side .sink).map Site.op)) (s.withSides n r w) := by
  have Q := plain_hierarchy H
  obtain ⟨a, pa, ha, hpa⟩ := hplan .source
  obtain ⟨b, pb, hb, hpb⟩ := hplan .sink
  obtain ⟨ss, sole, rfl⟩ := Hierarchy.exists_sole R Q hpa
  obtain ⟨ts, sole', rfl⟩ := Hierarchy.exists_sole R Q hpb
  obtain ⟨w, W, rfl, rfl, hmeet⟩ := meeting_ok Q sole sole'
  obtain ⟨type, htype⟩ := Edit.valueType_of_valueModule hb
  refine ⟨w, W, fun role => by cases role <;> assumption, if r.asRef then type.toRef else type, ?_⟩
  have path := onlyPath_of_single (d := d) P.table (P.hierarchy ▸ hpa) n
  have path' := onlyPath_of_single (d := d)
    (s := { s with table := (s.table.paths (w.owner .source)).2 }) (P.table.paths _)
    (by rw [PathTable.hierarchy_paths, P.hierarchy]; exact hpb) n
  have meet : meeting ((s.table.paths (w.owner .source)).2.paths (w.owner .sink)).2.hierarchy
      (ss.map Site.op) (ts.map Site.op) =
        .ok ⟨w.module, (w.side .source).map Site.op, (w.side .sink).map Site.op⟩ := by
    rw [PathTable.hierarchy_paths, PathTable.hierarchy_paths, P.hierarchy, hmeet]
  refine (EStateM.bind_of_ok (ofDesign_of_ok ha s)).trans ?_
  refine (EStateM.bind_of_ok (ofDesign_of_ok hb s)).trans ?_
  refine (EStateM.bind_of_ok path).trans ((EStateM.bind_of_ok path').trans ?_)
  refine (EStateM.bind_of_ok rfl).trans ((EStateM.bind_of_ok (ofDesign_of_ok meet _)).trans ?_)
  refine (EStateM.bind_of_ok (ofDesign_of_ok htype _)).trans ?_
  exact (EStateM.bind_of_ok rfl).trans (EStateM.bind_of_ok rfl)

/-- A request that can be planned is planned, unless a module has too many names. -/
theorem planRequest_of_plannable (H : d.Coherent) (K : d.ChildrenKnown) (P : Planned d rs n s)
    (hr : rs[n]? = some r) (hplan : d.Plannable r) :
    (∃ s', planRequest d n r s = .ok () s' ∧ Planned d rs (n + 1) s') ∨
    ∃ o s', planRequest d n r s = .error (.overflow o) s' ∧
      ∃ x ∈ d.modules, Word.limit ≤ x.ports.length + x.body.length + rs.length := by
  obtain ⟨w, W, owners, type, start⟩ := planRequest_eq R H P hplan
  rw [start]
  have hh : (s.withSides n r w).table.hierarchy = d.hierarchy := P.hierarchy
  have Q : (s.withSides n r w).table.hierarchy.Plain := hh ▸ plain_hierarchy H
  have known : ∀ role, ∀ site ∈ w.side role, site ∈ (s.withSides n r w).table.hierarchy.sites ∧
      ∃ x, d.module? site.child = some x := by
    intro role site hsite
    have hs := (W.trail role).sites site hsite
    refine ⟨hh.symm ▸ hs, ?_⟩
    rw [sites_hierarchy, mem_sites_iff H] at hs
    obtain ⟨op, ho, -, hc⟩ := hs
    exact K ho hc
  have nodup : ∀ role, ((w.side role).map Site.child).Nodup := fun role =>
    (List.nodup_cons.mp ((W.trail role).nodup_passed R)).2
  rcases planPorts_cases (P.named.withSides n r w) Q (known .source) (nodup .source) n r.hint type
    .output with ⟨s₁, h₁, t₁, N₁, G₁⟩ | ⟨o, s₁, h₁, site, -, hfull⟩
  · rcases planPorts_cases N₁ (t₁ ▸ Q) (t₁ ▸ known .sink) (nodup .sink) n r.hint type .input with
      ⟨s₂, h₂, t₂, N₂, G₂⟩ | ⟨o, s₂, h₂, site, hsite, hfull⟩
    · refine .inl ⟨s₂, (EStateM.bind_of_ok h₁).trans h₂, ?_⟩
      have ht : s₂.table = (s.withSides n r w).table := t₂.trans t₁
      exact P.extend hr W owners (ht ▸ hh) (ht ▸ (P.table.paths _).paths _) N₂ hplan (.intro G₁ G₂)
    · refine .inr ⟨o, s₂, (EStateM.bind_of_ok h₁).trans h₂, P.full_bound R hr (m := site.child) ?_⟩
      have hm := W.not_passed R (List.mem_map_of_mem hsite) (by decide : Role.source ≠ .sink)
      rw [Course.passed, List.mem_cons, not_or] at hm
      obtain ⟨x, hx, hlen⟩ := hfull
      rw [G₁.other _ hm.2] at hlen
      exact ⟨x, hx, (ports_withSides s.plan n r w _) ▸ hlen⟩
  · refine .inr ⟨o, s₁, EStateM.bind_of_error h₁, P.full_bound R hr (m := site.child) ?_⟩
    obtain ⟨x, hx, hlen⟩ := hfull
    exact ⟨x, hx, (ports_withSides s.plan n r w _) ▸ hlen⟩

end

/-- Any other request is reported, and leaves the plan as it is. -/
theorem planRequest_of_fault {e : LowerError} (hh : s.table.hierarchy = d.hierarchy)
    (T : s.table.Right) (he : d.fault? n r = some e) :
    ∃ t : PathTable, planRequest d n r s = .error (.failure e) ⟨t, s.plan⟩ ∧
      t.hierarchy = d.hierarchy ∧ t.Right := by
  have failed : ∀ {e : DesignError}, (Attempt.ofDesign (.error e) : Attempt Planning ModuleId) s =
      .error (.failure (.design e)) s := rfl
  rw [fault?] at he
  cases ha : d.valueModule r.source with
  | error e =>
    rw [ha] at he
    cases he
    refine ⟨s.table, EStateM.bind_of_error ?_, hh, T⟩
    rw [ha]
    exact failed
  | ok a =>
    rw [ha] at he
    have start : planRequest d n r s = (do
        let b ← .ofDesign (d.valueModule r.sink)
        let p ← onlyPath d n a
        let q ← onlyPath d n b
        planAlong d n r a b p q : Attempt Planning Unit) s :=
      EStateM.bind_of_ok (ofDesign_of_ok ha s)
    cases hb : d.valueModule r.sink with
    | error e =>
      rw [hb] at he
      cases he
      refine ⟨s.table, start.trans (EStateM.bind_of_error ?_), hh, T⟩
      rw [hb]
      exact failed
    | ok b =>
      rw [hb] at he
      have start := start.trans (EStateM.bind_of_ok (ofDesign_of_ok hb s))
      rcases Option.or_eq_some_iff.mp he with he | ⟨single, he⟩
      · exact ⟨_, start.trans (EStateM.bind_of_error (onlyPath_of_fault hh T he)), hh, T.paths a⟩
      · obtain ⟨p, hp⟩ := pathFault?_eq_none_iff.mp single
        have path := onlyPath_of_single (d := d) T (hh ▸ hp) n
        have lost := onlyPath_of_fault (s := { s with table := (s.table.paths a).2 }) hh
          (T.paths a) he
        exact ⟨_, start.trans ((EStateM.bind_of_ok path).trans (EStateM.bind_of_error lost)), hh,
          (T.paths a).paths b⟩

/-- One more request. A request with a fault is reported, and leaves the plan as it is. -/
theorem planRequest_cases (H : d.Coherent) (K : d.ChildrenKnown) (R : d.hierarchy.Ranked rank)
    (P : Planned d rs n s) (hr : rs[n]? = some r) :
    (∃ e t, d.fault? n r = some e ∧ planRequest d n r s = .error (.failure e) ⟨t, s.plan⟩ ∧
      Planned d rs (n + 1) ⟨t, s.plan⟩) ∨
    d.fault? n r = none ∧
      ((∃ s', planRequest d n r s = .ok () s' ∧ Planned d rs (n + 1) s') ∨
      ∃ o s', planRequest d n r s = .error (.overflow o) s' ∧
        ∃ x ∈ d.modules, Word.limit ≤ x.ports.length + x.body.length + rs.length) := by
  cases he : d.fault? n r with
  | none => exact .inr ⟨rfl, planRequest_of_plannable R H K P hr (fault?_eq_none_iff.mp he)⟩
  | some e =>
    obtain ⟨t, h, hh, T⟩ := planRequest_of_fault P.hierarchy P.table he
    have hnot : ¬d.Plannable r := fun hplan => by
      rw [fault?_eq_none_iff.mpr hplan] at he
      cases he
    exact .inl ⟨e, t, rfl, h, P.skip hr hnot hh T rfl⟩

/-! ### All requests -/

theorem Planned.start {t : PathTable} (hh : t.hierarchy = d.hierarchy) (T : t.Right)
    (rs : List WireRequest) : Planned d rs 0 ⟨t, .empty⟩ where
  hierarchy := hh
  table := T
  named := ⟨nofun, nofun⟩
  opened _ := nofun
  course hk := absurd hk (Nat.not_lt_zero _)
  absent _ _ := ⟨rfl, rfl⟩

theorem planFrom_cons_of_ok {s' : Planning} (h : planRequest d n r s = .ok () s')
    (rest : List WireRequest) : planFrom d n (r :: rest) s = planFrom d (n + 1) rest s' := by
  rw [planFrom, h]

theorem planFrom_cons_of_failure {e : LowerError} {s' : Planning}
    (h : planRequest d n r s = .error (.failure e) s') (rest : List WireRequest) :
    planFrom d n (r :: rest) s =
      (planFrom d (n + 1) rest s').map fun (s, es) => (s, e :: es) := by
  rw [planFrom, h]
  rfl

theorem planFrom_cons_of_overflow {o : Overflow} {s' : Planning}
    (h : planRequest d n r s = .error (.overflow o) s') (rest : List WireRequest) :
    planFrom d n (r :: rest) s = .error o := by
  rw [planFrom, h]

/-- Planning a list of requests reports the faults of those that cannot be planned. -/
theorem planFrom_cases (H : d.Coherent) (K : d.ChildrenKnown) (R : d.hierarchy.Ranked rank)
    {rest : List WireRequest} (P : Planned d rs n s) (hn : n ≤ rs.length) (hrest : rs.drop n = rest) :
    (∃ s', planFrom d n rest s = .ok (s', d.faults n rest) ∧ Planned d rs rs.length s') ∨
    ∃ o, planFrom d n rest s = .error o ∧
      ∃ x ∈ d.modules, Word.limit ≤ x.ports.length + x.body.length + rs.length := by
  induction rest generalizing n s with
  | nil =>
    obtain rfl := Nat.le_antisymm hn (List.drop_eq_nil_iff.mp hrest)
    exact .inl ⟨s, rfl, P⟩
  | cons r rest ih =>
    obtain ⟨hr, hrest'⟩ := next_of_drop hrest
    have hn' : n + 1 ≤ rs.length := (List.getElem?_eq_some_iff.mp hr).1
    rcases planRequest_cases H K R P hr with
      ⟨e, t, he, h, P'⟩ | ⟨he, ⟨s', h, P'⟩ | ⟨o, s', h, hfull⟩⟩
    · rw [planFrom_cons_of_failure h, faults_cons_of_some he]
      rcases ih P' hn' hrest' with ⟨s', h', P''⟩ | ⟨o, h', hfull⟩
      · exact .inl ⟨s', by rw [h']; rfl, P''⟩
      · exact .inr ⟨o, by rw [h']; rfl, hfull⟩
    · rw [planFrom_cons_of_ok h, faults_cons_of_none he]
      exact ih P' hn' hrest'
    · exact .inr ⟨o, planFrom_cons_of_overflow h rest, hfull⟩

end Wiring

end AnnotatedCircuit
