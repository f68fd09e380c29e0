import AnnotatedCircuit.Proofs.Wiring.Records
import AnnotatedCircuit.Proofs.Wiring.Renames

/-!
# What is recorded while a plan is carried out

When a module is visited, it has the endpoints that the plan gave it and one for each new port of
each instance in it (`expected`). `Underway` states this for the modules that are still to be
visited, and that every endpoint there is linked with its side of the request.
-/

namespace AnnotatedCircuit.Wiring

open Design

variable {h h' : Hierarchy} {p : Plan} {done : List ModuleId} {m : ModuleId} {n : Nat}
  {ports : List PlannedPort} {sites : List Site} {site : Site}

/-! ### The roles that a module receives -/

/-- The roles recorded for a request in a module when the modules of a list were visited. -/
def received (h : Hierarchy) (p : Plan) (done : List ModuleId) (m : ModuleId) (n : Nat) :
    List Role :=
  ((p.changesOf m).ends n).map Endpoint.role ++
    ((h.sites.map Site.ends).filter fun e => e.1 = m ∧ e.2 ∈ done).flatMap fun e =>
      portRoles (p.changesOf e.2).ports n

/-- The roles recorded when all children of a module were visited. -/
def expected (h : Hierarchy) (p : Plan) (m : ModuleId) (n : Nat) : List Role :=
  ((p.changesOf m).ends n).map Endpoint.role ++
    ((h.sites.map Site.ends).filter fun e => e.1 = m).flatMap fun e =>
      portRoles (p.changesOf e.2).ports n

/-- The roles that are still to be recorded for instances with new ports. -/
def coming (ports : List PlannedPort) (sites : List Site) (m : ModuleId) (n : Nat) : List Role :=
  ((sites.map Site.ends).filter fun e => e.1 = m).flatMap fun _ => portRoles ports n

theorem coming_cons (ports : List PlannedPort) (site : Site) (sites : List Site) (m : ModuleId)
    (n : Nat) : coming ports (site :: sites) m n =
      (if m = site.parent then portRoles ports n else []) ++ coming ports sites m n := by
  rw [coming, List.map_cons]
  by_cases h : m = site.parent
  · have he : site.ends.1 = m := h.symm
    rw [if_pos h, List.filter_cons_of_pos (by simpa using he)]
    rfl
  · have hne : ¬site.ends.1 = m := Ne.symm h
    rw [if_neg h, List.filter_cons_of_neg (by simpa using hne)]
    rfl

theorem received_nil (h : Hierarchy) (p : Plan) (m : ModuleId) (n : Nat) :
    received h p [] m n = ((p.changesOf m).ends n).map Endpoint.role := by
  simp [received]

theorem received_children (hd : ∀ c ∈ h.children m, c ∈ done) (n : Nat) :
    received h p done m n = expected h p m n := by
  unfold received expected
  refine congrArg (fun l => _ ++ List.flatMap _ l) (List.filter_congr fun e he => ?_)
  have : e.1 = m → e.2 ∈ done := by
    rintro rfl
    refine hd e.2 ?_
    rw [Hierarchy.children_eq_shape]
    exact List.mem_map_of_mem (List.mem_filter.mpr ⟨he, by simp⟩)
  simpa using this

theorem uses_ends (h : Hierarchy) (m : ModuleId) :
    (h.uses m).map Site.ends = (h.sites.map Site.ends).filter (·.2 = m) := by
  simp only [Hierarchy.uses, Hierarchy.sites, List.filter_map, List.map_map]
  rfl

/-- Visiting one more module adds what comes from its instances. -/
theorem received_visit (hm : m ∉ done) (A : h.Alike h') (k : ModuleId) (n : Nat) :
    (received h p done k n ++ coming (p.changesOf m).ports (h'.uses m) k n).Perm
      (received h p (done ++ [m]) k n) := by
  have hcoming : coming (p.changesOf m).ports (h'.uses m) k n =
      ((h.sites.map Site.ends).filter fun e => e.1 = k ∧ e.2 = m).flatMap fun e =>
        portRoles (p.changesOf e.2).ports n := by
    rw [coming, uses_ends, A.shape, List.filter_filter]
    refine (List.flatMap_congr fun e he => ?_).trans (congrArg (List.flatMap _)
      (List.filter_congr fun e _ => by simp))
    have he : e.1 = k ∧ e.2 = m := by simpa using (List.mem_filter.mp he).2
    rw [he.2]
  rw [hcoming, received, received, List.append_assoc, ← List.flatMap_append]
  refine (List.Perm.flatMap_right _ ?_).append_left _
  generalize h.sites.map Site.ends = l
  have split := List.filter_append_perm (fun e : ModuleId × ModuleId => decide (e.2 ∈ done))
    (l.filter fun e => e.1 = k ∧ e.2 ∈ done ++ [m])
  refine (List.Perm.of_eq ?_).trans split
  rw [List.filter_filter, List.filter_filter]
  congr 1
  · apply List.filter_congr
    intro e _
    by_cases he : e.2 ∈ done <;> simp [he]
  · apply List.filter_congr
    intro e _
    by_cases he : e.2 ∈ done
    · have : e.2 ≠ m := fun e' => hm (e' ▸ he)
      simp [he, this]
    · simp [he]

/-! ### Linked endpoints -/

namespace Realize

variable {rs : List WireRequest} {s s' : Realizing} {τ : ValueId → ValueId} {lag : OpId → Nat}
  {v : ValueId} {role : Role} {e : Endpoint} {op : Op} {types : List SignalType} {d₀ : Design}
  {rest : ModuleId → Nat → List Role}

/-- A value is driven by the source of a request, or drives its sink. -/
def Linked (rs : List WireRequest) (s : Realizing) (n : Nat) (role : Role) (v : ValueId) : Prop :=
  ∃ r, rs[n]? = some r ∧ match role with
    | .source => s.design.Drives (follow s.renames r.source) v
    | .sink => s.design.Drives v (follow s.renames r.sink)

theorem Linked.move (M : Moves τ s s') (h : Linked rs s n role v) : Linked rs s' n role (τ v) := by
  obtain ⟨r, hr, h⟩ := h
  refine ⟨r, hr, ?_⟩
  cases role with
  | source =>
    change s'.design.Drives (follow s'.renames r.source) (τ v)
    rw [M.follow]
    exact M.drives h
  | sink =>
    change s'.design.Drives (τ v) (follow s'.renames r.sink)
    rw [M.follow]
    exact M.drives h

/-- An endpoint that can be used in a module, and is linked with its side of the request. -/
structure Attached (rs : List WireRequest) (s : Realizing) (m : ModuleId) (n : Nat) (e : Endpoint) :
    Prop where
  visible : s.design.valueModule (follow s.renames e.value) = .ok m
  linked : Linked rs s n e.role (follow s.renames e.value)

theorem Attached.move (M : Moves τ s s') (h : Attached rs s m n e) : Attached rs s' m n e where
  visible := M.follow _ ▸ M.valueModule h.visible
  linked := M.follow _ ▸ h.linked.move M

/-- The changes of the modules outside `done`, before the roles of `rest` are recorded. -/
structure Underway (h : Hierarchy) (p : Plan) (rs : List WireRequest) (done : List ModuleId)
    (rest : ModuleId → Nat → List Role) (s : Realizing) : Prop where
  opened : ∀ {m}, m ∉ done → (s.plan.changesOf m).Opened
  ports : ∀ {m}, m ∉ done → (s.plan.changesOf m).ports = (p.changesOf m).ports
  roles : ∀ {m}, m ∉ done → ∀ n,
    (((s.plan.changesOf m).ends n).map Endpoint.role ++ rest m n).Perm (received h p done m n)
  attached : ∀ {m}, m ∉ done → ∀ {n e}, e ∈ (s.plan.changesOf m).ends n → Attached rs s m n e

theorem Underway.move (U : Underway h p rs done rest s) (M : Moves τ s s') (hp : s'.plan = s.plan) :
    Underway h p rs done rest s' where
  opened hm := hp ▸ U.opened hm
  ports hm := hp ▸ U.ports hm
  roles hm n := hp ▸ U.roles hm n
  attached hm _ _ he := (U.attached hm (hp ▸ he)).move M

/-- The visit of a module begins: its changes are taken out, those that it causes are to come. -/
theorem Underway.begin (U : Underway h p rs done (fun _ _ => []) s) (hm : m ∉ done)
    (A : h.Alike h') : Underway h p rs (done ++ [m])
      (coming (p.changesOf m).ports (h'.uses m)) (withoutChanges s m) := by
  have keep : ∀ {k}, k ∉ done ++ [m] → k ∉ done ∧
      (withoutChanges s m).plan.changesOf k = s.plan.changesOf k := by
    intro k hk
    rw [List.mem_append, not_or, List.mem_singleton] at hk
    exact ⟨hk.1, by rw [withoutChanges, Plan.changesOf_erase, if_neg (Ne.symm hk.2)]⟩
  refine ⟨fun hk => ?_, fun hk => ?_, fun hk n => ?_, fun hk n e he => ?_⟩
  · rw [(keep hk).2]
    exact U.opened (keep hk).1
  · rw [(keep hk).2]
    exact U.ports (keep hk).1
  · rw [(keep hk).2]
    have := U.roles (keep hk).1 n
    rw [List.append_nil] at this
    exact (this.append_right _).trans (received_visit hm A _ n)
  · rw [(keep hk).2] at he
    obtain ⟨hv, hl⟩ := U.attached (keep hk).1 he
    exact ⟨hv, hl⟩

/-- The results for new ports can be used in the module around the instance. -/
theorem Reissuing.visible_result {ports : List PlannedPort}
    (R : Reissuing ports site op types s s') {r : PlannedPort × ValueId}
    (hr : r ∈ ports.zip ((s.design.nextValues types).drop op.results.length)) :
    s'.design.valueModule r.2 = .ok site.parent := by
  obtain ⟨i, hi⟩ := List.mem_iff_getElem?.mp (List.of_mem_zip (a := r.1) (b := r.2) hr).2
  rw [List.getElem?_drop] at hi
  obtain ⟨hlt, hv⟩ := getElem?_nextValues.mp hi
  rw [hv, ← R.parent]
  exact R.design.valueModule_new hlt

theorem Reissuing.attached {ports : List PlannedPort} (R : Reissuing ports site op types s s')
    (K : ∀ {v m}, s'.design.valueModule v = .ok m → follow s'.renames v = v)
    {r : PlannedPort × ValueId}
    (hr : r ∈ ports.zip ((s.design.nextValues types).drop op.results.length))
    (linked : Linked rs s' r.1.request (roleOfResult r.1.port.direction) r.2) :
    Attached rs s' site.parent r.1.request (resultEnd r) := by
  have visible := R.visible_result hr
  have hfollow : follow s'.renames (resultEnd r).value = r.2 := K visible
  exact ⟨by rw [hfollow]; exact visible, by rw [hfollow]; exact linked⟩

/-- An instance is replaced, and the results for the new ports are recorded. -/
theorem Underway.reissued {ports : List PlannedPort}
    (U : Underway h p rs done (coming ports (site :: sites)) s)
    (R : Reissuing ports site op types s s') (M : Moves τ s s')
    (K : ∀ {v m}, s'.design.valueModule v = .ok m → follow s'.renames v = v)
    (linked : ∀ r ∈ ports.zip ((s.design.nextValues types).drop op.results.length),
      Linked rs s' r.1.request (roleOfResult r.1.port.direction) r.2) :
    Underway h p rs done (coming ports sites) s' := by
  have hlen : ports.length = ((s.design.nextValues types).drop op.results.length).length := by
    simp [R.length]
  have other : ∀ {m}, m ≠ site.parent → s'.plan.changesOf m = s.plan.changesOf m := by
    intro m hm
    rw [R.plan, Plan.changesOf_modify, if_neg (Ne.symm hm)]
  have parent : s'.plan.changesOf site.parent = recordResults (s.plan.changesOf site.parent) ports
      ((s.design.nextValues types).drop op.results.length) := by
    rw [R.plan, Plan.changesOf_modify, if_pos rfl]
  refine ⟨fun {m} hm => ?_, fun {m} hm => ?_, fun {m} hm n => ?_, fun {m} hm n e he => ?_⟩ <;>
    by_cases h : m = site.parent
  · subst h
    rw [parent]
    exact opened_recordResults (U.opened hm) _ _
  · rw [other h]
    exact U.opened hm
  · subst h
    rw [parent, ports_recordResults]
    exact U.ports hm
  · rw [other h]
    exact U.ports hm
  · subst h
    have hroles := U.roles hm n
    rw [coming_cons, if_pos rfl] at hroles
    rw [parent]
    refine ((roles_recordResults hlen _ n).append_right _).trans (.trans ?_ hroles)
    rw [← List.append_assoc]
    exact List.perm_append_comm.append_right _
  · have hroles := U.roles hm n
    rw [coming_cons, if_neg h, List.nil_append] at hroles
    rw [other h]
    exact hroles
  · subst h
    rw [parent, (ends_recordResults ..).mem_iff, List.mem_append] at he
    rcases he with he | he
    · obtain ⟨r, hf, rfl⟩ := List.mem_map.mp he
      obtain ⟨hr, hn⟩ := List.mem_filter.mp hf
      obtain rfl : r.1.request = n := by simpa using hn
      exact R.attached K hr (linked r hr)
    · exact (U.attached hm he).move M
  · rw [other h] at he
    exact (U.attached hm he).move M

end Realize

end AnnotatedCircuit.Wiring
