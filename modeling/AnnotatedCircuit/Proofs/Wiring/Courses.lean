import AnnotatedCircuit.Proofs.Wiring.Meeting
import AnnotatedCircuit.Proofs.Wiring.Visit

/-!
# The course of a request

A request follows the only trails to its source and its sink: together down to the module where they
part, and apart from there (`Course`). If a plan has ports for it on the instances behind the
parting, and its two sides in their modules, then a module on the course receives one endpoint of
each side that passes it (`Follows.expected_perm`): both in the module where the sides part, the
one that its port has outside everywhere else.
-/

namespace AnnotatedCircuit.Wiring

variable {h : Hierarchy} {rank : ModuleId → Nat} {m : ModuleId} {role role' : Role} {n : Nat}
  {p : Plan} {r : WireRequest} {ss ts qs : List Site}

/-- The roles with a property. -/
def Role.those (P : Role → Prop) [DecidablePred P] : List Role := [Role.source, .sink].filter P

theorem Role.those_eq (P : Role → Prop) [DecidablePred P] : Role.those P =
    (if P .source then [.source] else []) ++ if P .sink then [.sink] else [] := by
  by_cases h₁ : P .source <;> by_cases h₂ : P .sink <;> simp [those, h₁, h₂]

theorem Role.length_those_le {P : Role → Prop} [DecidablePred P] (h : ¬(P .source ∧ P .sink)) :
    (Role.those P).length ≤ 1 := by
  rw [not_and] at h
  by_cases h₁ : P .source
  · simp [those_eq, h₁, h h₁]
  · by_cases h₂ : P .sink <;> simp [those_eq, h₁, h₂]

theorem Role.count_those (P : Role → Prop) [DecidablePred P] (role : Role) :
    (Role.those P).count role = if P role then 1 else 0 := by
  rw [those_eq]
  by_cases h₁ : P .source <;> by_cases h₂ : P .sink <;> cases role <;> simp [h₁, h₂]

theorem Role.mem_those {P : Role → Prop} [DecidablePred P] : role ∈ Role.those P ↔ P role := by
  cases role <;> simp [those]

/-- One of two things, by a role. -/
def Role.pick {α : Type} (source sink : α) : Role → α
  | .source => source
  | .sink => sink

/-- The instances from the top to the two sides of a request. -/
structure Course where
  /-- The module where the sides part. -/
  module : ModuleId
  shared : List Site
  side : Role → List Site
  owner : Role → ModuleId

namespace Course

/-- The modules on one side, that of the parting first. -/
def passed (w : Course) (role : Role) : List ModuleId := w.module :: (w.side role).map Site.child

/-- Both trails are the only ones, and they part as soon as they can. -/
structure Right (h : Hierarchy) (w : Course) : Prop where
  sole : ∀ role, h.Sole (w.shared ++ w.side role) (w.owner role)
  meets : h.Trail h.top w.shared w.module
  parts : ∀ x ∈ (w.side .source).head?, ∀ y ∈ (w.side .sink).head?, x ≠ y

variable {w : Course}

namespace Right

theorem trail (W : w.Right h) (role : Role) : h.Trail w.module (w.side role) (w.owner role) := by
  obtain ⟨b, T, T'⟩ := (W.sole role).trail.split
  exact T.end_eq W.meets ▸ T'

/-- Every module on the course can be reached. -/
theorem reached (W : w.Right h) (hm : m ∈ w.passed role) : ∃ qs, h.Trail h.top qs m := by
  rcases List.mem_cons.mp hm with rfl | hm
  · exact ⟨_, W.meets⟩
  · obtain ⟨s, hs, rfl⟩ := List.mem_map.mp hm
    obtain ⟨pre, post, hsplit⟩ := List.append_of_mem hs
    have T := (W.sole role).trail
    rw [hsplit, List.append_cons, ← List.append_assoc] at T
    obtain ⟨b, T₁, -⟩ := T.split
    rw [← List.append_assoc] at T₁
    obtain ⟨-, -, rfl⟩ := T₁.of_concat
    exact ⟨_, T₁⟩

/-- Behind the parting, a module is on one side only. -/
theorem not_passed (W : w.Right h) (R : h.Ranked rank) (hm : m ∈ (w.side role).map Site.child)
    (hne : role' ≠ role) : m ∉ w.passed role' := by
  intro hm'
  rcases List.mem_cons.mp hm' with rfl | hm'
  · exact (List.nodup_cons.mp ((W.trail role).nodup_passed R)).1 hm
  · cases role <;> cases role'
    · exact hne rfl
    · exact (W.sole .source).disjoint (W.sole .sink) W.parts hm hm'
    · exact (W.sole .source).disjoint (W.sole .sink) W.parts hm' hm
    · exact hne rfl

theorem length_sides_le (W : w.Right h) (R : h.Ranked rank) (m : ModuleId) :
    (Role.those fun role => m ∈ (w.side role).map Site.child).length ≤ 1 :=
  Role.length_those_le fun ⟨hm, hm'⟩ =>
    W.not_passed R hm (by decide : Role.sink ≠ .source) (List.mem_cons_of_mem _ hm')

end Right

/-- The endpoints that a module has for its own values. -/
def ends (w : Course) (r : WireRequest) (m : ModuleId) : List Endpoint :=
  (Role.those fun role => w.owner role = m).map fun role => ⟨r.side role, role⟩

end Course

theorem Course.ends_eq (w : Course) (r : WireRequest) (m : ModuleId) : w.ends r m =
    (if w.owner .source = m then [⟨r.source, .source⟩] else []) ++
      if w.owner .sink = m then [⟨r.sink, .sink⟩] else [] := by
  rw [Course.ends, Role.those_eq, List.map_append]
  by_cases h₁ : w.owner .source = m <;> by_cases h₂ : w.owner .sink = m <;>
    simp [WireRequest.side, h₁, h₂]

/-- A plan has the sides of a request in their modules, and ports for it all the way between. -/
structure Plan.Follows (p : Plan) (n : Nat) (r : WireRequest) (w : Course) : Prop where
  ends : ∀ m, ((p.changesOf m).ends n).Perm (w.ends r m)
  ports : ∀ m, (portRoles (p.changesOf m).ports n).Perm
    (Role.those fun role => m ∈ (w.side role).map Site.child)

variable {w : Course}

theorem count_expected (F : p.Follows n r w) (h : Hierarchy) (m : ModuleId) (role : Role) :
    (expected h p m n).count role = (if w.owner role = m then 1 else 0) +
      h.sites.countP fun s => s.parent = m ∧ s.child ∈ (w.side role).map Site.child := by
  rw [expected, List.count_append, ((F.ends m).map Endpoint.role).count_eq, Course.ends,
    List.map_map]
  congr 1
  · exact (congrArg _ (List.map_id _)).trans (Role.count_those ..)
  · have step : ∀ l : List (ModuleId × ModuleId),
        (l.flatMap fun e => portRoles (p.changesOf e.2).ports n).count role =
          l.countP fun e => e.2 ∈ (w.side role).map Site.child := by
      intro l
      induction l with
      | nil => rfl
      | cons e l ih =>
        rw [List.flatMap_cons, List.count_append, ih, (F.ports e.2).count_eq, Role.count_those,
          List.countP_cons, Nat.add_comm]
        simp only [decide_eq_true_eq]
    rw [step, List.countP_filter, List.countP_map]
    apply List.countP_congr
    intro s _
    rw [decide_eq_true_iff, and_comm]
    simp only [Function.comp_apply, Site.ends, Bool.and_eq_true]
    exact and_congr decide_eq_true_iff decide_eq_true_iff

/-- A module that can be reached receives one endpoint for each side that passes it. -/
theorem Plan.Follows.expected_perm (F : p.Follows n r w) (W : w.Right h) (R : h.Ranked rank)
    (P : h.Plain) (T : h.Trail h.top qs m) :
    (expected h p m n).Perm (Role.those fun role => m ∈ w.passed role) := by
  apply List.perm_iff_count.mpr
  intro role
  have T' := W.trail role
  rw [count_expected F, (W.sole role).countP_sites R P T, Role.count_those]
  have hnodup := T'.nodup_passed R
  rw [← T'.passed] at hnodup
  have hpassed : m ∈ w.passed role ↔ m ∈ (w.side role).map Site.parent ∨ w.owner role = m := by
    rw [Course.passed, ← T'.passed, List.mem_append, List.mem_singleton, eq_comm (a := m)]
  have disjoint : m ∈ (w.side role).map Site.parent → w.owner role ≠ m := fun hm e =>
    (List.nodup_append.mp hnodup).2.2 _ hm _ (e.symm ▸ List.mem_singleton_self _) rfl
  by_cases h₁ : m ∈ (w.side role).map Site.parent
  · rw [if_neg (disjoint h₁), if_pos h₁, if_pos (hpassed.mpr (.inl h₁))]
  · rw [if_neg h₁, Nat.add_zero]
    simp only [hpassed, h₁, false_or]

/-- Both sides arrive where they part. -/
theorem Plan.Follows.expected_meeting (F : p.Follows n r w) (W : w.Right h) (R : h.Ranked rank)
    (P : h.Plain) : (expected h p w.module n).Perm [.source, .sink] := by
  refine (F.expected_perm W R P W.meets).trans (.of_eq ?_)
  simp [Role.those, Course.passed]

/-- A module with a port for a request receives the endpoint that joins it. -/
theorem Plan.Follows.expected_port (F : p.Follows n r w) (W : w.Right h) (R : h.Ranked rank)
    (P : h.Plain) (hm : role ∈ portRoles (p.changesOf m).ports n) :
    (expected h p m n).Perm [role] := by
  have hm : m ∈ (w.side role).map Site.child :=
    Role.mem_those.mp ((F.ports m).mem_iff.mp hm)
  have hp : m ∈ w.passed role := List.mem_cons_of_mem _ hm
  obtain ⟨qs, T⟩ := W.reached hp
  refine (F.expected_perm W R P T).trans (List.perm_iff_count.mpr fun role' => ?_)
  rw [Role.count_those, List.count_singleton]
  by_cases e : role' = role
  · subst e
    have hp : m ∈ w.passed role' := List.mem_cons_of_mem _ hm
    simp [hp]
  · rw [if_neg (W.not_passed R hm e)]
    simp [Ne.symm e]

/-! ### Finding the course -/

/-- The only trails to two modules part in a module that is found. -/
theorem meeting_ok {a b : ModuleId} (P : h.Plain) (H : h.Sole ss a) (H' : h.Sole ts b) :
    ∃ w : Course, w.Right h ∧ w.owner .source = a ∧ w.owner .sink = b ∧
      meeting h (ss.map Site.op) (ts.map Site.op) =
        .ok ⟨w.module, (w.side .source).map Site.op, (w.side .sink).map Site.op⟩ := by
  obtain ⟨_, _, _, hs, ht, parts⟩ := exists_parting (ss.map Site.op) (ts.map Site.op)
  obtain ⟨qs, ss, ts, rfl, rfl, rfl, rfl, rfl⟩ :=
    exists_sites P H.trail.sites H'.trail.sites hs ht
  obtain ⟨m, T, -⟩ := H.trail.split
  refine ⟨⟨m, qs, Role.pick ss ts, Role.pick a b⟩, ⟨fun role => ?_, T, parts.ne_of_head⟩, rfl, rfl,
    ?_⟩
  · cases role
    · exact H
    · exact H'
  · rw [hs, ht]
    exact meeting_of_route P T.route parts

end AnnotatedCircuit.Wiring
