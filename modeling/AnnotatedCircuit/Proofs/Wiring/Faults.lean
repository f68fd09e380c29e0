import AnnotatedCircuit.Proofs.Hierarchy.Acyclic
import AnnotatedCircuit.Proofs.Wiring.Planning

/-!
# Requests with faults leave no trace

Planning reads the plan and the hierarchy, and what the path table remembers only through the paths
that it answers. So states with the same plan and right tables over one hierarchy cannot be told
apart (`blind_planRequest`). A request with a fault leaves such a state, and planning the others
alone, under their numbers, gives the same plan (`planNumbered_faultless`).
-/

namespace AnnotatedCircuit

namespace Design

variable {d : Design} {n : Nat} {r : WireRequest}

/-- The requests without a fault, with their numbers. -/
def faultless (d : Design) (n : Nat) (rs : List WireRequest) : List (WireRequest × Nat) :=
  (rs.zipIdx n).filter fun (r, k) => d.fault? k r = none

theorem faultless_cons_of_some {e : LowerError} (he : d.fault? n r = some e)
    (rs : List WireRequest) : d.faultless n (r :: rs) = d.faultless (n + 1) rs := by
  simp [faultless, he]

theorem faultless_cons_of_none (he : d.fault? n r = none) (rs : List WireRequest) :
    d.faultless n (r :: rs) = (r, n) :: d.faultless (n + 1) rs := by
  simp [faultless, he]

end Design

namespace Wiring

open Design

open EStateM (Blind)

variable {α : Type} {d : Design} {n : Nat} {s s' : Planning} {r : WireRequest}
  {rs rest : List WireRequest} {rank : ModuleId → Nat}

/-! ### What planning cannot see -/

/-- The plans are the same, and the tables answer alike. -/
structure Planning.Agree (s s' : Planning) : Prop where
  plan : s.plan = s'.plan
  hierarchy : s.table.hierarchy = s'.table.hierarchy
  left : s.table.Right
  right : s'.table.Right

theorem Planning.Agree.withPlan (g : s.Agree s') (f : Plan → Plan) :
    Planning.Agree { s with plan := f s.plan } { s' with plan := f s'.plan } :=
  ⟨congrArg f g.plan, g.hierarchy, g.left, g.right⟩

theorem blind_ofDesign (question : Except DesignError α) :
    Blind Planning.Agree (.ofDesign question : Attempt Planning α) := by
  cases question with
  | ok a => exact .pure a
  | error e => exact .throw _

theorem blind_ofChecked (x : Except Overflow α) :
    Blind Planning.Agree (.ofChecked x : Attempt Planning α) := by
  cases x with
  | ok a => exact .pure a
  | error o => exact .throw _

/-- The table is asked for paths, and may remember more from then on. -/
theorem blind_pathsOf (m : ModuleId) : Blind Planning.Agree (pathsOf m) := by
  intro s s' g
  rw [pathsOf_ok g.left, pathsOf_ok g.right, g.hierarchy]
  exact .ok _ ⟨g.plan, g.hierarchy, g.left.paths m, g.right.paths m⟩

theorem blind_onlyPath (d : Design) (n : Nat) (m : ModuleId) :
    Blind Planning.Agree (onlyPath d n m) := by
  refine .bind (blind_pathsOf m) fun ps => ?_
  match ps with
  | [p] => exact .pure p
  | [] | _ :: _ :: _ => exact .bind (blind_ofDesign _) fun name => .throw _

theorem blind_supplyOf (d : Design) (m : ModuleId) : Blind Planning.Agree (supplyOf d m) := by
  refine .get_bind (fun s s' g => by rw [g.plan]) fun s => ?_
  cases s.plan.names.find? m with
  | some supply => exact .pure supply
  | none => exact blind_ofDesign _

theorem blind_portName (d : Design) (m : ModuleId) (hint : String) :
    Blind Planning.Agree (portName d m hint) := by
  refine .bind (blind_supplyOf d m) fun supply => .bind (blind_ofChecked _) fun (_, supply') => ?_
  refine .bind (.modify fun s s' g => ?_) fun _ => .pure _
  exact g.withPlan fun p => { p with names := p.names.insert m supply' }

theorem blind_changeModule (m : ModuleId) (f : ModuleChanges → ModuleChanges) :
    Blind Planning.Agree (changeModule m f) := .modify fun _ _ g => g.withPlan (·.modify m f)

theorem blind_planPorts (d : Design) (n : Nat) (hint : String) (type : SignalType)
    (direction : Direction) (path : InstPath) :
    Blind Planning.Agree (planPorts d n hint type direction path) := by
  refine .forM (fun o => ?_) path
  refine .get_bind (fun s s' g => by rw [g.hierarchy]) fun s => ?_
  exact .bind (blind_ofDesign _) fun site => .bind (blind_portName d _ _) fun name =>
    blind_changeModule _ _

theorem blind_planAlong (d : Design) (n : Nat) (r : WireRequest) (a b : ModuleId)
    (p q : InstPath) : Blind Planning.Agree (planAlong d n r a b p q) := by
  refine .get_bind (fun s s' g => by rw [g.hierarchy]) fun s => ?_
  refine .bind (blind_ofDesign _) fun m => .bind (blind_ofDesign _) fun type => ?_
  refine .bind (blind_changeModule _ _) fun _ => .bind (blind_changeModule _ _) fun _ => ?_
  exact .bind (blind_planPorts d n _ _ _ _) fun _ => blind_planPorts d n _ _ _ _

/-- Planning a request cannot tell what the table remembers. -/
theorem blind_planRequest (d : Design) (n : Nat) (r : WireRequest) :
    Blind Planning.Agree (planRequest d n r) :=
  .bind (blind_ofDesign _) fun _ => .bind (blind_ofDesign _) fun _ =>
    .bind (blind_onlyPath d n _) fun _ => .bind (blind_onlyPath d n _) fun _ =>
      blind_planAlong d n r _ _ _ _

/-! ### Lists of requests -/

/-- The plan and the errors, whatever the table remembers. -/
def planned (x : Except Overflow (Planning × List LowerError)) :
    Except Overflow (Plan × List LowerError) :=
  x.map fun (s, errors) => (s.plan, errors)

theorem planned_eq_ok_iff {x : Except Overflow (Planning × List LowerError)} {p : Plan}
    {errors : List LowerError} :
    planned x = .ok (p, errors) ↔ ∃ table, x = .ok (⟨table, p⟩, errors) := by
  cases x with
  | error o => simp [planned, Except.map]
  | ok a =>
    obtain ⟨⟨table, p'⟩, errors'⟩ := a
    simp [planned, Except.map]

theorem planned_eq_error_iff {x : Except Overflow (Planning × List LowerError)} {o : Overflow} :
    planned x = .error o ↔ x = .error o := by
  cases x <;> simp [planned, Except.map]

theorem planned_cons_of_failure {e : LowerError} (h : planRequest d n r s = .error (.failure e) s')
    (rest : List WireRequest) : planned (planFrom d n (r :: rest) s) =
      (planned (planFrom d (n + 1) rest s')).map fun (p, errors) => (p, e :: errors) := by
  rw [planFrom_cons_of_failure h]
  cases planFrom d (n + 1) rest s' <;> rfl

/-- The plan and the errors do not depend on what the table remembers. -/
theorem planFrom_agree (g : s.Agree s') (rest : List WireRequest) :
    planned (planFrom d n rest s) = planned (planFrom d n rest s') := by
  induction rest generalizing n s s' with
  | nil => exact congrArg (fun p => Except.ok (p, [])) g.plan
  | cons r rest ih =>
    have first := blind_planRequest d n r s s' g
    generalize hs : planRequest d n r s = x, hs' : planRequest d n r s' = x' at first
    cases first with
    | ok _ g' =>
      rw [planFrom_cons_of_ok hs, planFrom_cons_of_ok hs']
      exact ih g'
    | error e g' =>
      cases e with
      | failure e => rw [planned_cons_of_failure hs, planned_cons_of_failure hs', ih g']
      | overflow o => rw [planFrom_cons_of_overflow hs, planFrom_cons_of_overflow hs']

/-- Plan requests under the numbers that they have. -/
def planNumbered (d : Design) : List (WireRequest × Nat) → Planning →
    Except Overflow (Planning × List LowerError)
  | [], s => .ok (s, [])
  | (r, n) :: rest, s => do
    let (s, errors) ← planFrom d n [r] s
    let (s, later) ← planNumbered d rest s
    return (s, errors ++ later)

theorem planNumbered_cons_of_ok (h : planRequest d n r s = .ok () s')
    (rest : List (WireRequest × Nat)) :
    planNumbered d ((r, n) :: rest) s = planNumbered d rest s' := by
  rw [planNumbered, planFrom_cons_of_ok h]
  dsimp only [planFrom, bind, Except.bind]
  cases planNumbered d rest s' <;> rfl

theorem planNumbered_cons_of_failure {e : LowerError}
    (h : planRequest d n r s = .error (.failure e) s') (rest : List (WireRequest × Nat)) :
    planNumbered d ((r, n) :: rest) s =
      (planNumbered d rest s').map fun (s, es) => (s, e :: es) := by
  rw [planNumbered, planFrom_cons_of_failure h]
  dsimp only [planFrom, bind, Except.bind, Except.map]
  cases planNumbered d rest s' <;> rfl

theorem planNumbered_cons_of_overflow {o : Overflow}
    (h : planRequest d n r s = .error (.overflow o) s') (rest : List (WireRequest × Nat)) :
    planNumbered d ((r, n) :: rest) s = .error o := by
  rw [planNumbered, planFrom_cons_of_overflow h]
  rfl

/-- Numbered one after the other, the requests are planned as before. -/
theorem planNumbered_zipIdx (d : Design) (rs : List WireRequest) (n : Nat) (s : Planning) :
    planNumbered d (rs.zipIdx n) s = planFrom d n rs s := by
  induction rs generalizing n s with
  | nil => rfl
  | cons r rs ih =>
    rw [List.zipIdx_cons]
    cases h : planRequest d n r s with
    | ok _ s' => rw [planNumbered_cons_of_ok h, planFrom_cons_of_ok h, ih]
    | error e s' =>
      cases e with
      | failure e => rw [planNumbered_cons_of_failure h, planFrom_cons_of_failure h, ih]
      | overflow o => rw [planNumbered_cons_of_overflow h, planFrom_cons_of_overflow h]

/-- Without the requests that have a fault, the plan is the same, and nothing is reported. -/
theorem planNumbered_faultless (H : d.Coherent) (K : d.ChildrenKnown) (R : d.hierarchy.Ranked rank)
    (P : Planned d rs n s) (hrest : rs.drop n = rest) (g : s.Agree s') :
    planned (planNumbered d (d.faultless n rest) s') =
      (planned (planFrom d n rest s)).map fun (p, _) => (p, []) := by
  induction rest generalizing n s s' with
  | nil => exact congrArg (fun p => Except.ok (p, [])) g.plan.symm
  | cons r rest ih =>
    obtain ⟨hr, hrest'⟩ := next_of_drop hrest
    rcases planRequest_cases H K R P hr with ⟨e, t, he, h, P'⟩ | ⟨he, step⟩
    · have g' : Planning.Agree ⟨t, s.plan⟩ s' :=
        ⟨g.plan, P'.hierarchy.trans (P.hierarchy.symm.trans g.hierarchy), P'.table, g.right⟩
      rw [planned_cons_of_failure h, faultless_cons_of_some he, ih P' hrest' g']
      cases planned (planFrom d (n + 1) rest ⟨t, s.plan⟩) <;> rfl
    · have same := blind_planRequest d n r s s' g
      rw [faultless_cons_of_none he]
      rcases step with ⟨s₁, h, P'⟩ | ⟨o, s₁, h, -⟩
      all_goals
        rw [h] at same
        generalize h' : planRequest d n r s' = x at same
      · cases same with
        | ok _ g' =>
          rw [planNumbered_cons_of_ok h', planFrom_cons_of_ok h]
          exact ih P' hrest' g'
      · cases same with
        | error _ g' =>
          rw [planNumbered_cons_of_overflow h', planFrom_cons_of_overflow h]
          rfl

/-- Planning is atomic for each request: each request with a fault is reported once, in the order of
the requests, and the plan is what the others give alone under their numbers. It makes no difference
which paths the table was asked for before. Only a module with as many names as there are words
stops the planning. -/
theorem plan_faultless (H : d.Built) (A : d.Acyclic) (rs : List WireRequest) :
    Hierarchy.ofDesign d = .ok d.hierarchy ∧ ∀ ms : List ModuleId,
      match plan d ((PathTable.ofHierarchy d.hierarchy).asked ms) rs with
      | .ok (s, errors) => errors = d.faults 0 rs ∧ ∀ ms' : List ModuleId,
        (∃ t, plan d ((PathTable.ofHierarchy d.hierarchy).asked ms') rs =
          .ok (⟨t, s.plan⟩, errors)) ∧
        ∃ t, planNumbered d (d.faultless 0 rs)
          ⟨(PathTable.ofHierarchy d.hierarchy).asked ms', .empty⟩ = .ok (⟨t, s.plan⟩, [])
      | .error o =>
        (∃ x ∈ d.modules, Word.limit ≤ x.ports.length + x.body.length + rs.length) ∧
        ∀ ms' : List ModuleId,
          plan d ((PathTable.ofHierarchy d.hierarchy).asked ms') rs = .error o ∧
          planNumbered d (d.faultless 0 rs)
            ⟨(PathTable.ofHierarchy d.hierarchy).asked ms', .empty⟩ = .error o := by
  have C := H.coherent
  have K : d.ChildrenKnown := H.childrenKnown
  have hh := Hierarchy.ofDesign_of_acyclic H A
  refine ⟨hh, fun ms => ?_⟩
  obtain ⟨ht, T⟩ := table_of_design C hh ms
  obtain ⟨rank, R⟩ := T.ranked
  rw [ht] at R
  have P := Planned.start ht T rs
  have others : ∀ ms', Planning.Agree ⟨(PathTable.ofHierarchy d.hierarchy).asked ms, .empty⟩
      ⟨(PathTable.ofHierarchy d.hierarchy).asked ms', .empty⟩ := fun ms' =>
    have ⟨ht', T'⟩ := table_of_design C hh ms'
    ⟨rfl, ht.trans ht'.symm, T, T'⟩
  have same : ∀ ms', planned (plan d ((PathTable.ofHierarchy d.hierarchy).asked ms') rs) =
      planned (plan d ((PathTable.ofHierarchy d.hierarchy).asked ms) rs) := fun ms' =>
    (planFrom_agree (others ms') rs).symm
  have alone : ∀ ms', planned (planNumbered d (d.faultless 0 rs)
      ⟨(PathTable.ofHierarchy d.hierarchy).asked ms', .empty⟩) =
      (planned (plan d ((PathTable.ofHierarchy d.hierarchy).asked ms) rs)).map
        fun (p, _) => (p, []) := fun ms' =>
    planNumbered_faultless C K R P rfl (others ms')
  simp only [← planned_eq_ok_iff, ← planned_eq_error_iff, same, alone]
  rcases planFrom_cases C K R P (Nat.zero_le _) List.drop_zero with
    ⟨s, hplan, -⟩ | ⟨o, hplan, hfull⟩
  · rw [plan, hplan]
    exact ⟨rfl, fun _ => ⟨rfl, rfl⟩⟩
  · rw [plan, hplan]
    exact ⟨hfull, fun _ => ⟨rfl, rfl⟩⟩

/-- A module with one instance, one with two and one with none, and a wire that is gone. -/
def fewInstances : Design := (Design.new "Top").edited
  [.newModule "A" .defined, .newModule "B" .defined, .newModule "U" .defined,
    .newWire ⟨0⟩ "snk" (.uint (some 1)), .newWire ⟨1⟩ "src" (.uint (some 1)),
    .newWire ⟨2⟩ "twice" (.uint (some 1)), .newWire ⟨3⟩ "apart" (.uint (some 1)),
    .newWire ⟨0⟩ "gone" (.uint (some 1)), .removeOp ⟨4⟩, .instantiate ⟨0⟩ "a" ⟨1⟩,
    .instantiate ⟨0⟩ "b" ⟨2⟩, .instantiate ⟨0⟩ "c" ⟨2⟩]

/-- Two requests that can be planned, among others from each of the other wires. -/
def mixedRequests : List WireRequest :=
  [4, 1, 2, 3, 1].map fun v => ⟨⟨v⟩, ⟨0⟩, false, "up"⟩

theorem plan_faultless_mixedRequests : fewInstances.Built ∧ fewInstances.Acyclic ∧
    ∃ s, plan fewInstances ((PathTable.ofHierarchy fewInstances.hierarchy).asked [⟨2⟩])
        mixedRequests =
          .ok (s, [.design (.unknownOp ⟨4⟩), .ambiguous 2 "B" 2, .ambiguous 3 "U" 0]) ∧
      (s.plan.changesOf ⟨1⟩).ports.map (fun q => (q.port.name, q.request)) =
        [("up", 1), ("up_0", 4)] ∧
      (fewInstances.faultless 0 mixedRequests).map Prod.snd = [1, 4] ∧
      ∃ t, planNumbered fewInstances (fewInstances.faultless 0 mixedRequests)
        ⟨(PathTable.ofHierarchy fewInstances.hierarchy).asked [], .empty⟩ =
          .ok (⟨t, s.plan⟩, []) := by
  have H : fewInstances.Built := (Built.new "Top").edited _
  have A : fewInstances.Acyclic := by
    rw [← acyclic_hierarchy_iff H.coherent,
      ← Hierarchy.cycle?_eq_none_iff (closed_hierarchy H.coherent H.childrenKnown).enclosed]
    decide +kernel
  have run : (plan fewInstances ((PathTable.ofHierarchy fewInstances.hierarchy).asked [⟨2⟩])
      mixedRequests).map (fun r => (r.2, (r.1.plan.changesOf ⟨1⟩).ports.map
        fun q => (q.port.name, q.request))) =
      .ok ([.design (.unknownOp ⟨4⟩), .ambiguous 2 "B" 2, .ambiguous 3 "U" 0],
        [("up", 1), ("up_0", 4)]) := by
    decide +kernel
  have kept : (fewInstances.faultless 0 mixedRequests).map Prod.snd = [1, 4] := by decide +kernel
  have all := (plan_faultless H A mixedRequests).2 [⟨2⟩]
  cases hplan : plan fewInstances ((PathTable.ofHierarchy fewInstances.hierarchy).asked [⟨2⟩])
      mixedRequests with
  | error o =>
    rw [hplan] at run
    cases run
  | ok result =>
    obtain ⟨s, errors⟩ := result
    rw [hplan] at run all
    obtain ⟨rfl, names⟩ := Prod.mk.inj (Except.ok.inj run)
    exact ⟨H, A, s, rfl, names, kept, (all.2 []).2⟩

end Wiring

end AnnotatedCircuit
