import AnnotatedCircuit.Proofs.Hierarchy.Answers
import AnnotatedCircuit.Proofs.Wiring.PlannedNames
import AnnotatedCircuit.Proofs.Wiring.Planning

/-!
# Bounds on planning

Planning reserves one name for each port, so a plan for any requests on any design overflows only
where the names of some module, with those of the ports that it has got so far, are as many as there
are words (`planFrom_full`). A request gets no more ports than its two paths have instances, and so
a design in which this happens has many names itself, or there are many requests (`plan_crowded`).
-/

namespace AnnotatedCircuit

/-- With so many further names, a module may have as many as there are words. -/
def Design.Crowded (d : Design) (further : Nat) : Prop :=
  ∃ x ∈ d.modules, Word.limit ≤ x.ports.length + x.body.length + further

theorem Design.Crowded.mono {d : Design} {n n' : Nat} (h : d.Crowded n) (hn : n ≤ n') :
    d.Crowded n' := by
  obtain ⟨x, hx, hfull⟩ := h
  exact ⟨x, hx, Nat.le_trans hfull (Nat.add_le_add_left hn _)⟩

/-- A path of a ranked hierarchy passes no more instances than there are modules. -/
theorem Hierarchy.Route.length_le {h : Hierarchy} {rank : ModuleId → Nat} {p : InstPath}
    {m : ModuleId} (H : h.Route p m) (R : h.Ranked rank) : p.length ≤ h.modules.length := by
  have length_le_rank : p.length ≤ rank m := by
    induction H with
    | top => exact Nat.zero_le _
    | step _ hs ih =>
      rw [List.length_append, List.length_singleton]
      exact Nat.lt_of_le_of_lt ih (R.lt_site hs)
  exact Nat.le_trans length_le_rank (R.le m)

namespace Wiring

open Design

variable {α β : Type} {d : Design} {h : Hierarchy} {n k k' : Nat} {s s' : Planning} {m : ModuleId}
  {hint : String} {type : SignalType} {direction : Direction} {x : Attempt Planning α}
  {f : α → Attempt Planning β} {rs : List WireRequest} {o : Overflow}

theorem ports_modify (p : Plan) (m m' : ModuleId) (g : ModuleChanges → ModuleChanges)
    (hg : ∀ c, (g c).ports = c.ports) :
    ((p.modify m g).changesOf m').ports = (p.changesOf m').ports := by
  rw [Plan.changesOf_modify]
  split
  · subst m'
    exact hg _
  · rfl

/-! ### Names -/

/-- Names are reserved for modules of the design, and no more than these have and get. -/
structure Planning.Reserving (d : Design) (s : Planning) : Prop where
  named : s.plan.Named d
  known : ∀ {m supply}, s.plan.names.find? m = some supply → ∃ x, d.module? m = some x

namespace Planning.Reserving

theorem start (d : Design) (t : PathTable) : Reserving d ⟨t, .empty⟩ := ⟨⟨nofun, nofun⟩, nofun⟩

/-- Endpoints play no role. -/
theorem modify (R : s.Reserving d) (m : ModuleId) (g : ModuleChanges → ModuleChanges)
    (hg : ∀ c, (g c).ports = c.ports) : Reserving d { s with plan := s.plan.modify m g } where
  named := ⟨R.named.counted, fun hm hx => ports_modify s.plan m _ g hg ▸ R.named.few hm hx⟩
  known := R.known

/-- What is known of the names of a module, and how many there are. -/
theorem supplies {supply : NameSupply} (R : s.Reserving d) (known : s.plan.Supplies d m supply) :
    ∃ x, d.module? m = some x ∧ supply.Counted ∧
      supply.used.length ≤ x.ports.length + x.body.length + (s.plan.changesOf m).ports.length := by
  rcases known with hm | ⟨-, hn⟩
  · obtain ⟨x, hx⟩ := R.known hm
    exact ⟨x, hx, R.named.counted hm, R.named.few hm hx⟩
  · obtain ⟨x, hx, -⟩ := Checked.bind_eq_ok_iff.mp hn
    have hx := module_eq_ok_iff.mp hx
    obtain ⟨supply', hn', C, hlen⟩ := namesIn_ok hx
    obtain rfl := Except.ok.inj (hn.symm.trans hn')
    exact ⟨x, hx, C, Nat.le_trans hlen (Nat.le_add_right ..)⟩

theorem withPort {supply supply' : NameSupply} {name : String} (R : s.Reserving d)
    (known : s.plan.Supplies d m supply) (fresh : supply.fresh hint = .ok (name, supply'))
    (port : PlannedPort) : Reserving d { s with plan := s.plan.withPort m supply' port } := by
  obtain ⟨x, hx, C, hlen⟩ := R.supplies known
  have C' : supply'.Counted := by
    rcases NameSupply.fresh_cases C hint with ⟨_, _, h, C'⟩ | ⟨_, h, -⟩
    · cases fresh.symm.trans h
      exact C'
    · cases fresh.symm.trans h
  refine ⟨R.named.withPort C' (fun hy => ?_) port, fun {m' t} h => ?_⟩
  · cases hx.symm.trans hy
    rw [(NameSupply.fresh_ok fresh).2.1]
    exact Nat.succ_le_succ hlen
  · dsimp only at h
    rw [Plan.find?_names_withPort] at h
    split at h
    · subst m'
      exact ⟨x, hx⟩
    · exact R.known h

end Planning.Reserving

/-- A name for a port is missing only when the supply of the module has none. -/
theorem fresh_of_portName (h : portName d m hint s = .error (.overflow o) s') :
    s' = s ∧ ∃ supply, s.plan.Supplies d m supply ∧ supply.fresh hint = .error o := by
  rcases supplyOf_cases d m s with ⟨supply, hsupply, known⟩ | ⟨e, hsupply⟩
  · rw [portName, EStateM.bind_of_ok hsupply] at h
    cases hf : supply.fresh hint with
    | ok r =>
      rw [hf] at h
      cases h
    | error o' =>
      rw [hf] at h
      cases h
      exact ⟨rfl, supply, known, hf⟩
  · rw [portName, EStateM.bind_of_error hsupply] at h
    cases h

/-- A step of planning that reserves names, and overflows only where a module has too many. -/
structure Reserves (d : Design) (x : Attempt Planning α) : Prop where
  reserving : ∀ {s}, s.Reserving d → (x.after s).Reserving d
  full : ∀ {s s' o}, s.Reserving d → x s = .error (.overflow o) s' → ∃ m, s'.plan.Full d m

namespace Reserves

theorem pure (a : α) : Reserves d (Pure.pure a : Attempt Planning α) := ⟨id, fun _ h => nomatch h⟩

theorem fail (e : LowerError) : Reserves d (Attempt.fail e : Attempt Planning α) :=
  ⟨id, fun _ h => nomatch h⟩

theorem ofDesign (question : Except DesignError α) :
    Reserves d (Attempt.ofDesign question : Attempt Planning α) := by
  cases question with
  | ok a => exact pure a
  | error e => exact fail (.design e)

theorem bind (hx : Reserves d x) (hf : ∀ a, Reserves d (f a)) : Reserves d (x >>= f) where
  reserving {s} R := EStateM.after_bind_keeps (P := Planning.Reserving d) (hx.reserving R)
    fun a _ => (hf a).reserving
  full {s s' o} R h := by
    cases hxs : x s with
    | ok a s₁ =>
      rw [EStateM.bind_of_ok hxs] at h
      exact (hf a).full (EStateM.after_of_ok hxs ▸ hx.reserving R) h
    | error e s₁ =>
      rw [EStateM.bind_of_error hxs] at h
      cases h
      exact hx.full R hxs

theorem changeModule (m : ModuleId) (g : ModuleChanges → ModuleChanges)
    (hg : ∀ c, (g c).ports = c.ports) : Reserves d (changeModule m g) :=
  ⟨fun R => R.modify m g hg, fun _ h => nomatch h⟩

theorem planPort (n : Nat) (hint : String) (type : SignalType) (direction : Direction) (o : OpId) :
    Reserves d (planPort d n hint type direction o) where
  reserving {s} R := by
    rcases planPort_outcome d n hint type direction o s with
      ⟨site, supply, name, supply', known, fresh, h⟩ | h
    · rw [h]
      exact R.withPort known fresh _
    · rw [h]
      exact R
  full {s s' cause} R h := by
    cases hsite : s.table.hierarchy.site o with
    | error e =>
      have failed : Wiring.planPort d n hint type direction o s =
          .error (.failure (.design e)) s := by
        refine (EStateM.bind_of_ok rfl).trans (EStateM.bind_of_error ?_)
        rw [hsite]
        rfl
      cases failed.symm.trans h
    | ok site =>
      have start : Wiring.planPort d n hint type direction o s =
          (portName d site.child hint >>= fun name =>
            Wiring.changeModule site.child (·.addPort ⟨⟨name, type, direction⟩, n⟩)) s := by
        refine (EStateM.bind_of_ok rfl).trans (EStateM.bind_of_ok ?_)
        rw [hsite]
        rfl
      have hname : portName d site.child hint s = .error (.overflow cause) s' := by
        rw [start] at h
        cases hname : portName d site.child hint s with
        | ok name s₁ =>
          rw [EStateM.bind_of_ok hname] at h
          cases h
        | error e s₁ =>
          rw [EStateM.bind_of_error hname] at h
          cases h
          rfl
      obtain ⟨rfl, supply, known, none⟩ := fresh_of_portName hname
      obtain ⟨x, hx, C, hlen⟩ := R.supplies known
      rcases NameSupply.fresh_cases C hint with ⟨_, _, fresh, -⟩ | ⟨_, -, hfull⟩
      · cases none.symm.trans fresh
      · exact ⟨site.child, x, hx, Nat.le_trans hfull hlen⟩

theorem planPorts (n : Nat) (hint : String) (type : SignalType) (direction : Direction)
    (path : InstPath) : Reserves d (planPorts d n hint type direction path) := by
  induction path with
  | nil => exact pure ()
  | cons o path ih => exact (planPort n hint type direction o).bind fun _ => ih

theorem onlyPath (n : Nat) (m : ModuleId) : Reserves d (onlyPath d n m) := by
  refine bind ⟨fun R => ⟨R.named, R.known⟩, fun _ h => nomatch h⟩ fun ps => ?_
  rcases ps with _ | ⟨p, _ | ⟨q, ps⟩⟩
  · exact (ofDesign _).bind fun _ => fail _
  · exact pure p
  · exact (ofDesign _).bind fun _ => fail _

theorem planRequest (n : Nat) (r : WireRequest) : Reserves d (planRequest d n r) := by
  refine (ofDesign _).bind fun a => (ofDesign _).bind fun b => ?_
  refine (onlyPath n a).bind fun source => (onlyPath n b).bind fun sink => ?_
  refine bind (x := get) ⟨id, fun _ h => nomatch h⟩ fun s => ?_
  refine (ofDesign _).bind fun w => (ofDesign _).bind fun t => ?_
  refine (changeModule a _ fun c => ModuleChanges.ports_record ..).bind fun _ => ?_
  refine (changeModule b _ fun c => ModuleChanges.ports_record ..).bind fun _ => ?_
  exact (planPorts ..).bind fun _ => planPorts ..

end Reserves

/-- The state that planning ends in or, where it overflows, has come to. -/
def planningEnd (d : Design) : Nat → List WireRequest → Planning → Planning
  | _, [], s => s
  | n, r :: rs, s =>
    match planRequest d n r s with
    | .ok _ s => planningEnd d (n + 1) rs s
    | .error (.failure _) s => planningEnd d (n + 1) rs s
    | .error (.overflow _) s => s

/-- Planning without an overflow leaves what it ends in. -/
theorem planningEnd_of_ok {errors : List LowerError} (h : planFrom d n rs s = .ok (s', errors)) :
    planningEnd d n rs s = s' := by
  induction rs generalizing n s errors with
  | nil =>
    cases h
    rfl
  | cons r rs ih =>
    rw [planningEnd]
    cases hr : planRequest d n r s with
    | ok _ t => exact ih (planFrom_cons_of_ok hr rs ▸ h)
    | error cause t =>
      cases cause with
      | failure e =>
        rw [planFrom_cons_of_failure hr] at h
        cases hrest : planFrom d (n + 1) rs t with
        | ok result =>
          rw [hrest] at h
          cases h
          exact ih hrest
        | error o =>
          rw [hrest] at h
          cases h
      | overflow o =>
        rw [planFrom_cons_of_overflow hr] at h
        cases h

/-- Where planning overflows, a module has as many names as there are words. -/
theorem planFrom_full (R : s.Reserving d) (overflow : planFrom d n rs s = .error o) :
    ∃ m, (planningEnd d n rs s).plan.Full d m := by
  induction rs generalizing n s with
  | nil => cases overflow
  | cons r rs ih =>
    have step : Reserves d (planRequest d n r) := .planRequest n r
    have R' := step.reserving R
    rw [EStateM.after] at R'
    rw [planningEnd]
    cases hr : planRequest d n r s with
    | ok _ t =>
      rw [hr] at R'
      exact ih R' (planFrom_cons_of_ok hr rs ▸ overflow)
    | error cause t =>
      rw [hr] at R'
      cases cause with
      | failure e =>
        rw [planFrom_cons_of_failure hr] at overflow
        refine ih R' ?_
        cases hrest : planFrom d (n + 1) rs t with
        | ok result =>
          rw [hrest] at overflow
          cases overflow
        | error o' =>
          rw [hrest] at overflow
          exact overflow
      | overflow o' => exact step.full R hr

/-! ### Ports -/

/-- A plan with no more than `n` ports on any module, in a hierarchy whose paths are known. -/
structure Planning.Within (h : Hierarchy) (n : Nat) (s : Planning) : Prop where
  hierarchy : s.table.hierarchy = h
  table : s.table.Right
  few : ∀ m, (s.plan.changesOf m).ports.length ≤ n

namespace Planning.Within

theorem start {t : PathTable} (T : t.Right) : Within t.hierarchy 0 ⟨t, .empty⟩ :=
  ⟨rfl, T, fun _ => Nat.le_refl 0⟩

theorem mono (W : s.Within h n) (hn : n ≤ k) : s.Within h k :=
  { W with few := fun m => Nat.le_trans (W.few m) hn }

theorem withPort (W : s.Within h n) (m : ModuleId) (supply : NameSupply) (port : PlannedPort) :
    Within h (n + 1) { s with plan := s.plan.withPort m supply port } := by
  refine ⟨W.hierarchy, W.table, fun m' => ?_⟩
  dsimp only
  rw [Plan.changesOf_withPort]
  split
  · rw [ModuleChanges.addPort, List.length_append]
    exact Nat.succ_le_succ (W.few m)
  · exact Nat.le_succ_of_le (W.few m')

/-- A module that is full, with few planned ports, has many names in the design. -/
theorem crowded (W : s.Within h n) (full : ∃ m, s.plan.Full d m) : d.Crowded n := by
  obtain ⟨m, x, hx, hfull⟩ := full
  exact ⟨x, module?_mem hx, Nat.le_trans hfull (Nat.add_le_add_left (W.few m) _)⟩

end Planning.Within

/-- A step of planning that adds no more than `k` ports to a module, whatever comes of it. -/
structure Costs (h : Hierarchy) (k : Nat) (x : Attempt Planning α) : Prop where
  within : ∀ {n s}, s.Within h n → (x.after s).Within h (n + k)

namespace Costs

theorem pure (a : α) : Costs h 0 (Pure.pure a : Attempt Planning α) := ⟨id⟩

theorem fail (e : LowerError) : Costs h 0 (Attempt.fail e : Attempt Planning α) := ⟨id⟩

theorem ofDesign (question : Except DesignError α) :
    Costs h 0 (Attempt.ofDesign question : Attempt Planning α) := by
  cases question with
  | ok a => exact pure a
  | error e => exact fail (.design e)

theorem mono (hx : Costs h k x) (hk : k ≤ k') : Costs h k' x :=
  ⟨fun W => (hx.within W).mono (Nat.add_le_add_left hk _)⟩

/-- The second step may use that the first one answered. -/
theorem bind_of (hx : Costs h k x)
    (hf : ∀ {n s a s'}, s.Within h n → x s = .ok a s' → Costs h k' (f a)) :
    Costs h (k + k') (x >>= f) where
  within {n s} W := by
    rw [← Nat.add_assoc]
    refine EStateM.after_bind (P := fun s' : Planning => s'.Within h (n + k + k'))
      ((hx.within W).mono (Nat.le_add_right ..)) fun a s' run => ?_
    exact (hf W run).within (EStateM.after_of_ok run ▸ hx.within W)

theorem bind (hx : Costs h k x) (hf : ∀ a, Costs h k' (f a)) : Costs h (k + k') (x >>= f) :=
  hx.bind_of fun _ _ => hf _

/-- A first step that costs nothing. -/
theorem free_bind_of (hx : Costs h 0 x)
    (hf : ∀ {n s a s'}, s.Within h n → x s = .ok a s' → Costs h k (f a)) :
    Costs h k (x >>= f) :=
  Nat.zero_add k ▸ hx.bind_of hf

theorem free_bind (hx : Costs h 0 x) (hf : ∀ a, Costs h k (f a)) : Costs h k (x >>= f) :=
  hx.free_bind_of fun _ _ => hf _

theorem changeModule (m : ModuleId) (g : ModuleChanges → ModuleChanges)
    (hg : ∀ c, (g c).ports = c.ports) : Costs h 0 (changeModule m g) where
  within {_ s} W := ⟨W.hierarchy, W.table, fun m' =>
    (congrArg List.length (ports_modify s.plan m m' g hg)).trans_le (W.few m')⟩

/-- A port is planned at the cost of one name. -/
theorem planPort (n : Nat) (hint : String) (type : SignalType) (direction : Direction) (o : OpId) :
    Costs h 1 (planPort d n hint type direction o) where
  within {n' s} W := by
    rcases planPort_outcome d n hint type direction o s with
      ⟨site, supply, name, supply', -, -, left⟩ | left
    · rw [left]
      exact W.withPort ..
    · rw [left]
      exact W.mono (Nat.le_succ _)

theorem planPorts (n : Nat) (hint : String) (type : SignalType) (direction : Direction)
    (path : InstPath) : Costs h path.length (planPorts d n hint type direction path) := by
  induction path with
  | nil => exact pure ()
  | cons o path ih =>
    rw [List.length_cons, Nat.add_comm]
    exact (planPort n hint type direction o).bind fun _ => ih

/-- Looking for a path costs nothing. -/
theorem onlyPath (n : Nat) (m : ModuleId) : Costs h 0 (onlyPath d n m) := by
  refine free_bind ⟨fun W => { W with hierarchy := W.hierarchy, table := W.table.paths m }⟩ ?_
  intro ps
  rcases ps with _ | ⟨p, _ | ⟨q, ps⟩⟩
  · exact (ofDesign _).free_bind fun _ => fail _
  · exact pure p
  · exact (ofDesign _).free_bind fun _ => fail _

end Costs

theorem length_of_onlyPath {path : InstPath} (W : s.Within h n)
    (hpath : onlyPath d k m s = .ok path s') : path.length ≤ h.modules.length := by
  obtain ⟨rank, R⟩ := W.table.ranked
  rw [W.hierarchy] at R
  have hps := pathsOf_ok W.table m
  rw [onlyPath, EStateM.bind_of_ok hps, W.hierarchy] at hpath
  match hp : h.pathsTo m with
  | [p] =>
    rw [hp] at hpath
    cases hpath
    exact ((Hierarchy.mem_pathsTo_iff R).mp (hp ▸ List.mem_singleton_self _)).length_le R
  | [] | p :: q :: ps =>
    rw [hp] at hpath
    cases hm : d.moduleName m <;> rw [hm] at hpath <;> cases hpath

theorem lengths_of_meeting {source sink : InstPath} {w : Meeting}
    (hw : meeting h source sink = .ok w) :
    w.sources.length ≤ source.length ∧ w.sinks.length ≤ sink.length := by
  have drops : ∀ {m : ModuleId}, (pure ⟨m, source.drop (sharedLength source sink),
      sink.drop (sharedLength source sink)⟩ : Except DesignError Meeting) = .ok w →
      w.sources.length ≤ source.length ∧ w.sinks.length ≤ sink.length := by
    intro m hw
    obtain rfl := Checked.pure_eq_ok_iff.mp hw
    exact ⟨(List.drop_sublist ..).length_le, (List.drop_sublist ..).length_le⟩
  unfold meeting at hw
  dsimp only at hw
  split at hw
  · exact drops hw
  · obtain ⟨_, -, hw⟩ := Checked.bind_eq_ok_iff.mp hw
    exact drops hw

theorem Costs.planAlong {a b : ModuleId} {source sink : InstPath}
    (hsource : source.length ≤ k) (hsink : sink.length ≤ k) (n : Nat) (r : WireRequest) :
    Costs h (2 * k) (planAlong d n r a b source sink) := by
  refine free_bind (k := 2 * k) (x := get) ⟨id⟩ fun s => ?_
  refine (ofDesign _).free_bind_of fun {_ _ w _} _ hw => ?_
  obtain ⟨h₁, h₂⟩ := lengths_of_meeting (Attempt.eq_ok_of_ofDesign hw)
  refine (ofDesign _).free_bind fun t => ?_
  refine (changeModule a _ fun c => ModuleChanges.ports_record ..).free_bind fun _ => ?_
  refine (changeModule b _ fun c => ModuleChanges.ports_record ..).free_bind fun _ => ?_
  exact ((planPorts ..).bind fun _ => planPorts ..).mono (by omega)

/-- A request gets no more ports than its paths have instances. -/
theorem Costs.planRequest (n : Nat) (r : WireRequest) :
    Costs h (2 * h.modules.length) (planRequest d n r) := by
  refine (ofDesign _).free_bind fun a => (ofDesign _).free_bind fun b => ?_
  refine (onlyPath n a).free_bind_of fun W ha => ?_
  refine (onlyPath n b).free_bind_of fun W' hb => ?_
  exact planAlong (length_of_onlyPath W ha) (length_of_onlyPath W' hb) n r

/-- Requests get no more ports than all their paths have instances. -/
theorem within_planningEnd (W : s.Within h k) :
    (planningEnd d n rs s).Within h (k + 2 * h.modules.length * rs.length) := by
  induction rs generalizing n k s with
  | nil => exact W
  | cons r rs ih =>
    have W' := (Costs.planRequest (d := d) n r).within W
    rw [EStateM.after] at W'
    rw [List.length_cons, Nat.mul_succ, Nat.add_comm (2 * h.modules.length * rs.length),
      ← Nat.add_assoc, planningEnd]
    cases hr : planRequest d n r s with
    | ok _ t =>
      rw [hr] at W'
      exact ih W'
    | error cause t =>
      rw [hr] at W'
      cases cause with
      | failure e => exact ih W'
      | overflow o => exact W'.mono (Nat.le_add_right ..)

/-- A plan overflows only if some module may have as many names as there are words. -/
theorem plan_crowded {t : PathTable} (T : t.Right) (overflow : plan d t rs = .error o) :
    d.Crowded (2 * t.hierarchy.modules.length * rs.length) :=
  ((within_planningEnd (.start T)).crowded (planFrom_full (.start d t) overflow)).mono
    (Nat.zero_add _).le

end Wiring

end AnnotatedCircuit
