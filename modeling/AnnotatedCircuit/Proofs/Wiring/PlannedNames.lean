import AnnotatedCircuit.Proofs.Wiring.PlannedPorts

/-!
# The signatures of planned ports

The ports planned for a module stand in the order of their requests. Each has the type that its
request sends and a name derived from its hint, and no name is one that the module has or another
port gets (`Plan.Tidy`). Whatever planning a request does, also when it fails half way, it keeps
this, and so does planning a list of requests (`plan_tidy`).
-/

namespace AnnotatedCircuit

namespace Design

variable {d : Design} {m : ModuleId} {x : Module} {supply : NameSupply}

theorem used_of_namesIn (h : d.namesIn m = .ok supply) {a : String} :
    a ∈ supply.used ↔ a ∈ d.namesOf m := by
  obtain ⟨x, hx, h⟩ := Checked.bind_eq_ok_iff.mp h
  rw [← Checked.pure_eq_ok_iff.mp h, NameSupply.mem_ofNames, namesOf, module_eq_ok_iff.mp hx]
  rfl

end Design

/-- A port of the type that a request sends, named after its hint. -/
structure PortDecl.Carries (d : Design) (r : WireRequest) (p : PortDecl) : Prop where
  type : ∃ t, d.valueType r.sink = .ok t ∧ p.type = if r.asRef then t.toRef else t
  name : p.name = r.hint ∨ ∃ k, p.name = NameSupply.candidate r.hint k

namespace Wiring

open Design

variable {d : Design} {rs : List WireRequest} {r : WireRequest} {n n' : Nat} {p p' : Plan}
  {m : ModuleId} {s s' : Planning} {hint name : String} {type : SignalType} {direction : Direction}
  {supply supply' : NameSupply} {o : OpId}

/-! ### The invariant -/

/-- What holds of the ports planned for the first requests. -/
structure Plan.Tidy (d : Design) (rs : List WireRequest) (n : Nat) (p : Plan) : Prop where
  ordered : ∀ m, ((p.changesOf m).ports.map PlannedPort.request).Pairwise (· ≤ ·)
  below : ∀ {m q}, q ∈ (p.changesOf m).ports → q.request < n
  carries : ∀ {m q}, q ∈ (p.changesOf m).ports →
    ∃ r, rs[q.request]? = some r ∧ q.port.Carries d r
  distinct : ∀ m, ((p.changesOf m).ports.map (·.port.name)).Nodup
  free : ∀ {m q}, q ∈ (p.changesOf m).ports → q.port.name ∉ d.namesOf m
  reserved : ∀ {m supply}, p.names.find? m = some supply → ∀ {a},
    a ∈ d.namesOf m ∨ a ∈ (p.changesOf m).ports.map (·.port.name) → a ∈ supply.used
  listed : ∀ {m}, p.names.find? m = none → (p.changesOf m).ports = []

namespace Plan.Tidy

theorem empty (d : Design) (rs : List WireRequest) : Plan.empty.Tidy d rs 0 where
  ordered _ := .nil
  below := nofun
  carries := nofun
  distinct _ := .nil
  free := nofun
  reserved := nofun
  listed _ := rfl

theorem mono (T : p.Tidy d rs n) (h : n ≤ n') : p.Tidy d rs n' :=
  { T with below := fun hq => Nat.lt_of_lt_of_le (T.below hq) h }

/-- Endpoints play no role. -/
theorem congr (T : p.Tidy d rs n) (names : p'.names = p.names)
    (ports : ∀ m, (p'.changesOf m).ports = (p.changesOf m).ports) : p'.Tidy d rs n where
  ordered m := ports m ▸ T.ordered m
  below {m _} hq := T.below (ports m ▸ hq)
  carries {m _} hq := T.carries (ports m ▸ hq)
  distinct m := ports m ▸ T.distinct m
  free {m _} hq := T.free (ports m ▸ hq)
  reserved {m _} h _ := ports m ▸ T.reserved (names ▸ h)
  listed {m} h := (ports m).trans (T.listed (names ▸ h))

theorem record (T : p.Tidy d rs n) (m : ModuleId) (k : Nat) (e : Endpoint) :
    (p.modify m (·.record k e)).Tidy d rs n := by
  refine T.congr rfl fun m' => ?_
  rw [Plan.changesOf_modify]
  split
  · subst m'
    exact ModuleChanges.ports_record ..
  · rfl

end Plan.Tidy

/-- The names known in a module: those reserved by the plan, or else those of the design. -/
def Plan.Supplies (d : Design) (p : Plan) (m : ModuleId) (supply : NameSupply) : Prop :=
  p.names.find? m = some supply ∨ p.names.find? m = none ∧ d.namesIn m = .ok supply

theorem Plan.Tidy.used (T : p.Tidy d rs n) (h : p.Supplies d m supply) {a : String}
    (ha : a ∈ d.namesOf m ∨ a ∈ (p.changesOf m).ports.map (·.port.name)) : a ∈ supply.used := by
  rcases h with h | ⟨h, hn⟩
  · exact T.reserved h ha
  · rw [T.listed h] at ha
    exact (used_of_namesIn hn).mpr (ha.resolve_right List.not_mem_nil)

/-! ### One more port -/

theorem Plan.ports_withPort (p : Plan) (m : ModuleId) (supply : NameSupply) (port : PlannedPort)
    (m' : ModuleId) : ((p.withPort m supply port).changesOf m').ports =
      if m = m' then (p.changesOf m).ports ++ [port] else (p.changesOf m').ports := by
  rw [changesOf_withPort]
  split <;> rfl

theorem Plan.mem_ports_withPort {port q : PlannedPort} {m' : ModuleId} :
    q ∈ ((p.withPort m supply port).changesOf m').ports ↔
      q ∈ (p.changesOf m').ports ∨ m = m' ∧ q = port := by
  rw [ports_withPort]
  split
  · subst m'
    simp
  · simp [*]

/-- One more port, for the current request, under a name that was free. -/
theorem Plan.Tidy.withPort {port : PlannedPort} (T : p.Tidy d rs (n + 1))
    (request : port.request = n) (hr : rs[n]? = some r) (carries : port.port.Carries d r)
    (hsupply : p.Supplies d m supply) (unused : port.port.name ∉ supply.used)
    (used : supply'.used = port.port.name :: supply.used) :
    (p.withPort m supply' port).Tidy d rs (n + 1) where
  ordered m' := by
    rw [ports_withPort]
    split
    · rw [List.map_append, List.pairwise_append]
      refine ⟨T.ordered m, List.pairwise_singleton .., fun a ha b hb => ?_⟩
      obtain ⟨q, hq, rfl⟩ := List.mem_map.mp ha
      obtain rfl : b = n := by simpa [request] using hb
      exact Nat.le_of_lt_succ (T.below hq)
    · exact T.ordered m'
  below hq := by
    rcases mem_ports_withPort.mp hq with hq | ⟨-, rfl⟩
    · exact T.below hq
    · exact request ▸ Nat.lt_succ_self n
  carries hq := by
    rcases mem_ports_withPort.mp hq with hq | ⟨-, rfl⟩
    · exact T.carries hq
    · exact ⟨r, request ▸ hr, carries⟩
  distinct m' := by
    rw [ports_withPort]
    split
    · rw [List.map_append, List.nodup_append]
      refine ⟨T.distinct m, List.nodup_singleton _, fun a ha b hb e => unused ?_⟩
      obtain rfl : b = port.port.name := by simpa using hb
      exact T.used hsupply (.inr (e ▸ ha))
    · exact T.distinct m'
  free hq := by
    rcases mem_ports_withPort.mp hq with hq | ⟨rfl, rfl⟩
    · exact T.free hq
    · exact fun h => unused (T.used hsupply (.inl h))
  reserved {m' _} h {a} ha := by
    rw [find?_names_withPort] at h
    split at h
    · subst m'
      obtain rfl := Option.some.inj h
      rw [ports_withPort, if_pos rfl, List.map_append, List.mem_append, ← or_assoc] at ha
      rw [used]
      rcases ha with ha | ha
      · exact List.mem_cons_of_mem _ (T.used hsupply ha)
      · obtain rfl : a = port.port.name := by simpa using ha
        exact List.mem_cons_self
    · rename_i hne
      rw [ports_withPort, if_neg hne] at ha
      exact T.reserved h ha
  listed {m'} h := by
    rw [find?_names_withPort] at h
    split at h
    · cases h
    · rename_i hne
      rw [ports_withPort, if_neg hne]
      exact T.listed h

/-! ### What planning a port can do -/

theorem supplyOf_apply (d : Design) (m : ModuleId) (s : Planning) :
    supplyOf d m s = (match s.plan.names.find? m with
      | some supply => pure supply
      | none => .ofDesign (d.namesIn m) : Attempt Planning NameSupply) s := rfl

theorem supplyOf_cases (d : Design) (m : ModuleId) (s : Planning) :
    (∃ supply, supplyOf d m s = .ok supply s ∧ s.plan.Supplies d m supply) ∨
      ∃ e, supplyOf d m s = .error (.failure e) s := by
  rw [supplyOf_apply]
  cases hm : s.plan.names.find? m with
  | some supply => exact .inl ⟨supply, rfl, .inl hm⟩
  | none =>
    cases hn : d.namesIn m with
    | ok supply => exact .inl ⟨supply, rfl, .inr ⟨hm, hn⟩⟩
    | error e => exact .inr ⟨_, rfl⟩

theorem portName_cases (d : Design) (m : ModuleId) (hint : String) (s : Planning) :
    (∃ supply name supply', s.plan.Supplies d m supply ∧ supply.fresh hint = .ok (name, supply') ∧
      portName d m hint s = .ok name
        { s with plan := { s.plan with names := s.plan.names.insert m supply' } }) ∨
      ∃ e, portName d m hint s = .error e s := by
  rcases supplyOf_cases d m s with ⟨supply, hsupply, known⟩ | ⟨e, hsupply⟩
  · cases hf : supply.fresh hint with
    | ok a =>
      obtain ⟨name, supply'⟩ := a
      refine .inl ⟨supply, name, supply', known, hf, (EStateM.bind_of_ok hsupply).trans ?_⟩
      rw [hf]
      rfl
    | error e =>
      refine .inr ⟨.overflow e, (EStateM.bind_of_ok hsupply).trans ?_⟩
      rw [hf]
      rfl
  · exact .inr ⟨_, EStateM.bind_of_error hsupply⟩

/-- A port is planned under a fresh name for the child of the instance, or nothing is done. -/
theorem planPort_outcome (d : Design) (n : Nat) (hint : String) (type : SignalType)
    (direction : Direction) (o : OpId) (s : Planning) :
    (∃ (site : Site) (supply : NameSupply) (name : String) (supply' : NameSupply),
      s.plan.Supplies d site.child supply ∧
      supply.fresh hint = .ok (name, supply') ∧
      (planPort d n hint type direction o).after s =
        { s with plan := s.plan.withPort site.child supply' ⟨⟨name, type, direction⟩, n⟩ }) ∨
      (planPort d n hint type direction o).after s = s := by
  cases hsite : s.table.hierarchy.site o with
  | error e =>
    have failed : planPort d n hint type direction o s = .error (.failure (.design e)) s := by
      refine (EStateM.bind_of_ok rfl).trans (EStateM.bind_of_error ?_)
      rw [hsite]
      rfl
    exact .inr (by rw [EStateM.after, failed])
  | ok site =>
    have start : planPort d n hint type direction o s = (do
        let name ← portName d site.child hint
        changeModule site.child (·.addPort ⟨⟨name, type, direction⟩, n⟩)) s := by
      refine (EStateM.bind_of_ok rfl).trans (EStateM.bind_of_ok ?_)
      rw [hsite]
      rfl
    rw [EStateM.after, start, ← EStateM.after]
    rcases portName_cases d site.child hint s with ⟨supply, name, supply', known, hf, h⟩ | ⟨e, h⟩
    · refine .inl ⟨site, supply, name, supply', known, hf, ?_⟩
      rw [EStateM.after, EStateM.bind_of_ok h]
      rfl
    · refine .inr ?_
      rw [EStateM.after, EStateM.bind_of_error h]

/-! ### Requests -/

theorem Plan.Tidy.planPorts (T : s.plan.Tidy d rs (n + 1)) (hr : rs[n]? = some r)
    {t : SignalType} (ht : d.valueType r.sink = .ok t) (direction : Direction) (path : InstPath) :
    ((planPorts d n r.hint (if r.asRef then t.toRef else t) direction path).after s).plan.Tidy d rs
      (n + 1) := by
  refine EStateM.after_forM (P := fun s : Planning => s.plan.Tidy d rs (n + 1))
    (fun o s T => ?_) path T
  rcases planPort_outcome d n r.hint (if r.asRef then t.toRef else t) direction o s with
    ⟨site, supply, name, supply', known, fresh, h⟩ | h
  · obtain ⟨unused, used, named⟩ := NameSupply.fresh_ok fresh
    rw [h]
    exact T.withPort rfl hr ⟨⟨t, ht, rfl⟩, named⟩ known unused used
  · rw [h]
    exact T

/-- A question to the design either is answered or ends the planning of the request. -/
theorem after_ofDesign_bind {α β : Type} {question : Except DesignError α}
    {f : α → Attempt Planning β} (T : s.plan.Tidy d rs n')
    (hf : ∀ a, question = .ok a → ((f a).after s).plan.Tidy d rs n') :
    ((Attempt.ofDesign question >>= f).after s).plan.Tidy d rs n' := by
  cases hq : question with
  | ok a => exact hf a hq
  | error e => exact T

/-- Looking for paths changes what is known of them, and no plan. -/
theorem plan_after_onlyPath (d : Design) (n : Nat) (m : ModuleId) (s : Planning) :
    ((onlyPath d n m).after s).plan = s.plan := by
  refine EStateM.after_bind_keeps (P := fun s' : Planning => s'.plan = s.plan) rfl
    fun ps s' hs => ?_
  rcases ps with _ | ⟨p, _ | ⟨q, ps⟩⟩
  · cases d.moduleName m <;> exact hs
  · exact hs
  · cases d.moduleName m <;> exact hs

theorem after_onlyPath_bind {β : Type} {f : InstPath → Attempt Planning β}
    (T : s.plan.Tidy d rs n')
    (hf : ∀ path (s' : Planning), s'.plan.Tidy d rs n' →
      ((f path).after s').plan.Tidy d rs n') :
    ((onlyPath d n m >>= f).after s).plan.Tidy d rs n' := by
  have T' : ((onlyPath d n m).after s).plan.Tidy d rs n' := plan_after_onlyPath d n m s ▸ T
  exact EStateM.after_bind_keeps (P := fun s : Planning => s.plan.Tidy d rs n') T' hf

theorem after_changeModule_bind {β : Type} (m : ModuleId) (f : ModuleChanges → ModuleChanges)
    (g : Unit → Attempt Planning β) (s : Planning) :
    (changeModule m f >>= g).after s = (g ()).after { s with plan := s.plan.modify m f } := rfl

theorem Plan.Tidy.planRequest (T : s.plan.Tidy d rs n) (hr : rs[n]? = some r) :
    ((planRequest d n r).after s).plan.Tidy d rs (n + 1) := by
  have T := T.mono (Nat.le_succ n)
  refine after_ofDesign_bind T fun a _ => after_ofDesign_bind T fun b _ => ?_
  refine after_onlyPath_bind T fun source s T => after_onlyPath_bind T fun sink s T => ?_
  refine after_ofDesign_bind T fun w _ => after_ofDesign_bind T fun t ht => ?_
  have sides := (T.record a n ⟨r.source, .source⟩).record b n ⟨r.sink, .sink⟩
  have outputs := Plan.Tidy.planPorts (s := ⟨s.table, _⟩) sides hr ht .output w.sources
  rw [after_changeModule_bind, after_changeModule_bind]
  exact EStateM.after_bind_keeps (P := fun s : Planning => s.plan.Tidy d rs (n + 1)) outputs
    fun _ _ T => T.planPorts hr ht .input w.sinks

/-- The next request of a list, and those behind it. -/
theorem next_of_drop {rest : List WireRequest} (h : rs.drop n = r :: rest) :
    rs[n]? = some r ∧ rs.drop (n + 1) = rest := by
  constructor
  · rw [← List.head?_drop, h]
    rfl
  · rw [← List.tail_drop, h]
    rfl

/-- What planning one request keeps, planning a list of requests keeps. -/
theorem planFrom_keeps {P : Nat → Planning → Prop}
    (step : ∀ {n : Nat} {r : WireRequest} {s : Planning}, rs[n]? = some r → P n s →
      P (n + 1) ((planRequest d n r).after s))
    {rest : List WireRequest} {errors : List LowerError} (hrest : rs.drop n = rest)
    (h : planFrom d n rest s = .ok (s', errors)) (hs : P n s) : P (n + rest.length) s' := by
  induction rest generalizing n s errors with
  | nil =>
    obtain ⟨rfl, -⟩ := Prod.mk.inj (Except.ok.inj h)
    exact hs
  | cons r rest ih =>
    obtain ⟨hr, hrest'⟩ := next_of_drop hrest
    have hs' := step hr hs
    rw [EStateM.after] at hs'
    rw [List.length_cons, Nat.add_comm rest.length, ← Nat.add_assoc]
    rw [planFrom] at h
    split at h
    · rename_i hp
      rw [hp] at hs'
      exact ih hrest' h hs'
    · rename_i hp
      rw [hp] at hs'
      obtain ⟨⟨s₁, errors'⟩, h₁, h⟩ := Checked.bind_eq_ok_iff.mp h
      obtain ⟨rfl, -⟩ := Prod.mk.inj (Except.ok.inj h)
      exact ih hrest' h₁ hs'
    · cases h

theorem plan_tidy {t : PathTable} {errors : List LowerError} (h : plan d t rs = .ok (s, errors)) :
    s.plan.Tidy d rs rs.length := by
  have T := planFrom_keeps (P := fun n s => s.plan.Tidy d rs n) (fun hr T => T.planRequest hr)
    (List.drop_zero (l := rs)) h (.empty d rs)
  rwa [Nat.zero_add] at T

end Wiring

end AnnotatedCircuit
