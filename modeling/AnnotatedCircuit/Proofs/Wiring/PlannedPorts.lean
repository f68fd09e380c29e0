import AnnotatedCircuit.Proofs.NameSupply
import AnnotatedCircuit.Proofs.Wiring.Courses

/-!
# Planning ports

The names that a plan reserves in a module are no more than the module has names and is going to
get ports (`Plan.Named`). So planning the ports along a trail succeeds, unless one of the modules
has as many names as there are words (`planPorts_cases`).
-/

namespace AnnotatedCircuit

namespace Wiring

open Design

variable {d : Design} {p p' : Plan} {m : ModuleId} {x : Module} {n k : Nat} {s s' : Planning}
  {hint : String} {type : SignalType} {direction : Direction} {site : Site} {sites : List Site}
  {role : Role}

/-- As many names as there are words may be in use in a module. -/
def Plan.Full (d : Design) (p : Plan) (m : ModuleId) : Prop :=
  ∃ x, d.module? m = some x ∧
    Word.limit ≤ x.ports.length + x.body.length + (p.changesOf m).ports.length

/-- The names known in a module are no more than those that it has or gets. -/
structure Plan.Named (d : Design) (p : Plan) : Prop where
  counted : ∀ {m supply}, p.names.find? m = some supply → supply.Counted
  few : ∀ {m supply x}, p.names.find? m = some supply → d.module? m = some x →
    supply.used.length ≤ x.ports.length + x.body.length + (p.changesOf m).ports.length

theorem namesIn_ok (hx : d.module? m = some x) : ∃ supply, d.namesIn m = .ok supply ∧
    supply.Counted ∧ supply.used.length ≤ x.ports.length + x.body.length := by
  obtain ⟨C, hlen⟩ := NameSupply.counted_ofNames
    (x.ports.map (·.name) ++ (d.opsIn m).filterMap (·.kind.name?))
  refine ⟨_, Checked.bind_eq_ok_iff.mpr ⟨x, module_eq_ok_iff.mpr hx, rfl⟩, C, Nat.le_trans hlen ?_⟩
  have hops : (d.opsIn m).length ≤ x.body.length := by
    rw [opsIn, hx]
    exact List.length_filterMap_le ..
  rw [List.length_append, List.length_map]
  exact Nat.add_le_add_left (Nat.le_trans (List.length_filterMap_le ..) hops) _

theorem supplyOf_ok (N : s.plan.Named d) (hx : d.module? m = some x) :
    ∃ supply, supplyOf d m s = .ok supply s ∧ supply.Counted ∧ supply.used.length ≤
      x.ports.length + x.body.length + (s.plan.changesOf m).ports.length := by
  cases hm : s.plan.names.find? m with
  | some supply =>
    refine ⟨supply, (EStateM.bind_of_ok rfl).trans ?_, N.counted hm, N.few hm hx⟩
    rw [hm]
    rfl
  | none =>
    obtain ⟨supply, h, C, hlen⟩ := namesIn_ok hx
    refine ⟨supply, (EStateM.bind_of_ok rfl).trans ?_, C, Nat.le_trans hlen (Nat.le_add_right ..)⟩
    rw [hm, h]
    rfl

/-- A plan with one more name reserved and one more port. -/
def Plan.withPort (p : Plan) (m : ModuleId) (supply : NameSupply) (port : PlannedPort) : Plan :=
  { p with names := p.names.insert m supply }.modify m (·.addPort port)

theorem Plan.changesOf_withPort (p : Plan) (m : ModuleId) (supply : NameSupply) (port : PlannedPort)
    (m' : ModuleId) : (p.withPort m supply port).changesOf m' =
      if m = m' then (p.changesOf m).addPort port else p.changesOf m' :=
  Plan.changesOf_modify { p with names := p.names.insert m supply } m (·.addPort port) m'

theorem Plan.find?_names_withPort (p : Plan) (m : ModuleId) (supply : NameSupply)
    (port : PlannedPort) (m' : ModuleId) : (p.withPort m supply port).names.find? m' =
      if m = m' then some supply else p.names.find? m' :=
  OrderedMap.find?_insert p.names m m' supply

theorem Plan.Named.withPort {supply : NameSupply} (N : p.Named d) (C : supply.Counted)
    (few : ∀ {x}, d.module? m = some x →
      supply.used.length ≤ x.ports.length + x.body.length + (p.changesOf m).ports.length + 1)
    (port : PlannedPort) : (p.withPort m supply port).Named d := by
  refine ⟨fun {m' t} h => ?_, fun {m' t y} h hy => ?_⟩
  · rw [Plan.find?_names_withPort] at h
    split at h
    · exact Option.some.inj h ▸ C
    · exact N.counted h
  · rw [Plan.find?_names_withPort] at h
    rw [Plan.changesOf_withPort]
    split at h
    · subst m'
      rw [if_pos rfl, ← Option.some.inj h]
      simpa [ModuleChanges.addPort, Nat.add_assoc] using few hy
    · rename_i hne
      rw [if_neg hne]
      exact N.few h hy

/-- A port is planned for the module of an instance, unless this has too many names. -/
theorem planPort_cases (N : s.plan.Named d) (P : s.table.hierarchy.Plain)
    (hsite : site ∈ s.table.hierarchy.sites) (hx : d.module? site.child = some x) (n : Nat)
    (hint : String) (type : SignalType) (direction : Direction) :
    (∃ name supply, planPort d n hint type direction site.op s =
        .ok () { s with plan := s.plan.withPort site.child supply ⟨⟨name, type, direction⟩, n⟩ } ∧
      (s.plan.withPort site.child supply ⟨⟨name, type, direction⟩, n⟩).Named d) ∨
    ∃ o s', planPort d n hint type direction site.op s = .error (.overflow o) s' ∧
      s.plan.Full d site.child := by
  have look : (Attempt.ofDesign (s.table.hierarchy.site site.op) : Attempt Planning Site) s =
      .ok site s := by
    rw [P.site_ok hsite]
    rfl
  obtain ⟨supply, hsupply, C, few⟩ := supplyOf_ok N hx
  rcases NameSupply.fresh_cases C hint with
    ⟨name, supply', hfresh, C'⟩ | ⟨o, hfresh, hfull⟩
  · have hname : portName d site.child hint s = .ok name
        { s with plan := { s.plan with names := s.plan.names.insert site.child supply' } } := by
      refine (EStateM.bind_of_ok hsupply).trans ?_
      rw [hfresh]
      rfl
    refine .inl ⟨name, supply', ?_, N.withPort C' (fun hy => ?_) _⟩
    · refine (EStateM.bind_of_ok rfl).trans ((EStateM.bind_of_ok look).trans ?_)
      exact EStateM.bind_of_ok hname
    · rw [hx] at hy
      cases hy
      rw [(NameSupply.fresh_ok hfresh).2.1]
      exact Nat.succ_le_succ few
  · have hname : portName d site.child hint s = .error (.overflow o) s := by
      refine (EStateM.bind_of_ok hsupply).trans ?_
      rw [hfresh]
      rfl
    refine .inr ⟨o, s, ?_, x, hx, Nat.le_trans hfull few⟩
    refine (EStateM.bind_of_ok rfl).trans ((EStateM.bind_of_ok look).trans ?_)
    exact EStateM.bind_of_error hname

/-- A plan with one more port for a request on each of some modules, and no other changes. -/
structure Plan.Grows (n : Nat) (role : Role) (ms : List ModuleId) (p p' : Plan) : Prop where
  changes : ∀ m, ∃ ports, p'.changesOf m = { p.changesOf m with ports }
  roles : ∀ m k, portRoles (p'.changesOf m).ports k =
    portRoles (p.changesOf m).ports k ++ if k = n ∧ m ∈ ms then [role] else []
  other : ∀ m ∉ ms, p'.changesOf m = p.changesOf m

theorem Plan.Grows.nil (n : Nat) (role : Role) (p : Plan) : p.Grows n role [] p where
  changes m := ⟨_, rfl⟩
  roles m k := by simp
  other _ _ := rfl

theorem portRoles_addPort (c : ModuleChanges) (port : PlannedPort) (k : Nat) :
    portRoles (c.addPort port).ports k = portRoles c.ports k ++
      if k = port.request then [Realize.roleOfResult port.port.direction] else [] := by
  rw [portRoles, ModuleChanges.addPort, List.filter_append, List.map_append]
  by_cases h : k = port.request
  · subst h
    simp [portRoles]
  · simp [portRoles, h, Ne.symm h]

theorem Plan.Grows.cons {supply : NameSupply} {port : PlannedPort} {ms : List ModuleId}
    (G : (p.withPort m supply port).Grows n role ms p') (hm : m ∉ ms) (hn : port.request = n)
    (hrole : Realize.roleOfResult port.port.direction = role) : p.Grows n role (m :: ms) p' := by
  refine ⟨fun m' => ?_, fun m' k => ?_, fun m' hm' => ?_⟩
  · obtain ⟨ports, h⟩ := G.changes m'
    rw [h, Plan.changesOf_withPort]
    split
    · subst m'
      exact ⟨ports, rfl⟩
    · exact ⟨ports, rfl⟩
  · rw [G.roles, Plan.changesOf_withPort]
    by_cases h : m = m'
    · subst h
      rw [if_pos rfl, portRoles_addPort, hn, hrole]
      simp [hm]
    · simp [h, Ne.symm h]
  · rw [List.mem_cons, not_or] at hm'
    rw [G.other m' hm'.2, Plan.changesOf_withPort, if_neg (Ne.symm hm'.1)]

/-- Ports are planned along a trail, unless one of its modules has too many names. -/
theorem planPorts_cases (N : s.plan.Named d) (P : s.table.hierarchy.Plain)
    (hsites : ∀ site ∈ sites, site ∈ s.table.hierarchy.sites ∧ ∃ x, d.module? site.child = some x)
    (nodup : (sites.map Site.child).Nodup) (n : Nat) (hint : String) (type : SignalType)
    (direction : Direction) :
    (∃ s', planPorts d n hint type direction (sites.map Site.op) s = .ok () s' ∧
      s'.table = s.table ∧ s'.plan.Named d ∧
      s.plan.Grows n (Realize.roleOfResult direction) (sites.map Site.child) s'.plan) ∨
    ∃ o s', planPorts d n hint type direction (sites.map Site.op) s = .error (.overflow o) s' ∧
      ∃ site ∈ sites, s.plan.Full d site.child := by
  induction sites generalizing s with
  | nil => exact .inl ⟨s, rfl, rfl, N, .nil ..⟩
  | cons site sites ih =>
    obtain ⟨⟨hsite, x, hx⟩, hsites⟩ := List.forall_mem_cons.mp hsites
    obtain ⟨hnot, nodup⟩ := List.nodup_cons.mp nodup
    rcases planPort_cases N P hsite hx n hint type direction with
      ⟨name, supply, h, N'⟩ | ⟨o, s', h, hfull⟩
    · rcases ih (s := { s with
          plan := s.plan.withPort site.child supply ⟨⟨name, type, direction⟩, n⟩ })
        N' P hsites nodup with ⟨s', h', ht, N'', G⟩ | ⟨o, s', h', site', hmem, y, hy, hfull⟩
      · exact .inl ⟨s', (EStateM.bind_of_ok h).trans h', ht, N'', G.cons hnot rfl rfl⟩
      · refine .inr ⟨o, s', (EStateM.bind_of_ok h).trans h', site', List.mem_cons_of_mem _ hmem,
          y, hy, ?_⟩
        have hne : site.child ≠ site'.child := fun e => hnot (e ▸ List.mem_map_of_mem hmem)
        rwa [Plan.changesOf_withPort, if_neg hne] at hfull
    · exact .inr ⟨o, s', EStateM.bind_of_error h, site, List.mem_cons_self, hfull⟩

end Wiring

end AnnotatedCircuit
