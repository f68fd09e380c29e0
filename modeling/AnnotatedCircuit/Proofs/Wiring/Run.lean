import AnnotatedCircuit.Proofs.Wiring.Visit

/-!
# The run of a plan, step by step

A visit takes the changes of a module out of the plan. If there are any, the ports of the module
grow, joining and closing enters operations that declare nothing, and its instances are replaced one
after the other (`Visits`). Whatever all visits keep, carrying out any plan keeps (`realize_runs`).
-/

namespace AnnotatedCircuit.Wiring

open Design

variable {d : Design} {t : PathTable} {h : Hierarchy} {s s' s'' : Realizing} {m : ModuleId}
  {ports : List PlannedPort} {site : Site} {sites : List Site} {op : Op} {types : List SignalType}

namespace Realize

/-- The instances of a list are replaced one after the other. -/
inductive Replaces (ports : List PlannedPort) : List Site → Realizing → Realizing → Prop where
  | nil (s : Realizing) : Replaces ports [] s s
  | cons {site : Site} {sites : List Site} {op : Op} {types : List SignalType}
    {s s' s'' : Realizing} (catching : Catching ports (site :: sites) s)
    (first : Reissuing ports site op types s s') (rest : Replaces ports sites s' s'') :
    Replaces ports (site :: sites) s s''

theorem forM_reissue_replaces (C : Catching ports sites s) :
    ∃ s', (sites.forM fun site => recorded (reissue ports site)) s = .ok () s' ∧
      Replaces ports sites s s' := by
  obtain ⟨s', h, -, hall⟩ := forM_reissue_ok
    (Q := fun rest s' => ∀ s'', Replaces ports rest s' s'' → Replaces ports sites s s'')
    (fun C R hQ s'' hrest => hQ s'' (.cons C R hrest)) C fun _ => id
  exact ⟨s', h, hall s' (.nil s')⟩

/-- The instances to be replaced when a module gets ports: all of them, or none without ports. -/
def replacedSites (s : Realizing) (m : ModuleId) (ports : List PlannedPort) : List Site :=
  if ports = [] then [] else s.table.hierarchy.uses m

/-- What the visit of a module does. -/
inductive Visits (m : ModuleId) (s : Realizing) : Realizing → Prop where
  | nothing (empty : (s.plan.changesOf m).isEmpty = true) : Visits m s (withoutChanges s m)
  | work {x : Module} {s₁ s₂ : Realizing} (found : s.design.module? m = some x)
    (filled : (grown (withoutChanges s m) m x (s.plan.changesOf m).ports).Filled s₁)
    (replaced : Replaces (s.plan.changesOf m).ports
      (replacedSites s₁ m (s.plan.changesOf m).ports) s₁ s₂)
    (joined : (joinPorts m (s.plan.changesOf m) >>= fun _ => closeAll m (s.plan.changesOf m))
      (withoutChanges s m) = .ok () s₁) : Visits m s s₂

theorem reissueAll_replaces (S : s.Sound fun o =>
    if o ∈ (s.table.hierarchy.uses m).map Site.op then ports.length else 0) :
    ∃ s', reissueAll m ports s = .ok () s' ∧ Replaces ports (replacedSites s m ports) s s' := by
  cases ports with
  | nil => exact ⟨s, rfl, .nil s⟩
  | cons p ports => exact forM_reissue_replaces (Catching.start S)

theorem Steady.visits {x : Module} (T : Steady h s) (hx : s.design.module? m = some x) :
    ∃ s', visit m s = .ok () s' ∧ Visits m s s' := by
  rw [visit_eq]
  split
  · exact ⟨_, rfl, .nothing ‹_›⟩
  · have T' : Steady h (withoutChanges s m) := T.congr rfl rfl
    obtain ⟨s₁, h₁, F₁⟩ :=
      joinPorts_ok (s := withoutChanges s m) hx (s.plan.changesOf m)
    obtain ⟨s₂, h₂, F₂⟩ := closeAll_ok m (s.plan.changesOf m) s₁
    have F := F₁.trans F₂
    have ht : s₂.table = s.table := F.table
    obtain ⟨s₃, h₃, R⟩ := reissueAll_replaces (s := s₂) (m := m)
      (ht ▸ F.sound (sound_grown T'.sound hx (s.plan.changesOf m).ports))
    have hall : realizeModule m (s.plan.changesOf m) (withoutChanges s m) = .ok () s₃ :=
      (EStateM.bind_of_ok h₁).trans ((EStateM.bind_of_ok h₂).trans h₃)
    exact ⟨s₃, recorded_of_ok hall, .work hx F R ((EStateM.bind_of_ok h₁).trans h₂)⟩

/-- The modules stay those of the design at the start. -/
theorem Steady.known (T : Steady d.hierarchy s) (H : d.Coherent) :
    (∃ x, s.design.module? m = some x) ↔ ∃ x, d.module? m = some x := by
  rw [← mem_ids_hierarchy T.sound.design.coherent, ← T.sound.hierarchy, T.alike.ids,
    mem_ids_hierarchy H]

end Realize

open Realize in
/-- What the visits of the modules keep, each with those of its children before it, carrying out a
plan keeps. The visits run one after the other. -/
theorem realize_runs {Q : List ModuleId → Realizing → Prop} (S : d.Sound fun _ => 0)
    (ht : t.hierarchy = d.hierarchy) (T : t.Right) (plan : Plan)
    (start : Q [] ⟨d, t, plan, .empty, {}, []⟩)
    (step : ∀ {done m rest s s'}, done ++ m :: rest = d.hierarchy.childrenFirst →
      Steady d.hierarchy s → done.forM visit ⟨d, t, plan, .empty, {}, []⟩ = .ok () s →
      visit m s = .ok () s' → Visits m s s' → Q done s → Q (done ++ [m]) s') :
    Q d.hierarchy.childrenFirst (realize d t plan) := by
  have C := closed_hierarchy S.coherent (Fits.childrenKnown S.fits)
  obtain ⟨s, h, done, hdone, -, -, hQ⟩ := EStateM.forM_of_ok (f := visit)
    (l := d.hierarchy.childrenFirst) (s := ⟨d, t, plan, .empty, {}, []⟩)
    (P := fun rest s => ∃ done, done ++ rest = d.hierarchy.childrenFirst ∧
      Steady d.hierarchy s ∧ done.forM visit ⟨d, t, plan, .empty, {}, []⟩ = .ok () s ∧ Q done s)
    (fun m rest s ⟨done, hdone, T, before, hQ⟩ => by
      have hm : m ∈ d.hierarchy.childrenFirst :=
        hdone ▸ List.mem_append_right _ List.mem_cons_self
      obtain ⟨x, hx⟩ := (T.known S.coherent).mpr
        ((mem_ids_hierarchy S.coherent).mp ((Hierarchy.mem_childrenFirst C).mp hm))
      obtain ⟨s', h, V⟩ := T.visits hx
      obtain ⟨s'', h', T'⟩ := visit_steady T m
      obtain rfl := (EStateM.Result.ok.inj (h.symm.trans h')).2
      refine ⟨s', h, done ++ [m], by simpa using hdone, T', ?_, step hdone T before h V hQ⟩
      rw [List.forM_eq_forM] at before ⊢
      rw [List.forM_append, EStateM.bind_of_ok before]
      exact EStateM.bind_of_ok h)
    ⟨[], rfl, ⟨⟨S, ht, T⟩, ht ▸ .refl _⟩, rfl, start⟩
  rw [List.append_nil] at hdone
  rw [realize, ht, h]
  exact hdone ▸ hQ

open Realize in
theorem realize_keeps {Q : List ModuleId → Realizing → Prop} (S : d.Sound fun _ => 0)
    (ht : t.hierarchy = d.hierarchy) (T : t.Right) (plan : Plan)
    (start : Q [] ⟨d, t, plan, .empty, {}, []⟩)
    (step : ∀ {done m rest s s'}, done ++ m :: rest = d.hierarchy.childrenFirst →
      Steady d.hierarchy s → Visits m s s' → Q done s → Q (done ++ [m]) s') :
    Q d.hierarchy.childrenFirst (realize d t plan) :=
  realize_runs S ht T plan start fun hdone T _ _ V => step hdone T V

end AnnotatedCircuit.Wiring
