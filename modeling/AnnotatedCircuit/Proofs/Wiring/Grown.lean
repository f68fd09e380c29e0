import AnnotatedCircuit.Proofs.Design.Mirrors
import AnnotatedCircuit.Proofs.Wiring.Run

/-!
# The ports that carrying out a plan adds

Carrying out a plan adds the ports planned for the modules behind those that they have, and no
others, and the instances of every module get results of the same types (`Grown`).
-/

namespace AnnotatedCircuit.Wiring

open Design

variable {d : Design} {p : Plan} {m : ModuleId} {done : List ModuleId}

namespace Realize

variable {s s' s'' : Realizing} {ports : List PlannedPort} {sites : List Site} {site : Site}
  {op : Op} {types : List SignalType}

theorem Reissuing.ports_changesOf (R : Reissuing ports site op types s s') (m : ModuleId) :
    (s'.plan.changesOf m).ports = (s.plan.changesOf m).ports := by
  rw [R.plan, Plan.changesOf_modify]
  split
  · subst m
    exact ports_recordResults ..
  · rfl

theorem Replaces.ports_changesOf (R : Replaces ports sites s s') (m : ModuleId) :
    (s'.plan.changesOf m).ports = (s.plan.changesOf m).ports := by
  induction R with
  | nil => rfl
  | cons _ first _ ih => exact ih.trans (first.ports_changesOf m)

theorem Replaces.portsOf (R : Replaces ports sites s s') (m : ModuleId) :
    s'.design.portsOf m = s.design.portsOf m := by
  induction R with
  | nil => rfl
  | cons _ first _ ih => exact ih.trans (first.design.portsOf m)

/-- The instances of a module that has got ports catch up. -/
theorem Replaces.mirrored {base added : List Port} (R : Replaces ports sites s s')
    (M : d.Mirrored s.design) (hsites : ∀ site ∈ sites, site.child = m)
    (hm : s.design.portsOf m = some (base ++ added))
    (hadded : added.map Port.toPortDecl = ports.map (·.port)) : d.Mirrored s'.design := by
  induction R with
  | nil => exact M
  | @cons site sites op types s s' s'' catching first _ ih =>
    obtain ⟨rfl, hsites⟩ := List.forall_mem_cons.mp hsites
    have hlen : added.length = ports.length := by simpa using congrArg List.length hadded
    have lag := Fits.length_eq catching.sound.design.fits first.live first.child hm
    rw [List.map_cons, if_pos List.mem_cons_self, List.length_append, hlen] at lag
    obtain ⟨ts, htypes, hts⟩ := first.typed
    have htypes : types = ts ++ added.map (·.type) := by
      have := congrArg (List.map PortDecl.type) hadded
      simp only [List.map_map] at this
      exact htypes.trans (congrArg (ts ++ ·) this.symm)
    refine ih (M.reissued first.design first.live first.child hm ?_ htypes hts) hsites
      ((first.design.portsOf _).trans hm)
    exact Nat.add_right_cancel lag

/-- The planned ports of the modules that were visited stand behind the old ones, and instances
mirror them. -/
structure Grown (d : Design) (p : Plan) (done : List ModuleId) (s : Realizing) : Prop where
  ports : ∀ {m old}, d.portsOf m = some old → ∃ added, s.design.portsOf m = some (old ++ added) ∧
    added.map Port.toPortDecl = if m ∈ done then (p.changesOf m).ports.map (·.port) else []
  planned : ∀ {m}, m ∉ done → (s.plan.changesOf m).ports = (p.changesOf m).ports
  mirrored : d.Mirrored s.design

theorem Grown.start {t : PathTable} (F : d.Fits fun _ => 0) (p : Plan) :
    Grown d p [] ⟨d, t, p, .empty, {}, []⟩ where
  ports {_ old} h := ⟨[], by rw [List.append_nil]; exact h, rfl⟩
  planned _ := rfl
  mirrored := F.mirrored

/-- A visit without changes. -/
theorem Grown.nothing (G : Grown d p done s) (hm : m ∉ done)
    (none : (s.plan.changesOf m).ports = []) : Grown d p (done ++ [m]) (withoutChanges s m) where
  ports {m' old} h := by
    obtain ⟨added, hs, hadded⟩ := G.ports h
    refine ⟨added, hs, hadded.trans ?_⟩
    by_cases e : m' = m
    · subst e
      rw [if_neg hm, if_pos (by simp), ← G.planned hm, none]
      rfl
    · simp [e]
  planned {m'} h := by
    rw [List.mem_append, not_or, List.mem_singleton] at h
    rw [withoutChanges, Plan.changesOf_erase, if_neg (Ne.symm h.2)]
    exact G.planned h.1
  mirrored := G.mirrored

theorem Grown.work {x : Module} {s₁ s₂ : Realizing} (G : Grown d p done s) (S : s.Sound fun _ => 0)
    (hm : m ∉ done) (found : s.design.module? m = some x)
    (filled : (grown (withoutChanges s m) m x (s.plan.changesOf m).ports).Filled s₁)
    (replaced : Replaces (s.plan.changesOf m).ports
      (replacedSites s₁ m (s.plan.changesOf m).ports) s₁ s₂) : Grown d p (done ++ [m]) s₂ := by
  generalize hports : (s.plan.changesOf m).ports = ports at filled replaced
  have grow : ∀ m', s₁.design.portsOf m' = (s.design.portsOf m').map fun ps =>
      if m' = m then ps ++ s.design.nextPorts (ports.map (·.port)) else ps := fun m' =>
    (filled.design.portsOf m').trans (portsOf_enterPorts ..)
  have hx : s.design.portsOf m = some x.ports := by rw [Design.portsOf, found, Option.map_some]
  refine ⟨fun {m' old} h => ?_, fun {m'} h => ?_, ?_⟩
  · obtain ⟨added, hs, hadded⟩ := G.ports h
    rw [replaced.portsOf, grow, hs, Option.map_some]
    by_cases e : m' = m
    · subst e
      rw [if_neg hm] at hadded
      rw [List.map_eq_nil_iff.mp hadded, List.append_nil, if_pos rfl, if_pos (by simp),
        ← G.planned hm, hports]
      exact ⟨_, rfl, map_nextPorts ..⟩
    · exact ⟨added, by rw [if_neg e], by simpa [e] using hadded⟩
  · rw [List.mem_append, not_or, List.mem_singleton] at h
    rw [replaced.ports_changesOf, filled.plan]
    refine Eq.trans ?_ (G.planned h.1)
    simp only [grown, withoutChanges, Plan.changesOf_erase, if_neg (Ne.symm h.2)]
  · have F : (s.design.enterPorts m x.ports.length (ports.map (·.port))).Filled s₁.design :=
      filled.design
    have M := (G.mirrored.enterPorts S.design.fits m x.ports.length _).filled F
    have now : s₁.design.portsOf m = some (x.ports ++ s.design.nextPorts (ports.map (·.port))) :=
      (grow m).trans (by rw [hx, Option.map_some, if_pos rfl])
    refine replaced.mirrored M (fun site hs => ?_) now (map_nextPorts ..)
    unfold replacedSites at hs
    split at hs
    · cases hs
    · exact (Hierarchy.mem_uses_iff.mp hs).2

theorem Grown.visit (G : Grown d p done s) (S : s.Sound fun _ => 0) (hm : m ∉ done)
    (V : Visits m s s') : Grown d p (done ++ [m]) s' := by
  cases V with
  | nothing empty => exact G.nothing hm (nothing_of_isEmpty empty).1
  | work found filled replaced => exact G.work S hm found filled replaced

end Realize

/-- Carrying out a plan adds the planned ports behind the old ones, and no others. -/
theorem realize_grown {t : PathTable} (S : d.Sound fun _ => 0) (ht : t.hierarchy = d.hierarchy)
    (T : t.Right) (p : Plan) : Realize.Grown d p d.hierarchy.childrenFirst (realize d t p) := by
  obtain ⟨rank, R⟩ := T.ranked
  have C := closed_hierarchy S.coherent (Fits.childrenKnown S.fits)
  refine realize_keeps S ht T p (.start S.fits p) fun hdone T V G => ?_
  exact G.visit T.sound (Hierarchy.childrenFirst_split C (ht ▸ R) hdone).1 V

end AnnotatedCircuit.Wiring
