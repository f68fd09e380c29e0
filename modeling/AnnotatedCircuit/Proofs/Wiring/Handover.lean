import AnnotatedCircuit.Proofs.Wiring.Run

/-!
# Handing over to modules that are still to come

When an instance is replaced, its results for the new ports are recorded for the module around it.
A walk of the modules is written down as what it does: for each visit the replacements that it
makes (`StopsAt`), each with the endpoints that it records (`Hands`). At any time of the walk the
endpoints that were recorded wait for their module, what was replaced is gone, and the renames lead
every value away from it (`HandedOn`). Since the modules are visited children first, all that is
recorded is met by a later visit (`handover_complete`).
-/

namespace AnnotatedCircuit

/-- Steps for the members of a list, one after the other. -/
inductive InTurn {α σ : Type} (step : α → σ → σ → Prop) : List α → σ → σ → Prop where
  | nil (s : σ) : InTurn step [] s s
  | cons {a : α} {l : List α} {s s' s'' : σ} (first : step a s s')
    (rest : InTurn step l s' s'') : InTurn step (a :: l) s s''

theorem InTurn.append {α σ : Type} {step : α → σ → σ → Prop} {l l' : List α} {s s' s'' : σ}
    (C : InTurn step l s s') (C' : InTurn step l' s' s'') : InTurn step (l ++ l') s s'' := by
  induction C with
  | nil => exact C'
  | cons first _ ih => exact .cons first (ih C')

theorem InTurn.concat {α σ : Type} {step : α → σ → σ → Prop} {l : List α} {a : α} {s s' s'' : σ}
    (C : InTurn step l s s') (last : step a s' s'') : InTurn step (l ++ [a]) s s'' :=
  C.append (.cons last (.nil s''))

namespace Wiring.Realize

open Design

variable {d : Design} {h : Hierarchy} {s s' s'' : Realizing} {m : ModuleId} {c : ModuleChanges}
  {ports : List PlannedPort} {site : Site} {sites : List Site} {op : Op} {types : List SignalType}
  {renames renames' : OrderedMap ValueId ValueId} {u v w : ValueId} {lag : OpId → Nat}
  {done rest : List ModuleId}

/-! ### Looking up renames -/

/-- Renames are looked up, one after the other, until none applies. -/
inductive EndsIn (renames : OrderedMap ValueId ValueId) : ValueId → ValueId → Prop where
  | stop {v : ValueId} (absent : renames.find? v = none) : EndsIn renames v v
  | step {v w u : ValueId} (found : renames.find? v = some w) (rest : EndsIn renames w u) :
    EndsIn renames v u

theorem EndsIn.not_mem (L : EndsIn renames v u) : u ∉ renames.keys := by
  induction L with
  | stop absent =>
    rw [← OrderedMap.contains_iff, OrderedMap.contains, absent]
    simp
  | step _ _ ih => exact ih

/-- Look-ups go on where they stopped when there are more renames. -/
theorem EndsIn.trans (L : EndsIn renames v u)
    (more : ∀ {k w}, renames.find? k = some w → renames'.find? k = some w)
    (L' : EndsIn renames' u w) : EndsIn renames' v w := by
  induction L with
  | stop => exact L'
  | step found _ ih => exact .step (more found) (ih L')

/-! ### The record of a walk -/

/-- The replacement of an instance of a module that got ports. -/
structure Handover where
  site : Site
  ports : List PlannedPort
  /-- The instance as it was. -/
  removed : Op
  copy : Op

namespace Handover

/-- The endpoints recorded for the module around, with their requests. -/
def ends (e : Handover) : List (Nat × Endpoint) :=
  (e.ports.zip (e.copy.results.drop e.removed.results.length)).map fun r =>
    (r.1.request, resultEnd r)

theorem recordResults_eq (e : Handover) (c : ModuleChanges) :
    recordResults c e.ports (e.copy.results.drop e.removed.results.length) =
      e.ends.foldl (fun c r => c.record r.1 r.2) c := by
  rw [ends, List.foldl_map]
  rfl

/-- What was recorded stays, and every endpoint is there. -/
theorem mem_ends_foldl (e : Handover) (c : ModuleChanges) {r : Nat × Endpoint}
    (hr : r ∈ e.ends ∨ r.2 ∈ c.ends r.1) :
    r.2 ∈ (e.ends.foldl (fun c r => c.record r.1 r.2) c).ends r.1 := by
  rw [← recordResults_eq, (ends_recordResults ..).mem_iff, List.mem_append]
  refine hr.imp_left fun hr => ?_
  obtain ⟨q, hq, rfl⟩ := List.mem_map.mp hr
  exact List.mem_map_of_mem (List.mem_filter.mpr ⟨hq, by simp⟩)

end Handover

/-- An instance is replaced, and the results of the copy for the new ports are recorded: one
endpoint for the request of each port. -/
structure Hands (e : Handover) (s s' : Realizing) : Prop where
  run : reissue e.ports e.site s = .ok () s'
  removed : s.design.op? e.site.op = some e.removed
  copy : s'.design.op? s.design.nextOp = some e.copy
  plan : s'.plan = s.plan.modify e.site.parent fun c =>
    e.ends.foldl (fun c r => c.record r.1 r.2) c
  all : e.ends.map Prod.fst = e.ports.map (·.request)

/-- The visit of a module, and the replacements that it makes. -/
structure Station where
  module : ModuleId
  handovers : List Handover

/-- The changes of a module are taken out of the plan. If there are any, the module gets its ports
and is connected, and then its instances are replaced, none of which fails. -/
inductive Rewrites (m : ModuleId) (s : Realizing) : List Handover → Realizing → Prop where
  | idle (empty : (s.plan.changesOf m).isEmpty = true) : Rewrites m s [] (withoutChanges s m)
  | work {es : List Handover} {s₁ s' : Realizing} (busy : (s.plan.changesOf m).isEmpty = false)
    (joined : (joinPorts m (s.plan.changesOf m) >>= fun _ => closeAll m (s.plan.changesOf m))
      (withoutChanges s m) = .ok () s₁)
    (sites : es.map Handover.site = replacedSites s₁ m (s.plan.changesOf m).ports)
    (ports : ∀ e ∈ es, e.ports = (s.plan.changesOf m).ports)
    (hands : InTurn Hands es s₁ s') : Rewrites m s es s'

structure StopsAt (k : Station) (s s' : Realizing) : Prop where
  run : visit k.module s = .ok () s'
  rewrites : Rewrites k.module s k.handovers s'

/-- All replacements of a walk. -/
def handovers (log : List Station) : List Handover := log.flatMap Station.handovers

/-! ### What holds during a walk -/

/-- The modules of `done` were visited, and the replacements of `es` were made. -/
structure HandedOn (d : Design) (done : List ModuleId) (es : List Handover) (s : Realizing) :
    Prop where
  once : (es.map fun e => e.site.op).Nodup
  gone : ∀ e ∈ es, e.site.op.index < s.design.ops.length ∧ s.design.op? e.site.op = none
  taken : ∀ m ∈ done, s.plan.changes.find? m = none
  waiting : ∀ e ∈ es, e.site.parent ∉ done → ∀ r ∈ e.ends,
    r.2 ∈ (s.plan.changesOf e.site.parent).ends r.1
  renamed : ∀ e ∈ es, ∀ v ∈ e.removed.results, v ∈ s.renames.keys
  leads : ∀ v, EndsIn s.renames v (follow s.renames v)
  kept : Kept d s

variable {es : List Handover}

theorem HandedOn.start (H : d.Coherent) (t : PathTable) (p : Plan) :
    HandedOn d [] [] ⟨d, t, p, .empty, {}, []⟩ where
  once := .nil
  gone := nofun
  taken := nofun
  waiting := nofun
  renamed := nofun
  leads _ := .stop rfl
  kept := ⟨nofun, .refl H, id⟩

/-- The changes of one more module are taken out. -/
theorem HandedOn.begin (I : HandedOn d done es s) (m : ModuleId) :
    HandedOn d (done ++ [m]) es (withoutChanges s m) where
  once := I.once
  gone := I.gone
  taken k hk := by
    rw [withoutChanges, OrderedMap.find?_erase]
    split
    · rfl
    · rename_i hne
      refine I.taken k ((List.mem_append.mp hk).resolve_right fun hm => hne ?_)
      exact (List.mem_singleton.mp hm).symm
  waiting e he hp r hr := by
    rw [List.mem_append, not_or, List.mem_singleton] at hp
    rw [withoutChanges, Plan.changesOf_erase, if_neg (Ne.symm hp.2)]
    exact I.waiting e he hp.1 r hr
  renamed := I.renamed
  leads := I.leads
  kept := ⟨I.kept.dead, I.kept.traced, I.kept.ports⟩

theorem HandedOn.grown {x : Module} (I : HandedOn d done es s) (H : s.design.Coherent)
    (F : (Realize.grown s m x ports).Filled s') : HandedOn d done es s' where
  once := I.once
  gone e he := by
    obtain ⟨hlt, hnone⟩ := I.gone e he
    exact (Extends.trans (extends_enterPorts ..) F.design.extension).gone hlt hnone
  taken k hk := F.plan ▸ I.taken k hk
  waiting e he hp r hr := F.plan ▸ I.waiting e he hp r hr
  renamed e he v hv := F.renames ▸ I.renamed e he v hv
  leads v := F.renames ▸ I.leads v
  kept := I.kept.grown H F

/-- The replacement of an instance, as it is written down. -/
def Reissuing.handover (_ : Reissuing ports site op types s s') : Handover :=
  ⟨site, ports, op, ⟨s.design.nextOp, op.parent, op.kind, s.design.nextValues types⟩⟩

theorem Reissuing.hands (R : Reissuing ports site op types s s')
    (run : reissue ports site s = .ok () s') : Hands R.handover s s' where
  run := run
  removed := R.live
  copy := R.design.op_copy
  plan := by
    rw [R.plan]
    exact congrArg (s.plan.modify site.parent) (funext R.handover.recordResults_eq)
  all := by
    have zipped : (ports.zip ((s.design.nextValues types).drop op.results.length)).map Prod.fst =
        ports := List.map_fst_zip (by simp [R.length])
    calc R.handover.ends.map Prod.fst
      _ = (ports.zip ((s.design.nextValues types).drop op.results.length)).map (·.1.request) :=
        List.map_map ..
      _ = ((ports.zip ((s.design.nextValues types).drop op.results.length)).map Prod.fst).map
          (·.request) := (List.map_map ..).symm
      _ = ports.map (·.request) := by rw [zipped]

section

variable (R : Reissuing ports site op types s s') (S : s.design.Sound lag)
include R S

/-- A value that renames led to is looked up once more, and replaced if it is a result of the
instance. -/
theorem Reissuing.leads (K : Kept d s) (L : ∀ v, EndsIn s.renames v (follow s.renames v))
    (v : ValueId) : EndsIn s'.renames v (follow s'.renames v) := by
  have le : op.results.length ≤ types.length := R.length ▸ Nat.le_add_right ..
  have entries := R.entries S K
  have find : ∀ k, s'.renames.find? k =
      (s.renames.find? k).or (OrderedMap.lookup k (s.design.resultPairs op types)) := by
    intro k
    rw [OrderedMap.find?, entries, OrderedMap.lookup_append]
    rfl
  have keys : s'.renames.keys = s.renames.keys ++ op.results := by
    rw [OrderedMap.keys, entries, List.map_append, map_fst_resultPairs le]
    rfl
  refine (L v).trans (fun {k w} hk => by rw [find, hk]; rfl) ?_
  rw [(R.moves S K).follow v]
  have last := (L v).not_mem
  generalize follow s.renames v = u at last
  by_cases hu : u ∈ op.results
  · obtain ⟨i, hi⟩ := List.mem_iff_getElem?.mp hu
    have lt := (List.getElem?_eq_some_iff.mp hi).1
    have hw : (⟨s.design.values.length + i⟩ : ValueId) ∈ s.design.nextValues types :=
      List.mem_of_getElem? (getElem?_nextValues.mpr ⟨Nat.lt_of_lt_of_le lt le, rfl⟩)
    have pair : (u, ⟨s.design.values.length + i⟩) ∈ s.design.resultPairs op types := by
      refine List.mem_of_getElem? (i := i) ?_
      rw [resultPairs, List.getElem?_zip_eq_some]
      exact ⟨hi, getElem?_nextValues.mpr ⟨Nat.lt_of_lt_of_le lt le, rfl⟩⟩
    rw [resultRenaming_result S.coherent R.live le hi]
    refine .step (OrderedMap.find?_of_mem (entries ▸ List.mem_append_right _ pair)) (.stop ?_)
    -- the new result is no key: a key is a result that was there before
    refine OrderedMap.find?_eq_none fun hk => ?_
    rw [keys, List.mem_append] at hk
    rcases hk with hk | hk
    · obtain ⟨t, o, j, hv, -⟩ := K.dead _ hk
      exact nextValues_fresh hv types hw
    · exact not_mem_results_of_next S.coherent R.live hw hk
  · rw [resultRenaming_of_not_mem le hu]
    refine .stop (OrderedMap.find?_eq_none ?_)
    rw [keys, List.mem_append, not_or]
    exact ⟨last, hu⟩

theorem HandedOn.handed (I : HandedOn d done es s) (hp : site.parent ∉ done) :
    HandedOn d done (es ++ [R.handover]) s' where
  once := by
    rw [List.map_append, List.nodup_append]
    refine ⟨I.once, List.nodup_singleton _, ?_⟩
    intro o ho o' ho' e
    obtain ⟨f, hf, rfl⟩ := List.mem_map.mp ho
    obtain rfl : o' = site.op := List.mem_singleton.mp ho'
    cases R.live.symm.trans (e ▸ (I.gone f hf).2)
  gone e he := by
    rcases List.mem_append.mp he with he | he
    · obtain ⟨hlt, hnone⟩ := I.gone e he
      rw [R.design.length, R.design.op, if_neg (ne_nextOp_of_lt hlt), hnone]
      exact ⟨Nat.lt_succ_of_lt hlt, ite_self _⟩
    · obtain rfl := List.mem_singleton.mp he
      refine ⟨?_, ?_⟩
      · rw [R.design.length]
        exact Nat.lt_succ_of_lt (op?_lt R.live)
      · change s'.design.op? site.op = none
        rw [R.design.op, if_neg (ne_nextOp R.live), if_pos rfl]
  taken k hk := by
    have hne : site.parent ≠ k := fun e => hp (e ▸ hk)
    rw [R.plan, Plan.modify, OrderedMap.find?_update, if_neg hne]
    exact I.taken k hk
  waiting e he hk r hr := by
    rw [R.plan, Plan.changesOf_modify]
    have keep : ∀ k, r.2 ∈ (s.plan.changesOf k).ends r.1 ∨ k = site.parent ∧ r ∈ R.handover.ends →
        r.2 ∈ (if site.parent = k then recordResults (s.plan.changesOf site.parent) ports
          ((s.design.nextValues types).drop op.results.length) else s.plan.changesOf k).ends r.1 := by
      intro k hr
      split
      · rename_i hk
        subst hk
        exact (R.handover.recordResults_eq _) ▸
          R.handover.mem_ends_foldl _ (hr.symm.imp_left And.right)
      · rename_i hk
        exact hr.resolve_right fun hr => hk hr.1.symm
    rcases List.mem_append.mp he with he | he
    · exact keep _ (.inl (I.waiting e he hk r hr))
    · obtain rfl := List.mem_singleton.mp he
      exact keep _ (.inr ⟨rfl, hr⟩)
  renamed e he v hv := by
    rw [OrderedMap.keys, R.entries S I.kept, List.map_append,
      map_fst_resultPairs (R.length ▸ Nat.le_add_right ..), List.mem_append]
    rcases List.mem_append.mp he with he | he
    · exact .inl (I.renamed e he v hv)
    · obtain rfl := List.mem_singleton.mp he
      exact .inr hv
  leads := R.leads S I.kept I.leads
  kept := R.kept S I.kept

end

/-- The instances of a list are replaced one after the other, and none fails. -/
theorem Catching.handed (C : Catching ports sites s) (I : HandedOn d done es s)
    (hp : ∀ site ∈ sites, site.parent ∉ done) :
    ∃ s' es', (sites.forM fun site => recorded (reissue ports site)) s = .ok () s' ∧
      es'.map Handover.site = sites ∧ (∀ e ∈ es', e.ports = ports) ∧ InTurn Hands es' s s' ∧
      HandedOn d done (es ++ es') s' := by
  obtain ⟨s', run, es', hsites, hports, chain, -, I'⟩ := EStateM.forM_of_ok
    (f := fun site => recorded (reissue ports site)) (l := sites) (s := s)
    (P := fun rest s' => ∃ es' : List Handover, es'.map Handover.site ++ rest = sites ∧
      (∀ e ∈ es', e.ports = ports) ∧ InTurn Hands es' s s' ∧ Catching ports rest s' ∧
      HandedOn d done (es ++ es') s')
    (fun site rest s' ⟨es', hsites, hports, chain, C, I⟩ => by
      obtain ⟨op, types, s'', run, R⟩ := reissue_ok C.sound (C.live site List.mem_cons_self) ports
      refine ⟨s'', recorded_of_ok run, es' ++ [R.handover], ?_, ?_, chain.concat (R.hands run),
        C.step R, ?_⟩
      · rw [← hsites, List.map_append, List.append_assoc]
        rfl
      · intro e he
        rcases List.mem_append.mp he with he | he
        · exact hports e he
        · obtain rfl := List.mem_singleton.mp he
          rfl
      · rw [← List.append_assoc]
        exact I.handed R C.sound.design
          (hp site (hsites ▸ List.mem_append_right _ List.mem_cons_self)))
    ⟨[], rfl, nofun, .nil s, C, (List.append_nil es).symm ▸ I⟩
  exact ⟨s', es', run, by rwa [List.append_nil] at hsites, hports, chain, I'⟩

theorem reissueAll_handed (S : s.Sound fun o =>
      if o ∈ (s.table.hierarchy.uses m).map Site.op then ports.length else 0)
    (I : HandedOn d done es s) (hp : ∀ site ∈ replacedSites s m ports, site.parent ∉ done) :
    ∃ s' es', reissueAll m ports s = .ok () s' ∧
      es'.map Handover.site = replacedSites s m ports ∧ (∀ e ∈ es', e.ports = ports) ∧
      InTurn Hands es' s s' ∧ HandedOn d done (es ++ es') s' := by
  cases ports with
  | nil => exact ⟨s, [], rfl, rfl, nofun, .nil s, (List.append_nil es).symm ▸ I⟩
  | cons p ports => exact (Catching.start S).handed I hp

/-! ### A visit -/

/-- A module around an instance of the visited module was not visited, and will be. -/
theorem parent_mem_rest {rank : ModuleId → Nat} (C : h.Closed) (R : h.Ranked rank)
    (split : done ++ m :: rest = h.childrenFirst) {p : ModuleId} (hm : m ∈ h.children p) :
    p ∉ done ++ [m] ∧ p ∈ rest := by
  have hnot := (Hierarchy.childrenFirst_split C R split).1
  have before : p ∉ done ++ [m] := by
    intro hmem
    obtain ⟨pre, post, e⟩ := List.append_of_mem hmem
    have split' : pre ++ p :: (post ++ rest) = h.childrenFirst := by
      rw [← split, ← List.cons_append, ← List.append_assoc, ← e, List.append_assoc,
        List.singleton_append]
    -- the module would be listed before this one, and so before itself
    have hpre := (Hierarchy.childrenFirst_split C R split').2.2.2 m hm
    rcases List.eq_nil_or_concat post with rfl | ⟨post, last, rfl⟩
    · obtain ⟨rfl, -⟩ := List.append_inj' e rfl
      exact hnot hpre
    · rw [List.concat_eq_append, ← List.cons_append, ← List.append_assoc] at e
      obtain rfl := (List.append_inj' e rfl).1
      exact hnot (List.mem_append_left _ hpre)
  have hp : p ∈ h.ids := by
    obtain ⟨e, he, rfl, -⟩ := Hierarchy.mem_children_iff.mp hm
    exact C.parent he
  have hmem := (Hierarchy.mem_childrenFirst C).mpr hp
  rw [← split, ← List.singleton_append, ← List.append_assoc] at hmem
  exact ⟨before, (List.mem_append.mp hmem).resolve_left before⟩

/-- The instances that are replaced are those of the visited module. -/
theorem mem_children_of_replaced (A : h.Alike s.table.hierarchy)
    (hs : site ∈ replacedSites s m ports) : site.child = m ∧ m ∈ h.children site.parent := by
  have used : site ∈ s.table.hierarchy.uses m := by
    unfold replacedSites at hs
    split at hs
    · cases hs
    · exact hs
  obtain ⟨hsite, rfl⟩ := Hierarchy.mem_uses_iff.mp used
  obtain ⟨e, he, rfl⟩ := List.mem_map.mp hsite
  rw [← A.children]
  exact ⟨rfl, Hierarchy.mem_children_iff.mpr ⟨e, he, rfl, rfl⟩⟩

/-- A visit is written down, and it hands over to modules that are visited later. -/
theorem HandedOn.visit {rank : ModuleId → Nat} {x : Module} (I : HandedOn d done es s)
    (T : Steady h s) (C : h.Closed) (R : h.Ranked rank)
    (split : done ++ m :: rest = h.childrenFirst) (hx : s.design.module? m = some x) :
    ∃ s' es', StopsAt ⟨m, es'⟩ s s' ∧ HandedOn d (done ++ [m]) (es ++ es') s' ∧
      ∀ e ∈ es', e.site.child = m ∧ e.site.parent ∉ done ++ [m] ∧ e.site.parent ∈ rest := by
  have begun := I.begin m
  cases busy : (s.plan.changesOf m).isEmpty with
  | true =>
    refine ⟨withoutChanges s m, [], ⟨?_, .idle busy⟩, (List.append_nil es).symm ▸ begun, nofun⟩
    rw [visit_eq, if_pos busy]
  | false =>
    have T' : Steady h (withoutChanges s m) := T.congr rfl rfl
    obtain ⟨s₁, h₁, F₁⟩ := joinPorts_ok (s := withoutChanges s m) hx (s.plan.changesOf m)
    obtain ⟨s₂, h₂, F₂⟩ := closeAll_ok m (s.plan.changesOf m) s₁
    have F := F₁.trans F₂
    have ht : s₂.table = s.table := F.table
    have later : ∀ site ∈ replacedSites s₂ m (s.plan.changesOf m).ports,
        site.child = m ∧ site.parent ∉ done ++ [m] ∧ site.parent ∈ rest := fun site hs => by
      obtain ⟨hc, hm⟩ := mem_children_of_replaced (ht ▸ T.alike) hs
      exact ⟨hc, parent_mem_rest C R split hm⟩
    have S₂ := F.sound (sound_grown T'.sound hx (s.plan.changesOf m).ports)
    obtain ⟨s', es', h₃, hsites, hports, chain, I'⟩ := reissueAll_handed (m := m) (ht ▸ S₂)
      (begun.grown T'.sound.design.coherent F) fun site hs => (later site hs).2.1
    have whole : realizeModule m (s.plan.changesOf m) (withoutChanges s m) = .ok () s' :=
      (EStateM.bind_of_ok h₁).trans ((EStateM.bind_of_ok h₂).trans h₃)
    refine ⟨s', es', ⟨?_, .work busy ((EStateM.bind_of_ok h₁).trans h₂) hsites hports chain⟩, I',
      fun e he => ?_⟩
    · rw [visit_eq, busy]
      exact recorded_of_ok whole
    · exact later e.site (hsites ▸ List.mem_map_of_mem he)

/-! ### A walk -/

/-- A visit in the middle of a walk, with what held when it began. -/
structure Amid (d : Design) (done : List ModuleId) (es : List Handover) (s : Realizing)
    (pre : List Station) (k : Station) (post : List Station) (s' : Realizing)
    (before after : Realizing) : Prop where
  arrive : InTurn StopsAt pre s before
  pass : StopsAt k before after
  leave : InTurn StopsAt post after s'
  handed : HandedOn d (done ++ pre.map Station.module) (es ++ handovers pre) before
  later : ∀ e ∈ k.handovers, e.site.child = k.module ∧
    e.site.parent ∉ done ++ pre.map Station.module ++ [k.module] ∧
    e.site.parent ∈ post.map Station.module

/-- The modules that are left are visited one after the other. -/
theorem HandedOn.walk {rank : ModuleId → Nat} (H : d.Coherent) (I : HandedOn d done es s)
    (T : Steady d.hierarchy s) (C : d.hierarchy.Closed) (R : d.hierarchy.Ranked rank)
    (split : done ++ rest = d.hierarchy.childrenFirst) :
    ∃ s' log, log.map Station.module = rest ∧ InTurn StopsAt log s s' ∧
      HandedOn d d.hierarchy.childrenFirst (es ++ handovers log) s' ∧
      ∀ pre k post, log = pre ++ k :: post → ∃ before after,
        Amid d done es s pre k post s' before after := by
  induction rest generalizing done es s with
  | nil =>
    rw [List.append_nil] at split
    exact ⟨s, [], rfl, .nil s, split ▸ (List.append_nil es).symm ▸ I, by simp⟩
  | cons m rest ih =>
    have hid := (Hierarchy.childrenFirst_split C R split).2.2.1
    obtain ⟨x, hx⟩ := (T.known H).mpr ((mem_ids_hierarchy H).mp hid)
    obtain ⟨s₁, es', P, I₁, later⟩ := I.visit T C R split hx
    obtain ⟨s₂, run, T₁⟩ := visit_steady T m
    obtain rfl := (EStateM.Result.ok.inj (P.run.symm.trans run)).2
    obtain ⟨s', log, hlog, chain, I', amid⟩ := ih I₁ T₁ (by rw [List.append_assoc]; exact split)
    refine ⟨s', ⟨m, es'⟩ :: log, congrArg (m :: ·) hlog, .cons P chain,
      List.append_assoc es es' _ ▸ I', fun pre k post e => ?_⟩
    cases pre with
    | nil =>
      obtain ⟨rfl, rfl⟩ := List.cons.inj e
      exact ⟨s, s₁, .nil s, P, chain, by simpa [handovers] using I, by simpa [hlog] using later⟩
    | cons k' pre =>
      obtain ⟨rfl, e'⟩ := List.cons.inj e
      obtain ⟨before, after, A⟩ := amid pre k post e'
      refine ⟨before, after, .cons P A.arrive, A.pass, A.leave, ?_, ?_⟩
      · simpa [handovers] using A.handed
      · simpa using A.later

theorem forM_visit_of_inTurn {log : List Station} (C : InTurn StopsAt log s s') :
    (log.map Station.module).forM Realize.visit s = .ok () s' := by
  induction C with
  | nil => rfl
  | cons first _ ih => exact (EStateM.bind_of_ok first.run).trans ih

/-- Looking up renames ends, in a value that was not removed. -/
def LeadsAway (s : Realizing) (es : List Handover) : Prop :=
  ∀ v, EndsIn s.renames v (follow s.renames v) ∧
    ∀ e ∈ es, follow s.renames v ∉ e.removed.results

theorem HandedOn.leadsAway (I : HandedOn d done es s) : LeadsAway s es := fun v =>
  ⟨I.leads v, fun e he hv => (I.leads v).not_mem (I.renamed e he _ hv)⟩

end Realize

open Design Realize

variable {d : Design} {h : Hierarchy}

/-- No endpoint is lost that is recorded while a plan is carried out. The walk visits each module of
the hierarchy once. What a visit records goes to modules that are visited later, and is there when
the turn of such a module comes. No instance is replaced twice, and no module is left in the plan.
Whenever renames are looked up, at the end or when a visit begins, this ends in a value that is no
result of an instance replaced so far. -/
theorem handover_complete (H : d.Built) (hd : d.check = .ok ()) (hh : Hierarchy.ofDesign d = .ok h)
    (ms : List ModuleId) (plan : Plan) :
    ∃ s log, realize d ((PathTable.ofHierarchy h).asked ms) plan = s ∧
      InTurn StopsAt log ⟨d, (PathTable.ofHierarchy h).asked ms, plan, .empty, {}, []⟩ s ∧
      log.map Station.module = h.childrenFirst ∧ h.childrenFirst.Nodup ∧
      (∀ m, m ∈ h.childrenFirst ↔ m ∈ h.ids) ∧
      ((handovers log).map fun e => e.site.op).Nodup ∧
      (∀ m ∈ h.ids, s.plan.changes.find? m = none) ∧ LeadsAway s (handovers log) ∧
      ∀ pre k post, log = pre ++ k :: post → ∃ before after,
        InTurn StopsAt pre ⟨d, (PathTable.ofHierarchy h).asked ms, plan, .empty, {}, []⟩ before ∧
        StopsAt k before after ∧ InTurn StopsAt post after s ∧
        (∀ e ∈ k.handovers, e.site.child = k.module ∧
          e.site.parent ∉ (pre ++ [k]).map Station.module ∧
          e.site.parent ∈ post.map Station.module) ∧
        (∀ e ∈ handovers pre, e.site.parent = k.module → ∀ r ∈ e.ends,
          r.2 ∈ (before.plan.changesOf k.module).ends r.1) ∧
        LeadsAway before (handovers pre) := by
  have coherent := H.coherent
  obtain ⟨hv, hf⟩ := (check_eq_ok_iff coherent).mp hd
  have S : d.Sound fun _ => 0 := ⟨coherent, hv, hf⟩
  obtain ⟨ht, T⟩ := table_of_design coherent hh ms
  obtain ⟨rank, R⟩ := T.ranked
  rw [ht] at R
  obtain ⟨-, -, rfl⟩ := (Hierarchy.ofDesign_eq_ok_iff coherent).mp hh
  have C := closed_hierarchy coherent (Fits.childrenKnown hf)
  have steady : Steady d.hierarchy
      ⟨d, (PathTable.ofHierarchy d.hierarchy).asked ms, plan, .empty, {}, []⟩ :=
    ⟨⟨S, ht, T⟩, ht.symm ▸ .refl _⟩
  obtain ⟨s, log, hlog, chain, I, amid⟩ := (HandedOn.start coherent
    ((PathTable.ofHierarchy d.hierarchy).asked ms) plan).walk coherent steady C R
      (List.nil_append _)
  rw [List.nil_append] at I
  have run : realize d ((PathTable.ofHierarchy d.hierarchy).asked ms) plan = s := by
    rw [realize, ht, ← hlog, forM_visit_of_inTurn chain]
  refine ⟨s, log, run, chain, hlog, Hierarchy.nodup_childrenFirst C,
    fun m => Hierarchy.mem_childrenFirst C, I.once,
    fun m hm => I.taken m ((Hierarchy.mem_childrenFirst C).mpr hm), I.leadsAway,
    fun pre k post e => ?_⟩
  obtain ⟨before, after, A⟩ := amid pre k post e
  have handed := A.handed
  rw [List.nil_append, List.nil_append] at handed
  refine ⟨before, after, A.arrive, A.pass, A.leave, ?_, fun e he hk r hr => ?_, handed.leadsAway⟩
  · simpa using A.later
  · have order : pre.map Station.module ++ k.module :: post.map Station.module =
        d.hierarchy.childrenFirst := by
      rw [← hlog, ‹log = _›, List.map_append, List.map_cons]
    exact hk ▸ handed.waiting e he (hk ▸ (Hierarchy.childrenFirst_split C R order).1) r hr

/-- A top module with an instance of a module with an instance of another module. Both modules have
a port. -/
def nestedInstances : Design := (Design.new "Top").edited
  [.newModule "B" .defined, .newModule "C" .defined, .newPort ⟨2⟩ ⟨"o", .uint (some 1), .output⟩,
    .newPort ⟨1⟩ ⟨"o", .uint (some 1), .output⟩, .newWire ⟨2⟩ "x" (.uint (some 1)),
    .instantiate ⟨1⟩ "c" ⟨2⟩, .instantiate ⟨0⟩ "b" ⟨1⟩, .newWire ⟨0⟩ "t" (.uint (some 1)),
    .newWire ⟨0⟩ "u" (.uint (some 1))]

/-- A wire at the bottom drives one at the top, and a result of the outer instance, which is
replaced on the way, drives another. One entry is for a module that there is not. -/
def nestedPlan : Plan where
  changes := .ofList
    [(⟨0⟩, ⟨[], .ofList [(0, ⟨⟨5⟩, .sink⟩), (1, ⟨⟨4⟩, .source⟩)], [(⟨⟨6⟩, .sink⟩, 1)]⟩),
      (⟨1⟩, ⟨[⟨⟨"p", .uint (some 1), .output⟩, 0⟩], .empty, []⟩),
      (⟨2⟩, ⟨[⟨⟨"p", .uint (some 1), .output⟩, 0⟩], .ofList [(0, ⟨⟨2⟩, .source⟩)], []⟩),
      (⟨7⟩, ⟨[⟨⟨"p", .uint (some 1), .output⟩, 0⟩], .empty, []⟩)]
  names := .empty

/-- Both instances are replaced, and their results are renamed. Only the unknown module is left in
the plan. -/
theorem handover_complete_nestedPlan : nestedInstances.Built ∧ nestedInstances.check = .ok () ∧
    Hierarchy.ofDesign nestedInstances = .ok nestedInstances.hierarchy ∧
    ∃ s, realize nestedInstances ((PathTable.ofHierarchy nestedInstances.hierarchy).asked [⟨1⟩])
        nestedPlan = s ∧
      s.counts = ⟨2, 2, 4⟩ ∧ s.errors = [] ∧ s.renames.entries = [(⟨3⟩, ⟨8⟩), (⟨4⟩, ⟨11⟩)] ∧
      s.plan.changes.keys = [⟨7⟩] ∧ (∀ m ∈ nestedInstances.hierarchy.ids,
        s.plan.changes.find? m = none) ∧ ∀ v, EndsIn s.renames v (follow s.renames v) := by
  have H : nestedInstances.Built := (Built.new "Top").edited _
  have hd : nestedInstances.check = .ok () := by decide +kernel
  have hh : Hierarchy.ofDesign nestedInstances = .ok nestedInstances.hierarchy := by decide +kernel
  obtain ⟨s, log, hs, -, -, -, -, -, taken, leads, -⟩ :=
    handover_complete H hd hh [⟨1⟩] nestedPlan
  exact ⟨H, hd, hh, s, hs, hs ▸ by decide +kernel, hs ▸ by decide +kernel, hs ▸ by decide +kernel,
    hs ▸ by decide +kernel, taken, fun v => (leads v).1⟩

end Wiring

end AnnotatedCircuit
