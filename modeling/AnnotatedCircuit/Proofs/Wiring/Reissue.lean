import AnnotatedCircuit.Proofs.Design.Substitution
import AnnotatedCircuit.Wiring.Realize

/-!
# Replacing an instance while a plan is carried out

Between two steps of the work a design is sound and the path table answers for its hierarchy
(`Realizing.Sound`). In such a state the replacement of an instance that lags behind its module by
the new ports always succeeds (`reissue_ok`); `Reissuing` says what it leaves. In any state, a
replacement that succeeds is the edit `Edit.reissue` of the design (`reissue_edit`).
-/

namespace AnnotatedCircuit

namespace Wiring

/-- The design is sound up to a lag, and the table of paths is about it. -/
structure Realizing.Sound (s : Realizing) (lag : OpId → Nat) : Prop where
  design : s.design.Sound lag
  hierarchy : s.table.hierarchy = s.design.hierarchy
  table : s.table.Right

namespace Realize

open Design

variable {s s' : Realizing} {d' : Design} {m : ModuleId} {x : Module} {op : Op}
  {types : List SignalType} {ports : List PlannedPort} {site : Site} {lag : OpId → Nat}

theorem edit_of_ok {y : Edit α} {a : α} (h : y s.design = .ok a d') :
    edit y s = .ok a { s with design := d' } := by
  rw [edit, h]

theorem ask_of_ok {question : Design → Except DesignError α} {a : α}
    (h : question s.design = .ok a) : ask question s = .ok a s := edit_of_ok (Edit.ask_of_ok h)

theorem replaceInPaths_of_ok {old new : OpId} {t : PathTable}
    (h : s.table.replace old new = .ok t) :
    replaceInPaths old new s = .ok () { s with table := t } := by
  rw [replaceInPaths, h]

/-- Replaced results are renamed, the first one first. -/
def renamedBy (renames : OrderedMap ValueId ValueId) (pairs : List (ValueId × ValueId)) :
    OrderedMap ValueId ValueId := pairs.foldl (fun rs r => rs.insert r.1 r.2) renames

theorem redirectResult_ok {v : ValueId} (hx : s.design.module? m = some x)
    (hv : s.design.valueModule v = .ok m) (w : ValueId) : redirectResult v w s = .ok ()
      { s with design := s.design.redirected v w x.body, renames := s.renames.insert v w } := by
  obtain ⟨n, hn⟩ := Edit.redirectUses_ok (w := w) hv hx
  exact EStateM.bind_of_ok (edit_of_ok hn)

theorem redirectResults_ok (pairs : List (ValueId × ValueId)) (hx : s.design.module? m = some x)
    (nodup : x.body.Nodup) (hv : ∀ r ∈ pairs, s.design.valueModule r.1 = .ok m) :
    (pairs.forM fun (v, w) => redirectResult v w) s = .ok ()
      { s with
        design := s.design.redirectedAll pairs x.body
        renames := renamedBy s.renames pairs } := by
  induction pairs generalizing s with
  | nil => rfl
  | cons r pairs ih =>
    obtain ⟨hr, hv⟩ := List.forall_mem_cons.mp hv
    refine (EStateM.bind_of_ok (redirectResult_ok hx hr r.2)).trans (ih hx fun q hq => ?_)
    exact valueModule_redirected nodup r.1 r.2 (hv q hq)

/-- Once an instance is copied, the uses of its results can be redirected to those of the copy. -/
theorem redirectCopied_ok (S : s.design.Sound lag) {o : OpId} (ho : s.design.op? o = some op)
    (hx : s.design.module? op.parent = some x) (types : List SignalType) :
    ((s.design.resultPairs op types).forM fun (v, w) => redirectResult v w)
        { s with design := s.design.addOp op.parent op.kind types (insertBehind o) } = .ok ()
      { s with
        design := s.design.copied o op x types
        renames := renamedBy s.renames (s.design.resultPairs op types) } := by
  have H := S.coherent
  refine redirectResults_ok
    (s := { s with design := s.design.addOp op.parent op.kind types (insertBehind o) })
    (s.design.resultPairs op types) (module?_addOp_self hx) (nodup_copied_body S hx) fun r hr => ?_
  exact valueModule_result (H.addOp hx (insertBehind_perm ..)) (op?_addOp_of_some ho)
    (List.of_mem_zip hr).1

/-- What the replacement of an instance does to the state. -/
structure Reissuing (ports : List PlannedPort) (site : Site) (op : Op) (types : List SignalType)
    (s s' : Realizing) : Prop where
  live : s.design.op? site.op = some op
  parent : op.parent = site.parent
  child : op.kind.child? = some site.child
  length : types.length = op.results.length + ports.length
  typed : ∃ ts, types = ts ++ ports.map (·.port.type) ∧
    List.Forall₂ (fun v t => s.design.valueType v = .ok t) op.results ts
  design : s.design.Reissued site.op op types s'.design
  attachments : s'.design.attachments = s.design.attachments.moveOp site.op s.design.nextOp
  table : s'.table.hierarchy = s.table.hierarchy.renamed site.op s.design.nextOp
  right : s'.table.Right
  renames : s'.renames = renamedBy s.renames (s.design.resultPairs op types)
  plan : s'.plan = s.plan.modify site.parent
    (recordResults · ports ((s.design.nextValues types).drop op.results.length))
  errors : s'.errors = s.errors
  counts : s'.counts = { s.counts with instances := s.counts.instances + 1 }

/-- An instance can be replaced. -/
theorem reissue_ok (S : s.Sound lag) (hs : site ∈ s.design.sites) (ports : List PlannedPort) :
    ∃ op types s', reissue ports site s = .ok () s' ∧ Reissuing ports site op types s s' := by
  have H := S.design.coherent
  obtain ⟨op, ho, hp, hc⟩ := (mem_sites_iff H).mp hs
  obtain ⟨ts, hts, hclone⟩ := Edit.cloneInstance_ok H ho hc (ports.map (·.port))
  rw [List.map_map] at hclone
  generalize htypes : ts ++ ports.map ((·.type) ∘ (·.port)) = types at hclone
  have hlen : types.length = op.results.length + ports.length := by
    rw [← htypes, List.length_append, List.length_map, hts.length_eq]
  obtain ⟨x, hx⟩ := H.parent_module ho
  have le : op.results.length ≤ types.length := hlen ▸ Nat.le_add_right ..
  have hnotes : ((s.design.copied site.op op x types).attachments.moveOp site.op
      s.design.nextOp).forgetOp site.op = s.design.attachments.moveOp site.op s.design.nextOp := by
    rw [Attachments.forgetOp_moveOp (ne_nextOp ho), attachments_copied]
  have hcopy := op?_addOp_self s.design op.parent op.kind types (insertBehind site.op)
  have hred := redirectCopied_ok S.design ho hx types
  obtain ⟨op', hrem⟩ := Edit.removeOp_copied_ok S.design ho hx hc le
    ((s.design.copied site.op op x types).attachments.moveOp site.op s.design.nextOp)
  have sites : s.table.hierarchy.sites = s.design.sites := by rw [S.hierarchy, sites_hierarchy]
  obtain ⟨t, ht, hth, htr⟩ := S.table.replace (S.hierarchy ▸ plain_hierarchy H)
    (sites.symm ▸ hs) fun site' hs' => site_ne_nextOp H (sites ▸ hs')
  refine ⟨op, types,
    { design := s.design.reissued site.op op x types
        ((s.design.copied site.op op x types).attachments.moveOp site.op s.design.nextOp)
      table := t
      plan := s.plan.modify site.parent
        (recordResults · ports ((s.design.nextValues types).drop op.results.length))
      renames := renamedBy s.renames (s.design.resultPairs op types)
      counts := { s.counts with instances := s.counts.instances + 1 }
      errors := s.errors },
    ?_, ho, hp, hc, hlen, ⟨ts, htypes.symm, hts⟩, reissued_spec S.design ho hx hc le _,
    hnotes, hth, htr, rfl, rfl, rfl, rfl⟩
  refine (EStateM.bind_of_ok (ask_of_ok (op_eq_ok_iff.mpr ho))).trans ?_
  refine (EStateM.bind_of_ok (edit_of_ok hclone)).trans ?_
  refine (EStateM.bind_of_ok (ask_of_ok (op_eq_ok_iff.mpr hcopy))).trans ?_
  refine (EStateM.bind_of_ok hred).trans ?_
  refine (EStateM.bind_of_ok rfl).trans ?_
  refine (EStateM.bind_of_ok (edit_of_ok hrem)).trans ?_
  refine (EStateM.bind_of_ok (replaceInPaths_of_ok ?_)).trans rfl
  exact ht

/-! ### The edit in a replacement -/

theorem edit_eq_ok_iff {y : Edit α} {a : α} : edit y s = .ok a s' ↔
    ∃ d', y s.design = .ok a d' ∧ { s with design := d' } = s' := by
  rw [edit]
  cases y s.design <;> simp

theorem ask_eq_ok_iff {question : Design → Except DesignError α} {a : α} :
    ask question s = .ok a s' ↔ question s.design = .ok a ∧ s = s' := by
  rw [ask, edit_eq_ok_iff]
  unfold Edit.ask
  cases question s.design <;> simp

theorem redirectResults_edit {pairs : List (ValueId × ValueId)}
    (h : (pairs.forM fun (v, w) => redirectResult v w) s = .ok () s') :
    ∃ counts, (pairs.mapM fun r => Edit.redirectUses r.1 r.2) s.design =
      .ok counts s'.design := by
  induction pairs generalizing s with
  | nil =>
    cases h
    exact ⟨[], rfl⟩
  | cons r pairs ih =>
    obtain ⟨_, _, first, rest⟩ := EStateM.bind_eq_ok_iff.mp h
    obtain ⟨n, _, edited, renamed⟩ := EStateM.bind_eq_ok_iff.mp first
    obtain ⟨d₁, redirect, rfl⟩ := edit_eq_ok_iff.mp edited
    cases renamed
    obtain ⟨counts, later⟩ := ih rest
    refine ⟨n :: counts, ?_⟩
    rw [List.mapM_cons, EStateM.bind_of_ok redirect, EStateM.bind_of_ok later]
    rfl

/-- A replacement that succeeds does to the design what the edit does. -/
theorem reissue_edit (h : reissue ports site s = .ok () s') :
    ∃ copy counts, Edit.reissue site.op (ports.map (·.port)) s.design =
      .ok (copy, counts) s'.design := by
  obtain ⟨old, _, asked, h₁⟩ := EStateM.bind_eq_ok_iff.mp h
  obtain ⟨hold, rfl⟩ := ask_eq_ok_iff.mp asked
  obtain ⟨copy, _, edited, h₂⟩ := EStateM.bind_eq_ok_iff.mp h₁
  obtain ⟨d₁, clone, rfl⟩ := edit_eq_ok_iff.mp edited
  obtain ⟨new, _, asked', h₃⟩ := EStateM.bind_eq_ok_iff.mp h₂
  obtain ⟨hnew, rfl⟩ := ask_eq_ok_iff.mp asked'
  obtain ⟨_, s₂, redirected, h₄⟩ := EStateM.bind_eq_ok_iff.mp h₃
  obtain ⟨counts, redirects⟩ := redirectResults_edit redirected
  obtain ⟨_, _, notes, h₅⟩ := EStateM.bind_eq_ok_iff.mp h₄
  cases notes
  obtain ⟨op, _, edited', h₆⟩ := EStateM.bind_eq_ok_iff.mp h₅
  obtain ⟨d₃, removal, rfl⟩ := edit_eq_ok_iff.mp edited'
  obtain ⟨_, s₄, table, count⟩ := EStateM.bind_eq_ok_iff.mp h₆
  -- what follows does not touch the design
  have same : d₃ = s'.design := by
    cases count
    rw [replaceInPaths] at table
    split at table <;> cases table
    rfl
  refine ⟨copy, counts, ?_⟩
  refine (EStateM.bind_of_ok (Edit.ask_of_ok hold)).trans ?_
  refine (EStateM.bind_of_ok clone).trans ?_
  refine (EStateM.bind_of_ok (Edit.ask_of_ok hnew)).trans ?_
  refine (EStateM.bind_of_ok redirects).trans ?_
  refine (EStateM.bind_of_ok rfl).trans ?_
  exact same ▸ (EStateM.bind_of_ok removal).trans rfl

end Realize

end Wiring

end AnnotatedCircuit
