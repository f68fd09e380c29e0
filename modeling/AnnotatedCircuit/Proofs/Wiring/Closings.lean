import AnnotatedCircuit.Proofs.Design.Atomicity
import AnnotatedCircuit.Proofs.Wiring.Handover

/-!
# The connections that close requests

A request turns where one of its sides is connected to the other (`Turn`); `turns` lists the turns
that carrying out a plan makes. A turn is entered in the body of its module as a connection, with a
conversion before it if the types ask for one (`Design.Connection`). The visits that follow replace
instances of other modules, so whatever the plan asks for, all turns are connections of the design
that is left, each by an operation of its own (`exists_entered_turns`).
-/

namespace AnnotatedCircuit

namespace Design

variable {d d' : Design} {m : ModuleId} {x : Module} {o : OpId} {op : Op} {dest src : ValueId}

/-- In the body of a module an operation connects a value, from another one or from what that one is
converted to. -/
inductive Connection (d : Design) (m : ModuleId) (dest src : ValueId) (o : OpId) : Prop where
  | plain (connect : ⟨o, m, .connect dest src, []⟩ ∈ d.opsIn m) : Connection d m dest src o
  | converted {c : OpId} {kind : OpKind} {w : ValueId}
    (sort : kind = .refSend src ∨ kind = .refResolve src)
    (conversion : ⟨c, m, kind, [w]⟩ ∈ d.opsIn m)
    (connect : ⟨o, m, .connect dest w, []⟩ ∈ d.opsIn m) : Connection d m dest src o

theorem Connection.mono (K : d.Connection m dest src o) (keep : d.opsIn m ⊆ d'.opsIn m) :
    d'.Connection m dest src o := by
  cases K with
  | plain connect => exact .plain (keep connect)
  | converted sort conversion connect => exact .converted sort (keep conversion) (keep connect)

theorem mem_opsIn (hx : d.module? m = some x) (hb : o ∈ x.body) (ho : d.op? o = some op) :
    op ∈ d.opsIn m := by
  rw [opsIn_eq hx]
  exact List.mem_filterMap.mpr ⟨o, hb, ho⟩

theorem Extends.opsIn_subset (E : d.Extends d') (m : ModuleId) : d.opsIn m ⊆ d'.opsIn m := by
  intro op h
  cases hx : d.module? m with
  | none =>
    rw [opsIn, hx] at h
    cases h
  | some x =>
    rw [opsIn_eq hx] at h
    obtain ⟨o, hb, ho⟩ := List.mem_filterMap.mp h
    obtain ⟨y, hy, -, -, body⟩ := E.module hx
    exact mem_opsIn hy (body.subset hb) (E.op ho)

theorem mem_opsIn_addOp (hx : d.module? m = some x) (kind : OpKind) (types : List SignalType) :
    ⟨d.nextOp, m, kind, d.nextValues types⟩ ∈
      (d.addOp m kind types fun o body => body ++ [o]).opsIn m :=
  mem_opsIn (module?_addOp_self hx) (List.mem_append_right _ List.mem_cons_self) (op?_addOp_self ..)

end Design

namespace Edit

open Design

variable {d d' : Design} {m : ModuleId} {o : OpId} {dest src : ValueId} {dt st t : SignalType}
  {kind : OpKind}

theorem sort_of_conversion (h : OpKind.conversion? dt st src = some (kind, t)) :
    kind = .refSend src ∨ kind = .refResolve src := by
  unfold OpKind.conversion? at h
  cases hd : dt.isRef <;> cases hs : st.isRef <;> simp only [hd, hs] at h <;> cases h
  · exact .inr rfl
  · exact .inl rfl

theorem connect_of_ok (h : connect m dest src d = .ok o d') : ∃ x, d.module? m = some x ∧
    o = d.nextOp ∧ d' = d.addOp m (.connect dest src) [] fun o body => body ++ [o] := by
  obtain ⟨-, -, h⟩ := ask_bind_eq_ok_iff.mp h
  obtain ⟨-, -, h⟩ := ask_bind_eq_ok_iff.mp h
  rw [newOp_eq] at h
  obtain ⟨x, hx, h⟩ := ask_bind_eq_ok_iff.mp h
  cases h
  exact ⟨x, module_eq_ok_iff.mp hx, rfl, rfl⟩

/-- A drive that is not refused enters a connection. -/
theorem connection_of_drive (h : drive m dest src d = .ok () d') :
    ∃ o, d'.Connection m dest src o ∧ d.ops.length ≤ o.index ∧ o.index < d'.ops.length := by
  rw [drive_eq] at h
  obtain ⟨dt, -, h⟩ := ask_bind_eq_ok_iff.mp h
  obtain ⟨st, hs, h⟩ := ask_bind_eq_ok_iff.mp h
  obtain ⟨w, d₁, hw, h⟩ := EStateM.bind_eq_ok_iff.mp h
  obtain ⟨o, d₂, hc, h⟩ := EStateM.bind_eq_ok_iff.mp h
  cases h
  obtain ⟨x, hx, rfl, rfl⟩ := connect_of_ok hc
  have here := mem_opsIn_addOp hx (.connect dest w) []
  have last : d₁.ops.length <
      (d₁.addOp m (.connect dest w) [] fun o body => body ++ [o]).ops.length :=
    length_ops_addOp ▸ Nat.lt_succ_self _
  rw [convert_eq_ok_iff hs] at hw
  cases hk : OpKind.conversion? dt st src with
  | none =>
    rw [hk] at hw
    obtain ⟨rfl, rfl⟩ := hw
    exact ⟨d₁.nextOp, .plain here, Nat.le_refl _, last⟩
  | some k =>
    rw [hk] at hw
    obtain ⟨-, ⟨y, hy⟩, rfl, rfl⟩ := hw
    have before := (extends_addOp _ m (.connect dest ⟨d.values.length⟩) []).opsIn_subset m
      (mem_opsIn_addOp hy k.1 [k.2])
    exact ⟨_, .converted (sort_of_conversion hk) before here, (extends_addOp ..).length, last⟩

end Edit

namespace Wiring

open Design

/-- A connection that closes a request. -/
structure Turn where
  module : ModuleId
  request : Nat
  dest : Endpoint
  src : Endpoint
deriving DecidableEq, Repr

namespace Realize

variable {d d' : Design} {h : Hierarchy} {s s' : Realizing} {m k : ModuleId} {c : ModuleChanges}
  {n : Nat} {e : Endpoint} {t : Turn} {ts ts' : List Turn} {os os' : List OpId} {base base' : Nat}
  {done done' rest : List ModuleId} {ports : List PlannedPort} {sites : List Site}
  {l : List (Endpoint × Nat)}

/-- An endpoint with the value that stands for it now. -/
def now (s : Realizing) (e : Endpoint) : Endpoint := { e with value := follow s.renames e.value }

/-- The connection with which an endpoint closes a request, whose first endpoint is on the other
side of it. -/
def turnOf (m : ModuleId) (c : ModuleChanges) (s : Realizing) (r : Endpoint × Nat) : Option Turn :=
  (c.endpoints.find? r.2).map fun first =>
    match r.1.role with
    | .sink => ⟨m, r.2, now s r.1, now s first⟩
    | .source => ⟨m, r.2, now s first, now s r.1⟩

/-- The turns made by a list of closings, each where the one before has left off. -/
def closeTurns (m : ModuleId) (c : ModuleChanges) : List (Endpoint × Nat) → Realizing → List Turn
  | [], _ => []
  | r :: rest, s =>
    (match close m c r.1 r.2 s with
      | .ok _ _ => (turnOf m c s r).toList
      | .error _ _ => []) ++ closeTurns m c rest ((recorded (close m c r.1 r.2)).after s)

/-- The turns made by the visit of a module. -/
def visitTurns (m : ModuleId) (s : Realizing) : List Turn :=
  let c := s.plan.changesOf m
  if c.isEmpty then []
  else match joinPorts m c (withoutChanges s m) with
    | .ok _ s' => closeTurns m c c.closings s'
    | .error _ _ => []

def turnsFrom : List ModuleId → Realizing → List Turn
  | [], _ => []
  | m :: ms, s => visitTurns m s ++ turnsFrom ms ((visit m).after s)

/-- Closing a request makes its turn. -/
theorem close_eq_drive (ht : turnOf m c s (e, n) = some t) : close m c e n s =
    (edit (Edit.drive t.module t.dest.value t.src.value) >>= fun _ => countConnection) s := by
  obtain ⟨f, hf, rfl⟩ := Option.map_eq_some_iff.mp ht
  rw [close_eq hf]
  dsimp only
  cases e.role <;> rfl

/-! ### Turns in a design -/

/-- The turns are connections of the design, in modules of a list. Their operations are different,
and all of them are past a number. -/
structure Entered (d : Design) (base : Nat) (done : List ModuleId) (ts : List Turn)
    (os : List OpId) : Prop where
  connections : List.Forall₂ (fun t o => t.module ∈ done ∧
    d.Connection t.module t.dest.value t.src.value o) ts os
  ascending : os.Pairwise (·.index < ·.index)
  within : ∀ o ∈ os, base ≤ o.index ∧ o.index < d.ops.length

namespace Entered

theorem nil (d : Design) (base : Nat) (done : List ModuleId) : Entered d base done [] [] :=
  ⟨.nil, .nil, nofun⟩

/-- Turns stay where the operations of their modules do. -/
theorem mono (E : Entered d base done ts os) (hbase : base' ≤ base) (hdone : done ⊆ done')
    (keep : ∀ k ∈ done, d.opsIn k ⊆ d'.opsIn k) (length : d.ops.length ≤ d'.ops.length) :
    Entered d' base' done' ts os where
  connections := E.connections.imp fun _ _ ⟨hm, K⟩ => ⟨hdone hm, K.mono (keep _ hm)⟩
  ascending := E.ascending
  within o ho := (E.within o ho).imp (Nat.le_trans hbase) fun h => Nat.lt_of_lt_of_le h length

/-- Turns are followed by later ones. -/
theorem append (E : Entered d base done ts os) (E' : Entered d' d.ops.length done' ts' os')
    (hbase : base ≤ d.ops.length) (keep : ∀ k ∈ done, d.opsIn k ⊆ d'.opsIn k)
    (length : d.ops.length ≤ d'.ops.length) :
    Entered d' base (done ++ done') (ts ++ ts') (os ++ os') := by
  have F := E.mono (Nat.le_refl base) (List.subset_append_left done done') keep length
  have F' := E'.mono hbase (List.subset_append_right done done') (fun _ _ => List.Subset.refl _)
    (Nat.le_refl _)
  refine ⟨List.rel_append F.connections F'.connections,
    List.pairwise_append.mpr ⟨E.ascending, E'.ascending, fun o ho o' ho' => ?_⟩, fun o ho => ?_⟩
  · exact Nat.lt_of_lt_of_le (E.within o ho).2 (E'.within o' ho').1
  · exact (List.mem_append.mp ho).elim (F.within o) (F'.within o)

theorem nodup (E : Entered d base done ts os) : os.Nodup :=
  List.Pairwise.imp (fun {o p} (h : o.index < p.index) (e : o = p) => Nat.lt_irrefl _ (e ▸ h))
    E.ascending

end Entered

/-! ### A visit -/

/-- The answer of an edit and the design that it leaves. -/
theorem edit_eq_ok {α : Type} {x : Edit α} {a : α} (h : edit x s = .ok a s') :
    x s.design = .ok a s'.design := by
  unfold edit at h
  cases hx : x s.design <;> rw [hx] at h <;> cases h
  rfl

theorem module_of_turnOf {r : Endpoint × Nat} (h : turnOf m c s r = some t) :
    t.module = m ∧ t.request = r.2 := by
  obtain ⟨f, -, rfl⟩ := Option.map_eq_some_iff.mp h
  cases r.1.role <;> exact ⟨rfl, rfl⟩

theorem entered_close {r : Endpoint × Nat} {u : Unit} (h : close m c r.1 r.2 s = .ok u s')
    (ht : turnOf m c s r = some t) :
    ∃ o, Entered s'.design s.design.ops.length [m] [t] [o] := by
  obtain ⟨rfl, -⟩ := module_of_turnOf ht
  rw [close_eq_drive ht] at h
  obtain ⟨_, s₁, driven, counted⟩ := EStateM.bind_eq_ok_iff.mp h
  cases counted
  obtain ⟨o, K, new, live⟩ := Edit.connection_of_drive (edit_eq_ok driven)
  refine ⟨o, .cons ⟨List.mem_cons_self, K⟩ .nil, List.pairwise_singleton .., fun p hp => ?_⟩
  obtain rfl := List.mem_singleton.mp hp
  exact ⟨new, live⟩

/-- Closings that fail enter no turn, but they may leave a conversion. -/
theorem entered_closeTurns (run : (l.forM fun r => recorded (close m c r.1 r.2)) s = .ok () s') :
    ∃ os, Entered s'.design s.design.ops.length [m] (closeTurns m c l s) os := by
  induction l generalizing s with
  | nil => exact ⟨[], .nil ..⟩
  | cons r l ih =>
    obtain ⟨_, s₁, first, rest⟩ := EStateM.bind_eq_ok_iff.mp run
    have left : (recorded (close m c r.1 r.2)).after s = s₁ := EStateM.after_of_ok first
    obtain ⟨errors, hs₁⟩ := recorded_ok (close m c r.1 r.2) s
    have design : s₁.design = ((close m c r.1 r.2).after s).design := by
      rw [(EStateM.Result.ok.inj (first.symm.trans hs₁)).2]
    have E : s.design.Extends s₁.design := design ▸ (filled_close m c r.1 r.2 s).design.extension
    obtain ⟨s₂, run', F⟩ := forM_recorded_filled l (fun r : Endpoint × Nat =>
      filled_close m c r.1 r.2) s₁
    obtain rfl := (EStateM.Result.ok.inj (run'.symm.trans rest)).2
    have E' : s₁.design.Extends s₂.design := F.design.extension
    obtain ⟨os', later⟩ := ih rest
    obtain ⟨os, now⟩ : ∃ os, Entered s₁.design s.design.ops.length [m]
        (match close m c r.1 r.2 s with
          | .ok _ _ => (turnOf m c s r).toList
          | .error _ _ => []) os := by
      cases hc : close m c r.1 r.2 s with
      | error e s₃ => exact ⟨[], .nil ..⟩
      | ok u s₃ =>
        rw [EStateM.after_of_ok hc] at design
        cases ht : turnOf m c s r with
        | none => exact ⟨[], .nil ..⟩
        | some t =>
          obtain ⟨o, entered⟩ := entered_close hc ht
          exact ⟨[o], design ▸ entered⟩
    rw [closeTurns, left]
    have both := now.append later E.length (fun k _ => E'.opsIn_subset k) E'.length
    exact ⟨os ++ os', both.mono (Nat.le_refl _) (by simp) (fun _ _ => List.Subset.refl _)
      (Nat.le_refl _)⟩

/-- A module whose ports are joined and whose requests are closed has the turns of its visit. -/
theorem entered_joined {x : Module} (found : s.design.module? m = some x)
    (joined : (joinPorts m (s.plan.changesOf m) >>= fun _ => closeAll m (s.plan.changesOf m))
      (withoutChanges s m) = .ok () s') :
    ∃ os, Entered s'.design s.design.ops.length [m] (visitTurns m s) os := by
  cases empty : (s.plan.changesOf m).isEmpty with
  | true =>
    have none : visitTurns m s = [] := if_pos empty
    exact ⟨[], none ▸ .nil ..⟩
  | false =>
    obtain ⟨_, s₁, joins, closes⟩ := EStateM.bind_eq_ok_iff.mp joined
    have some : visitTurns m s =
        closeTurns m (s.plan.changesOf m) (s.plan.changesOf m).closings s₁ := by
      unfold visitTurns
      rw [if_neg (by simp [empty]), joins]
    obtain ⟨s₁', joins', F⟩ := joinPorts_ok (s := withoutChanges s m) found (s.plan.changesOf m)
    obtain rfl := (EStateM.Result.ok.inj (joins'.symm.trans joins)).2
    have before : s.design.Extends s₁'.design := .trans (extends_enterPorts ..) F.design.extension
    obtain ⟨os, entered⟩ := entered_closeTurns closes
    exact ⟨os, some ▸ entered.mono before.length (List.Subset.refl _)
      (fun _ _ => List.Subset.refl _) (Nat.le_refl _)⟩

/-- Replacing instances leaves the other modules as they are. -/
theorem Replaces.elsewhere (R : Replaces ports sites s s')
    (away : ∀ site ∈ sites, site.parent ≠ k) :
    s'.design.opsIn k = s.design.opsIn k ∧ s.design.ops.length ≤ s'.design.ops.length := by
  induction R with
  | nil => exact ⟨rfl, Nat.le_refl _⟩
  | cons catching first _ ih =>
    obtain ⟨hsite, away⟩ := List.forall_mem_cons.mp away
    obtain ⟨same, length⟩ := ih away
    have copied := first.design.elsewhere catching.sound.design first.live
      (first.length ▸ Nat.le_add_right ..) (first.parent ▸ hsite.symm)
    exact ⟨same.trans copied.2, Nat.le_trans (first.design.length ▸ Nat.le_succ _) length⟩

/-- A visit enters its turns, and the modules that were visited before keep theirs. -/
theorem Visits.entered {rank : ModuleId → Nat} (V : Visits m s s') (T : Steady h s) (C : h.Closed)
    (R : h.Ranked rank) (split : done ++ m :: rest = h.childrenFirst) :
    (∃ os, Entered s'.design s.design.ops.length [m] (visitTurns m s) os) ∧
      (∀ k ∈ done, s.design.opsIn k ⊆ s'.design.opsIn k) ∧
      s.design.ops.length ≤ s'.design.ops.length := by
  cases V with
  | nothing empty =>
    have none : visitTurns m s = [] := if_pos empty
    exact ⟨⟨[], none ▸ .nil ..⟩, fun _ _ => List.Subset.refl _, Nat.le_refl _⟩
  | @work x s₁ _ found filled replaced joined =>
    have later : ∀ k ∈ done ++ [m], ∀ site ∈ replacedSites s₁ m (s.plan.changesOf m).ports,
        site.parent ≠ k := fun k hk site hs e => by
      have hm := (mem_children_of_replaced (filled.table ▸ T.alike) hs).2
      exact (parent_mem_rest C R split hm).1 (e ▸ hk)
    have E : s.design.Extends s₁.design := .trans (extends_enterPorts ..) filled.design.extension
    have length := (replaced.elsewhere (later m (by simp))).2
    obtain ⟨os, entered⟩ := entered_joined found joined
    refine ⟨⟨os, entered.mono (Nat.le_refl _) (List.Subset.refl _) (fun k hk => ?_) length⟩,
      fun k hk => ?_, Nat.le_trans E.length length⟩
    · rw [(replaced.elsewhere (later k (List.mem_append_right _ hk))).1]
      exact List.Subset.refl _
    · rw [(replaced.elsewhere (later k (List.mem_append_left _ hk))).1]
      exact E.opsIn_subset k

end Realize

/-- The turns made while a plan is carried out. -/
def turns (d : Design) (t : PathTable) (p : Plan) : List Turn :=
  Realize.turnsFrom t.hierarchy.childrenFirst ⟨d, t, p, .empty, {}, []⟩

namespace Realize

theorem turnsFrom_append (run : done.forM visit s = .ok () s') (rest : List ModuleId) :
    turnsFrom (done ++ rest) s = turnsFrom done s ++ turnsFrom rest s' := by
  induction done generalizing s with
  | nil =>
    cases run
    rfl
  | cons m done ih =>
    obtain ⟨_, s₁, first, run⟩ := EStateM.bind_eq_ok_iff.mp run
    rw [List.cons_append, turnsFrom, turnsFrom, EStateM.after_of_ok first, ih run,
      List.append_assoc]

end Realize

open Realize in
/-- Whatever a plan asks for, the turns of its run are connections of the design that is left, by
operations that were not there before. -/
theorem exists_entered_turns {d : Design} {t : PathTable} (S : d.Sound fun _ => 0)
    (ht : t.hierarchy = d.hierarchy) (T : t.Right) (p : Plan) :
    ∃ os, Entered (realize d t p).design d.ops.length d.hierarchy.childrenFirst (turns d t p)
      os := by
  obtain ⟨rank, R⟩ := T.ranked
  rw [ht] at R
  have C := closed_hierarchy S.coherent (Fits.childrenKnown S.fits)
  rw [turns, ht]
  refine (realize_runs (Q := fun done s => d.ops.length ≤ s.design.ops.length ∧
    ∃ os, Entered s.design d.ops.length done (turnsFrom done ⟨d, t, p, .empty, {}, []⟩) os) S ht T p
    ⟨Nat.le_refl _, [], .nil ..⟩ fun {done m rest s s'} split T before _ V ⟨old, os, E⟩ => ?_).2
  obtain ⟨⟨os', E'⟩, keep, length⟩ := V.entered T C R split
  refine ⟨Nat.le_trans old length, os ++ os', ?_⟩
  have one : turnsFrom [m] s = visitTurns m s := List.append_nil _
  rw [turnsFrom_append before, one]
  exact E.append E' old keep length

end Wiring

end AnnotatedCircuit
