import AnnotatedCircuit.Proofs.Design.CrossLinks
import AnnotatedCircuit.Proofs.Hierarchy.Cycles

/-!
# Searches with a stack

A search can keep the modules that it has still to look at on a stack (`Hierarchy.turn`). The
topmost one is entered, and its children are put on top of it; when it comes up again it is left. A
module may wait on the stack several times, but by the time that it comes up from a lower place it
has been left. So such a search enters and leaves the modules in the order of the recursive one
(`Hierarchy.runsOn_walk`), and it finds the same order of all modules
(`Hierarchy.runsOn_childrenFirst`) and the same cycle (`Hierarchy.findsCycle_iff`). The hierarchy
of a built design is refused exactly if there is one, for a module on it that such a search finds
(`Hierarchy.ofDesign_refuses_cycles`).
-/

namespace AnnotatedCircuit

namespace Hierarchy

variable {h : Hierarchy} {w w₀ : Walk} {m c x : ModuleId} {l ms starts stack : List ModuleId}
  {n : Nat} {halts : ModuleId → Bool}

/-- A search with a stack under way. -/
structure StackWalk where
  /-- The modules to start from as soon as the stack is empty. -/
  starts : List ModuleId
  /-- The modules to look at, the next one first. -/
  stack : List ModuleId
  walk : Walk

inductive Turn where
  | next (s : StackWalk)
  /-- The search ends because of a module. -/
  | halt (m : ModuleId)
  | done

/-- Leave a module, unless this was done before. -/
def Walk.leave (w : Walk) (m : ModuleId) : Walk :=
  if m ∈ w.finished then w else { w with finished := w.finished ++ [m] }

/-- One turn of a search. The search may end at certain modules instead of entering them. -/
def turn (h : Hierarchy) (halts : ModuleId → Bool) : StackWalk → Turn
  | ⟨[], [], _⟩ => .done
  | ⟨m :: starts, [], w⟩ => .next ⟨starts, if m ∈ w.seen then [] else [m], w⟩
  | ⟨starts, m :: stack, w⟩ =>
    if m ∈ w.seen then .next ⟨starts, stack, w.leave m⟩
    else if halts m then .halt m
    else .next ⟨starts, (h.children m).filter (· ∉ m :: w.seen) ++ m :: stack,
      { w with seen := m :: w.seen }⟩

/-- The turns of a search that ends at certain modules. -/
abbrev Runs (h : Hierarchy) (halts : ModuleId → Bool) : StackWalk → StackWalk → Prop :=
  Relation.ReflTransGen fun s t => h.turn halts s = .next t

/-- A search that ends at no module. -/
abbrev RunsOn (h : Hierarchy) : StackWalk → StackWalk → Prop := h.Runs fun _ => false

/-! ### The recursive search by turns -/

theorem visit_of_seen (hs : m ∈ w.seen) (n : Nat) : h.visit n m w = w := by
  cases n with
  | zero => rfl
  | succ n => rw [visit, if_pos (List.contains_iff_mem.mpr hs)]

/-- Searches that start at a module entered before can be left out. -/
theorem foldl_visit_filter (l : List ModuleId) (keep : w₀.seen ⊆ w.seen) :
    (l.filter (· ∉ w₀.seen)).foldl (fun w c => h.visit n c w) w =
      l.foldl (fun w c => h.visit n c w) w := by
  induction l generalizing w with
  | nil => rfl
  | cons c l ih =>
    obtain ⟨l', H, -⟩ := visit_adds (S := fun _ => True) (h := h) (by simp) n trivial (m := c) w
    by_cases hc : c ∈ w₀.seen
    · rw [List.filter_cons_of_neg (by simpa using hc), List.foldl_cons, visit_of_seen (keep hc)]
      exact ih keep
    · rw [List.filter_cons_of_pos (by simpa using hc), List.foldl_cons, List.foldl_cons]
      exact ih (List.Subset.trans keep H.seen_subset)

/-- What was left had been entered. -/
def Walk.Proper (w : Walk) : Prop := w.finished ⊆ w.seen

theorem Walk.Adds.proper {w' : Walk} (H : w.Adds w' l) (P : w.Proper) : w'.Proper := by
  intro x hx
  rw [H.finished, List.mem_append] at hx
  exact H.seen.mpr (hx.imp_left fun hx => P hx)

/-- A module that is not being searched below is not afterwards either. -/
theorem Walk.Adds.idle {w' : Walk} (H : w.Adds w' l) (idle : x ∈ w.seen → x ∈ w.finished)
    (hx : x ∈ w'.seen) : x ∈ w'.finished := by
  rw [H.finished, List.mem_append]
  exact (H.seen.mp hx).imp_left idle

theorem turn_of_left (hs : m ∈ w.seen) (hf : m ∈ w.finished) :
    h.turn halts ⟨starts, m :: stack, w⟩ = .next ⟨starts, stack, w⟩ := by
  rw [turn, if_pos hs, Walk.leave, if_pos hf]

theorem runsOn_foldl (step : ∀ c ∈ l, ∀ w : Walk, ∀ stack, (h.unseen w).card ≤ n → w.Proper →
      (c ∈ w.seen → c ∈ w.finished) →
      h.RunsOn ⟨starts, c :: stack, w⟩ ⟨starts, stack, h.visit n c w⟩)
    (hn : (h.unseen w).card ≤ n) (P : w.Proper) (idle : ∀ c ∈ l, c ∈ w.seen → c ∈ w.finished) :
    h.RunsOn ⟨starts, l ++ stack, w⟩ ⟨starts, stack, l.foldl (fun w c => h.visit n c w) w⟩ := by
  induction l generalizing w with
  | nil => exact .refl
  | cons c l ih =>
    obtain ⟨now, later⟩ := List.forall_mem_cons.mp step
    obtain ⟨hc, idle⟩ := List.forall_mem_cons.mp idle
    obtain ⟨l', H, -⟩ := visit_adds (S := fun _ => True) (h := h) (by simp) n trivial (m := c) w
    refine (now w (l ++ stack) hn P hc).trans (ih later ?_ (H.proper P) fun x hx => ?_)
    · exact Nat.le_trans (Finset.card_le_card (unseen_subset H.seen_subset)) hn
    · exact H.idle (idle x hx)

/-- The stack above a module is worked off as the recursive search below the module does it. -/
theorem runsOn_visit (C : h.Enclosed) (hn : (h.unseen w).card ≤ n) (hm : m ∈ h.ids)
    (P : w.Proper) (idle : m ∈ w.seen → m ∈ w.finished) :
    h.RunsOn ⟨starts, m :: stack, w⟩ ⟨starts, stack, h.visit n m w⟩ := by
  induction n generalizing m w stack with
  | zero =>
    have hs : m ∈ w.seen := by
      by_contra new
      have := Finset.card_pos.mpr ⟨m, mem_unseen_iff.mpr ⟨hm, new⟩⟩
      omega
    exact .single (turn_of_left hs (idle hs))
  | succ n ih =>
    by_cases hs : m ∈ w.seen
    · rw [visit_of_seen hs]
      exact .single (turn_of_left hs (idle hs))
    generalize hw : ({ w with seen := m :: w.seen } : Walk) = entered
    have seen : entered.seen = m :: w.seen := by rw [← hw]
    have finished : entered.finished = w.finished := by rw [← hw]
    have enter : h.turn (fun _ => false) ⟨starts, m :: stack, w⟩ = .next
        ⟨starts, (h.children m).filter (· ∉ entered.seen) ++ m :: stack, entered⟩ := by
      rw [turn, if_neg hs, if_neg Bool.false_ne_true, hw, seen]
    have fewer := hw ▸ card_unseen_enter hm hs
    have proper : entered.Proper := fun x hx =>
      seen ▸ List.mem_cons_of_mem m (P (finished ▸ hx))
    have below : h.RunsOn
        ⟨starts, (h.children m).filter (· ∉ entered.seen) ++ m :: stack, entered⟩
        ⟨starts, m :: stack, ((h.children m).filter (· ∉ entered.seen)).foldl
          (fun w c => h.visit n c w) entered⟩ := by
      refine runsOn_foldl (fun c hc w stack hn P idle => ?_) (by omega) proper fun c hc hs => ?_
      · exact ih hn (C.children m hm c (List.mem_filter.mp hc).1) P idle
      · exact absurd hs (of_decide_eq_true (List.mem_filter.mp hc).2)
    rw [foldl_visit_filter _ (List.Subset.refl _)] at below
    obtain ⟨l, H, -⟩ :=
      foldl_visit_adds (S := fun _ => True) (h := h) (by simp) n (h.children m) (by simp) entered
    -- the module itself comes up again, and it is left only now
    have leave : h.turn (fun _ => false) ⟨starts, m :: stack,
        (h.children m).foldl (fun w c => h.visit n c w) entered⟩ =
          .next ⟨starts, stack, h.visit (n + 1) m w⟩ := by
      have again : m ∈ entered.seen := seen ▸ List.mem_cons_self
      have open' : m ∉ ((h.children m).foldl (fun w c => h.visit n c w) entered).finished := by
        rw [H.finished, finished, List.mem_append, not_or]
        exact ⟨fun hf => hs (P hf), fun hl => H.fresh m hl again⟩
      rw [turn, if_pos (H.seen_subset again), Walk.leave, if_neg open', visit,
        if_neg (by simpa using hs), ← hw]
    exact .head enter (below.tail leave)

theorem runsOn_walk (C : h.Enclosed) (hms : ∀ m ∈ ms, m ∈ h.ids) (P : w.Proper)
    (idle : ∀ x ∈ w.seen, x ∈ w.finished) :
    h.RunsOn ⟨ms, [], w⟩ ⟨[], [], h.walk ms w⟩ := by
  induction ms generalizing w with
  | nil => exact .refl
  | cons m ms ih =>
    obtain ⟨hm, hms⟩ := List.forall_mem_cons.mp hms
    by_cases hs : m ∈ w.seen
    · have start : h.turn (fun _ => false) ⟨m :: ms, [], w⟩ = .next ⟨ms, [], w⟩ := by
        rw [turn, if_pos hs]
      rw [walk, List.foldl_cons, visit_of_seen hs]
      exact .head start (ih hms P idle)
    · have start : h.turn (fun _ => false) ⟨m :: ms, [], w⟩ = .next ⟨ms, [m], w⟩ := by
        rw [turn, if_neg hs]
      obtain ⟨l, H, -⟩ :=
        visit_adds (S := fun _ => True) (h := h) (by simp) h.fuel trivial (m := m) w
      exact .head start ((runsOn_visit C (card_unseen_le h w) hm P (idle m)).trans
        (ih hms (H.proper P) fun x => H.idle (idle x)))

/-- A search with a stack, first from the top and then from the modules in the order of the design
that were not entered by then, leaves the modules in the order that is used. -/
theorem runsOn_childrenFirst (C : h.Closed) :
    ∃ w : Walk, h.RunsOn ⟨h.top :: h.ids, [], ⟨[], []⟩⟩ ⟨[], [], w⟩ ∧
      w.finished = h.childrenFirst :=
  ⟨_, runsOn_walk C.enclosed (List.forall_mem_cons.mpr ⟨C.top, fun _ => id⟩)
    (List.nil_subset _) (by simp), (childrenFirst_eq C).symm⟩

/-! ### The search for cycles by turns -/

/-- A turn before a search that comes to an end, or to one of the modules that end it. -/
theorem halting_head {s s₁ t : StackWalk} {halts : ModuleId → Bool} {l : List ModuleId}
    (turned : h.turn halts s = .next s₁)
    (ends : match l.find? halts with
      | none => h.Runs halts s₁ t
      | some m => ∃ s', h.Runs halts s₁ s' ∧ h.turn halts s' = .halt m) :
    match l.find? halts with
    | none => h.Runs halts s t
    | some m => ∃ s', h.Runs halts s s' ∧ h.turn halts s' = .halt m := by
  cases hf : l.find? halts with
  | none =>
    rw [hf] at ends
    exact .head turned ends
  | some m =>
    rw [hf] at ends
    obtain ⟨s', run, halt⟩ := ends
    exact ⟨s', .head turned run, halt⟩

/-- A search that ends at certain modules takes the turns of one that does not, up to the first of
these modules. -/
theorem runs_halting {s t : StackWalk} (H : h.RunsOn s t) (halts : ModuleId → Bool) :
    ∃ l, t.walk.seen = l ++ s.walk.seen ∧
      match l.reverse.find? halts with
      | none => h.Runs halts s t
      | some m => ∃ s', h.Runs halts s s' ∧ h.turn halts s' = .halt m := by
  induction H using Relation.ReflTransGen.head_induction_on with
  | refl => exact ⟨[], rfl, .refl⟩
  | @head s s₁ first _ ih =>
    obtain ⟨l, seen, ends⟩ := ih
    obtain ⟨starts, stack, w⟩ := s
    match starts, stack with
    | [], [] => cases first
    | m :: starts, [] =>
      refine ⟨l, ?_, halting_head ?_ ends⟩
      · rw [seen]
        cases first
        rfl
      · cases first
        rfl
    | starts, m :: stack =>
      rw [turn] at first
      by_cases hs : m ∈ w.seen
      · -- a turn that enters no module does not depend on where the search ends
        rw [if_pos hs] at first
        refine ⟨l, ?_, halting_head ?_ ends⟩
        · rw [seen]
          cases first
          simp only [Walk.leave]
          split <;> rfl
        · rw [turn, if_pos hs]
          exact first
      · rw [if_neg hs, if_neg Bool.false_ne_true] at first
        cases first
        refine ⟨l ++ [m], by rw [seen, List.append_assoc]; rfl, ?_⟩
        rw [List.reverse_append, List.reverse_singleton, List.singleton_append]
        cases hm : halts m with
        | true =>
          rw [List.find?_cons_of_pos hm]
          exact ⟨_, .refl, by rw [turn, if_neg hs, if_pos hm]⟩
        | false =>
          rw [List.find?_cons_of_neg (by simp [hm])]
          refine halting_head ?_ ends
          rw [turn, if_neg hs, if_neg (by simp [hm])]

/-- Take modules from a stack up to one that is not discovered yet, and put its parents that are not
discovered either on the stack. -/
def yield? (h : Hierarchy) : (stack discovered : List ModuleId) → Option (ModuleId × List ModuleId)
  | [], _ => none
  | m :: stack, discovered =>
    if m ∈ discovered then h.yield? stack discovered
    else some (m,
      ((h.uses m).map Site.parent).filter (· ∉ m :: discovered) ++ stack)

/-- Search the modules above each module of a list; the answer is the second module that one of
these searches discovers. -/
def searchAbove (h : Hierarchy) : (starts discovered : List ModuleId) → Option ModuleId
  | [], _ => none
  | m :: starts, discovered =>
    match h.yield? [m] discovered with
    | none => h.searchAbove starts discovered
    | some (m, stack) =>
      match h.yield? stack (m :: discovered) with
      | none => h.searchAbove starts (m :: discovered)
      | some (p, _) => some p

theorem map_fst_yield?_filter (ms discovered : List ModuleId) :
    (h.yield? (ms.filter (· ∉ discovered)) discovered).map Prod.fst =
      ms.find? (· ∉ discovered) := by
  rw [← List.head?_filter]
  cases hms : ms.filter (· ∉ discovered) with
  | nil => rfl
  | cons m ms' =>
    have kept : m ∈ ms.filter (· ∉ discovered) := hms ▸ List.mem_cons_self
    have new : m ∉ discovered := of_decide_eq_true (List.mem_filter.mp kept).2
    rw [yield?, if_neg new]
    rfl

/-- On different starts the search above them stops at the first parent behind its child. -/
theorem searchAbove_eq {done rest : List ModuleId} (nodup : (rest ++ done).Nodup) :
    h.searchAbove rest done = h.lateParent? done rest := by
  induction rest generalizing done with
  | nil => rfl
  | cons m rest ih =>
    have new : m ∉ done := fun hm =>
      (List.nodup_cons.mp nodup).1 (List.mem_append_right _ hm)
    have later : h.searchAbove rest (m :: done) = h.lateParent? (m :: done) rest :=
      ih (List.perm_middle.nodup_iff.mpr nodup)
    have second := h.map_fst_yield?_filter ((h.uses m).map Site.parent) (m :: done)
    have first : h.yield? [m] done =
        some (m, ((h.uses m).map Site.parent).filter (· ∉ m :: done)) := by
      rw [yield?, if_neg new, List.append_nil]
    have late : (h.uses m).find? (fun s => !(m :: done).contains s.parent) =
        (h.uses m).find? ((· ∉ m :: done) ∘ Site.parent) := by
      congr 1
      funext s
      simp
    rw [List.find?_map, ← late] at second
    rw [searchAbove, first, lateParent?]
    dsimp only
    cases hy : h.yield? (((h.uses m).map Site.parent).filter (· ∉ m :: done)) (m :: done) with
    | none =>
      rw [hy] at second
      rw [Option.map_eq_none_iff.mp second.symm]
      exact later
    | some y =>
      rw [hy] at second
      obtain ⟨s, hs, hp⟩ := Option.map_eq_some_iff.mp second.symm
      rw [hs]
      exact congrArg some hp.symm

/-- What a search for cycles answers where it ends: the module that instantiates itself, or what the
search above the modules finds, the last one left first. -/
def verdict? (h : Hierarchy) (s : StackWalk) : Option (Option ModuleId) :=
  match h.turn (fun m => (h.children m).contains m) s with
  | .next _ => none
  | .halt m => some (some m)
  | .done => some (h.searchAbove s.walk.finished.reverse [])

/-- The answer of a search for cycles with a stack, from each module in the order of the design. -/
def FindsCycle (h : Hierarchy) (r : Option ModuleId) : Prop :=
  ∃ s, h.Runs (fun m => (h.children m).contains m) ⟨h.ids, [], ⟨[], []⟩⟩ s ∧ h.verdict? s = some r

theorem lastOccurrences_eq (nodup : l.Nodup) : lastOccurrences l = l := by
  induction l with
  | nil => rfl
  | cons m l ih =>
    obtain ⟨hm, nodup⟩ := List.nodup_cons.mp nodup
    rw [lastOccurrences, if_neg (by simpa using hm), ih nodup]

theorem findsCycle_cycle? (C : h.Closed) : h.FindsCycle h.cycle? := by
  obtain ⟨l, H, -⟩ := walk_adds C.children h.ids (fun _ => id) ⟨[], []⟩
  obtain ⟨entered, seen, ends⟩ := runs_halting
    (runsOn_walk C.enclosed (w := ⟨[], []⟩) (fun _ => id) (List.nil_subset _) (by simp))
    (fun m => (h.children m).contains m)
  have order : (h.walk h.ids ⟨[], []⟩).finished.reverse.Nodup := by
    rw [H.finished]
    exact List.nodup_reverse.mpr H.nodup
  rw [List.append_nil] at seen
  unfold cycle?
  rw [lastOccurrences_eq C.nodup]
  dsimp only at seen ⊢
  rw [seen]
  cases hf : entered.reverse.find? fun m => (h.children m).contains m with
  | none =>
    rw [hf] at ends
    refine ⟨_, ends, ?_⟩
    rw [verdict?, turn]
    exact congrArg some (searchAbove_eq (by simpa using order))
  | some m =>
    rw [hf] at ends
    obtain ⟨s, run, halt⟩ := ends
    exact ⟨s, run, by rw [verdict?, halt]⟩

/-- No turn follows where an answer is given. -/
theorem eq_of_verdict? {s t : StackWalk} {r : Option ModuleId}
    (run : h.Runs (fun m => (h.children m).contains m) s t) (hs : h.verdict? s = some r) :
    s = t := by
  rcases Relation.ReflTransGen.cases_head run with e | ⟨s', turned, -⟩
  · exact e
  · rw [verdict?, turned] at hs
    cases hs

/-- A search with a stack finds the same cycle as the recursive search. -/
theorem findsCycle_iff (C : h.Closed) {r : Option ModuleId} :
    h.FindsCycle r ↔ r = h.cycle? := by
  refine ⟨fun ⟨s, run, hs⟩ => ?_, fun e => e ▸ findsCycle_cycle? C⟩
  obtain ⟨t, run', ht⟩ := findsCycle_cycle? C
  have unique : Relator.RightUnique fun s t : StackWalk =>
      h.turn (fun m => (h.children m).contains m) s = .next t := fun _ _ _ e e' =>
    Turn.next.inj (e.symm.trans e')
  have same : s = t := by
    rcases Relation.ReflTransGen.total_of_right_unique unique run run' with between | between
    · exact eq_of_verdict? between hs
    · exact (eq_of_verdict? between ht).symm
  exact Option.some.inj (hs.symm.trans (same ▸ ht))

/-! ### Designs with cycles -/

variable {d : Design}

open Design

/-- The hierarchy of a built design is found exactly if no module lies below itself, and this is
what a search for cycles finds out. Otherwise the module that the search finds lies below itself
and is named, and no other module has its name. -/
theorem ofDesign_refuses_cycles (H : d.Built) :
    ((∃ h, ofDesign d = .ok h) ↔ d.Acyclic) ∧ (d.hierarchy.FindsCycle none ↔ d.Acyclic) ∧
    ∀ e, ofDesign d = .error e → ∃ m x, d.module? m = some x ∧ e = .instanceCycle x.name ∧
      d.hierarchy.FindsCycle (some m) ∧ Relation.TransGen d.Instantiates m m ∧
      ∀ m' x', d.module? m' = some x' → x'.name = x.name → m' = m := by
  have C := H.coherent
  have K : d.ChildrenKnown := H.childrenKnown
  have closed := closed_hierarchy C K
  refine ⟨⟨fun ⟨h, hh⟩ => ?_, fun A => ⟨_, ofDesign_of_acyclic H A⟩⟩, ?_, fun e he => ?_⟩
  · obtain ⟨-, none, -⟩ := (ofDesign_eq_ok_iff C).mp hh
    exact (acyclic_iff C K).mpr none
  · rw [findsCycle_iff closed, eq_comm, acyclic_iff C K]
  · cases hc : d.hierarchy.cycle? with
    | none =>
      rw [(ofDesign_eq_ok_iff C).mpr ⟨K, hc, rfl⟩] at he
      cases he
    | some m =>
      have above := above_of_cycle? closed.enclosed hc
      obtain ⟨c, -, hm⟩ := Relation.TransGen.tail'_iff.mp above
      obtain ⟨edge, hedge, -, rfl⟩ := mem_children_iff.mp hm
      obtain ⟨x, hx⟩ := (mem_ids_hierarchy C).mp (closed.child hedge)
      rw [ofDesign_of_cycle? C K hc hx] at he
      cases he
      refine ⟨edge.child, x, hx, rfl, (findsCycle_iff closed).mpr hc.symm,
        (above_hierarchy_iff C).mp above, fun m' x' hx' => H.module_unique hx' hx⟩

/-- The top module instantiates `A` twice. Out of its reach, `B` and `C` instantiate each other, and
`C` instantiates `A`. -/
def hiddenCycle : Design := (Design.new "Top").edited
  [.newModule "A" .defined, .newModule "B" .defined, .newModule "C" .defined,
    .instantiate ⟨0⟩ "a" ⟨1⟩, .instantiate ⟨0⟩ "b" ⟨1⟩, .instantiate ⟨2⟩ "c" ⟨3⟩,
    .instantiate ⟨3⟩ "d" ⟨1⟩, .instantiate ⟨3⟩ "e" ⟨2⟩]

theorem ofDesign_refuses_cycles_hiddenCycle : hiddenCycle.Built ∧
    ofDesign hiddenCycle = .error (.instanceCycle "C") ∧ ¬ hiddenCycle.Acyclic ∧
    ∃ m x, hiddenCycle.module? m = some x ∧ x.name = "C" ∧
      hiddenCycle.hierarchy.FindsCycle (some m) ∧
      Relation.TransGen hiddenCycle.Instantiates m m := by
  have H : hiddenCycle.Built := (Design.Built.new "Top").edited _
  have refused : ofDesign hiddenCycle = .error (.instanceCycle "C") := by decide +kernel
  obtain ⟨found, -, named⟩ := ofDesign_refuses_cycles H
  obtain ⟨m, x, hx, e, finds, above, -⟩ := named _ refused
  refine ⟨H, refused, fun A => ?_, m, x, hx, (DesignError.instanceCycle.inj e).symm, finds, above⟩
  obtain ⟨h, hh⟩ := found.mpr A
  exact nomatch refused.symm.trans hh

end Hierarchy

end AnnotatedCircuit
