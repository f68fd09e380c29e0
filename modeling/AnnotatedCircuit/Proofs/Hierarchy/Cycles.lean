import AnnotatedCircuit.Proofs.Hierarchy.Acyclic

/-!
# The cycle that a search reports

When a module is left, all its children have been entered. A child that has not been left by then
is still being searched below, so it leads to the module (`Hierarchy.Settled`). A parent that was
left before its child is therefore on a cycle with it, and so is every module that the search for
cycles names (`Hierarchy.above_of_cycle?`). The hierarchy of a built design is refused exactly for
such a module (`Hierarchy.ofDesign_refuses_cycles`).
-/

namespace AnnotatedCircuit

namespace Hierarchy

variable {h : Hierarchy} {w w' : Walk} {m c x : ModuleId} {l ms : List ModuleId} {n : Nat}

/-- One module is the other one or instantiates it, directly or through others. -/
def Reaches (h : Hierarchy) : ModuleId → ModuleId → Prop :=
  Relation.ReflTransGen fun a b => b ∈ h.children a

/-! ### Modules that are still to be entered -/

/-- The modules that a search has not entered. -/
def unseen (h : Hierarchy) (w : Walk) : Finset ModuleId := h.ids.toFinset \ w.seen.toFinset

theorem mem_unseen_iff : m ∈ h.unseen w ↔ m ∈ h.ids ∧ m ∉ w.seen := by simp [unseen]

theorem unseen_subset (keep : w.seen ⊆ w'.seen) : h.unseen w' ⊆ h.unseen w := fun _ hm =>
  mem_unseen_iff.mpr ((mem_unseen_iff.mp hm).imp_right fun new old => new (keep old))

theorem card_unseen_enter (hm : m ∈ h.ids) (new : m ∉ w.seen) :
    (h.unseen { w with seen := m :: w.seen }).card < (h.unseen w).card := by
  have : h.unseen { w with seen := m :: w.seen } = (h.unseen w).erase m := by
    simp [unseen, Finset.sdiff_insert]
  rw [this]
  exact Finset.card_erase_lt_of_mem (mem_unseen_iff.mpr ⟨hm, new⟩)

theorem card_unseen_le (h : Hierarchy) (w : Walk) : (h.unseen w).card ≤ h.fuel :=
  calc (h.unseen w).card ≤ h.ids.toFinset.card := Finset.card_le_card Finset.sdiff_subset
    _ ≤ h.ids.length := List.toFinset_card_le _
    _ ≤ h.fuel := by simp [ids, fuel]

theorem Walk.Adds.seen_subset (H : w.Adds w' l) : w.seen ⊆ w'.seen := fun _ hx =>
  H.seen.mpr (.inl hx)

/-- What a search has entered and not left yet is what it found so. -/
theorem Walk.Adds.pending_mem (H : w.Adds w' l) (entered : x ∈ w'.seen)
    (pending : x ∉ w'.finished) : x ∈ w.seen ∧ x ∉ w.finished := by
  rw [H.finished, List.mem_append, not_or] at pending
  exact ⟨(H.seen.mp entered).resolve_right pending.2, pending.1⟩

/-! ### Modules that have been left -/

/-- Every module of the list stands behind those of its children that do not lead back to it. -/
def Settled (h : Hierarchy) (l : List ModuleId) : Prop :=
  ∀ pre m post, l = pre ++ m :: post → ∀ c ∈ h.children m, c ∈ pre ∨ h.Reaches c m

theorem Settled.nil : h.Settled [] := fun _ _ _ e => by simp at e

theorem Settled.concat (H : h.Settled l) (hm : ∀ c ∈ h.children m, c ∈ l ∨ h.Reaches c m) :
    h.Settled (l ++ [m]) := by
  intro pre x post e
  rcases List.eq_nil_or_concat post with rfl | ⟨post, y, rfl⟩
  · obtain ⟨rfl, hx⟩ := List.append_inj' e rfl
    cases hx
    exact hm
  · rw [List.concat_eq_append, ← List.cons_append, ← List.append_assoc] at e
    exact H _ _ _ (List.append_inj' e rfl).1

/-- The state of a search below a module: what was left is settled, and what was entered and not
left leads to the module. -/
structure Walk.Below (h : Hierarchy) (m : ModuleId) (w : Walk) : Prop where
  settled : h.Settled w.finished
  pending : ∀ x ∈ w.seen, x ∉ w.finished → h.Reaches x m

/-- Searches below a module, one after the other, enter every start. -/
theorem foldl_below (step : ∀ c ∈ l, ∀ w : Walk, w.Below h m → (h.unseen w).card ≤ n →
      h.Settled (h.visit n c w).finished ∧ c ∈ (h.visit n c w).seen)
    (B : w.Below h m) (hn : (h.unseen w).card ≤ n) :
    (l.foldl (fun w c => h.visit n c w) w).Below h m ∧
      ∀ x, x ∈ l ∨ x ∈ w.seen → x ∈ (l.foldl (fun w c => h.visit n c w) w).seen := by
  induction l generalizing w with
  | nil => exact ⟨B, by simp⟩
  | cons c l ih =>
    obtain ⟨now, later⟩ := List.forall_mem_cons.mp step
    obtain ⟨settled, hc⟩ := now w B hn
    obtain ⟨l', H, -⟩ := visit_adds (S := fun _ => True) (h := h) (by simp) n trivial (m := c) w
    have B' : (h.visit n c w).Below h m := ⟨settled, fun x hs hf =>
      (H.pending_mem hs hf).elim (B.pending x)⟩
    obtain ⟨B'', keep⟩ := ih later B'
      (Nat.le_trans (Finset.card_le_card (unseen_subset H.seen_subset)) hn)
    refine ⟨B'', fun x hx => keep x ?_⟩
    rcases hx with hx | hx
    · exact (List.mem_cons.mp hx).elim (fun e => .inr (e ▸ hc)) .inl
    · exact .inr (H.seen_subset hx)

theorem visit_settled (C : h.Enclosed) (hn : (h.unseen w).card ≤ n) (hm : m ∈ h.ids)
    (B : w.Below h m) : h.Settled (h.visit n m w).finished ∧ m ∈ (h.visit n m w).seen := by
  induction n generalizing m w with
  | zero =>
    have entered : m ∈ w.seen := by
      by_contra new
      have := Finset.card_pos.mpr ⟨m, mem_unseen_iff.mpr ⟨hm, new⟩⟩
      omega
    exact ⟨B.settled, entered⟩
  | succ n ih =>
    unfold visit
    split
    · rename_i hs
      exact ⟨B.settled, List.contains_iff_mem.mp hs⟩
    · rename_i hs
      have new : m ∉ w.seen := by simpa using hs
      have entered : Walk.Below h m { w with seen := m :: w.seen } := by
        refine ⟨B.settled, fun x hx hf => ?_⟩
        rcases List.mem_cons.mp hx with rfl | hx
        · exact .refl
        · exact B.pending x hx hf
      have fewer := card_unseen_enter hm new
      -- what is still searched below leads to the module, and by one more edge to its child
      have below : ∀ c ∈ h.children m, ∀ w : Walk, w.Below h m → (h.unseen w).card ≤ n →
          h.Settled (h.visit n c w).finished ∧ c ∈ (h.visit n c w).seen := fun c hc w B hn =>
        ih hn (C.children m hm c hc) ⟨B.settled, fun x hs hf => (B.pending x hs hf).tail hc⟩
      obtain ⟨B', keep⟩ := foldl_below below entered (by omega)
      refine ⟨B'.settled.concat fun c hc => ?_, keep m (.inr List.mem_cons_self)⟩
      by_cases left : c ∈ (List.foldl (fun w c => h.visit n c w) { w with seen := m :: w.seen }
          (h.children m)).finished
      · exact .inl left
      · exact .inr (B'.pending c (keep c (.inl hc)) left)

/-- Searches from modules that are below no other one in work. -/
theorem walk_settled (C : h.Enclosed) (hms : ∀ m ∈ ms, m ∈ h.ids) (settled : h.Settled w.finished)
    (left : ∀ x ∈ w.seen, x ∈ w.finished) : h.Settled (h.walk ms w).finished := by
  induction ms generalizing w with
  | nil => exact settled
  | cons m ms ih =>
    obtain ⟨hm, hms⟩ := List.forall_mem_cons.mp hms
    obtain ⟨l, H, -⟩ :=
      visit_adds (S := fun _ => True) (h := h) (by simp) h.fuel trivial (m := m) w
    refine ih hms (visit_settled C (card_unseen_le h w) hm
      ⟨settled, fun x hs hf => absurd (left x hs) hf⟩).1 fun x hx => ?_
    by_contra hf
    obtain ⟨hs, hf⟩ := H.pending_mem hx hf
    exact hf (left x hs)

/-! ### The reported module -/

/-- A parent that was left before its child is on a cycle. -/
theorem above_of_lateParent? {done rest : List ModuleId} {p : ModuleId} (S : h.Settled l)
    (nodup : l.Nodup) (all : ∀ {e}, e ∈ h.edges → e.parent ∈ l) (split : l = rest.reverse ++ done)
    (late : h.lateParent? done rest = some p) : h.Above p p := by
  induction rest generalizing done with
  | nil => cases late
  | cons m rest ih =>
    rw [List.reverse_cons, List.append_assoc, List.singleton_append] at split
    unfold lateParent? at late
    split at late
    · rename_i s hs
      cases late
      have notDone : s.parent ∉ m :: done := by simpa using List.find?_some hs
      obtain ⟨hsite, hchild⟩ := mem_uses_iff.mp (List.mem_of_find?_eq_some hs)
      obtain ⟨e, he, rfl⟩ := List.mem_map.mp hsite
      have child : m ∈ h.children e.parent := mem_children_iff.mpr ⟨e, he, rfl, hchild⟩
      have listed : e.parent ∈ rest.reverse :=
        (List.mem_append.mp (split ▸ all he)).resolve_right notDone
      obtain ⟨pre, post, hpost⟩ := List.append_of_mem listed
      rw [hpost, List.append_assoc, List.cons_append] at split
      have back : h.Reaches m e.parent := by
        refine (S pre e.parent _ split m child).resolve_left fun hm => ?_
        refine (List.nodup_append.mp (split ▸ nodup)).2.2 m hm m ?_ rfl
        simp
      exact .head' child back
    · exact ih split late

/-- A module that the search reports lies below itself. -/
theorem above_of_cycle? (C : h.Enclosed) (hc : h.cycle? = some m) : h.Above m m := by
  obtain ⟨l, H, hl, hin⟩ := walk_adds C.children (lastOccurrences h.ids)
    (fun m hm => mem_lastOccurrences.mp hm) ⟨[], []⟩
  have hf : (h.walk (lastOccurrences h.ids) ⟨[], []⟩).finished = l := by simp [H.finished]
  have settled : h.Settled (h.walk (lastOccurrences h.ids) ⟨[], []⟩).finished :=
    walk_settled C (fun m hm => mem_lastOccurrences.mp hm) .nil (by simp)
  have all : ∀ {e}, e ∈ h.edges → e.parent ∈ l := fun he =>
    (hin _ (mem_lastOccurrences.mpr (C.parent he))).resolve_left (by simp)
  unfold cycle? at hc
  simp only at hc
  split at hc
  · rename_i x hx
    cases hc
    have self := List.find?_some hx
    exact .single (List.contains_iff_mem.mp self)
  · rw [hf] at hc settled
    exact above_of_lateParent? settled H.nodup all (by simp) hc

end Hierarchy

theorem Design.above_hierarchy_iff {d : Design} {m c : ModuleId} (H : d.Coherent) :
    d.hierarchy.Above m c ↔ Relation.TransGen d.Instantiates m c := by
  have : d.Instantiates = fun a b => b ∈ d.hierarchy.children a := by
    funext m c
    exact propext (Design.instantiates_iff H)
  rw [this]
  rfl

namespace Hierarchy

variable {d : Design} {m : ModuleId} {x : Module}

open Design

/-- Where a cycle is found, the module named by the search is named. -/
theorem ofDesign_of_cycle? (H : d.Coherent) (K : d.ChildrenKnown)
    (hc : d.hierarchy.cycle? = some m) (hx : d.module? m = some x) :
    ofDesign d = .error (.instanceCycle x.name) := by
  have entered : d.modules.mapM (sitesIn d) =
      .ok (d.modules.map fun x => x.body.filterMap (d.siteAt x.id)) :=
    (mapM_sitesIn_eq_ok_iff H fun x hx => (mem_modules_iff H).mp hx).mpr
      ⟨fun _ _ _ _ _ ho _ hc => K ho hc, rfl⟩
  have name : d.moduleName m = .ok x.name := by
    rw [moduleName, module_eq_ok_iff.mpr hx]
    rfl
  have found : Hierarchy.cycle? ⟨d.top, d.modules.map fun m => (m.name, m.id),
      d.sites.map fun s => ⟨s, true⟩⟩ = some m := hc
  simp only [ofDesign, entered, bind, Except.bind, foldl_enter_sites H, found, name]
  rfl

end Hierarchy

end AnnotatedCircuit
