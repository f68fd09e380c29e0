import Mathlib.Data.List.Nodup
import Mathlib.Data.List.Perm.Subperm
import AnnotatedCircuit.Hierarchy.Order

/-!
# The depth-first search

A search adds modules that it had not entered before, and leaves each of them (`Walk.Adds`). In a
ranked hierarchy, where every edge leads to a higher rank, it leaves every module behind its
children (`visit_tidy`). A hierarchy without a reported cycle is ranked
(`exists_ranked`).
-/

namespace AnnotatedCircuit.Hierarchy

variable {h : Hierarchy} {w w' w'' : Walk} {m c : ModuleId} {l l' : List ModuleId}

/-- What a search adds: `l` are the modules entered and left in between. -/
structure Walk.Adds (w w' : Walk) (l : List ModuleId) : Prop where
  finished : w'.finished = w.finished ++ l
  seen : ∀ {x}, x ∈ w'.seen ↔ x ∈ w.seen ∨ x ∈ l
  fresh : ∀ x ∈ l, x ∉ w.seen
  nodup : l.Nodup

namespace Walk.Adds

theorem refl (w : Walk) : Adds w w [] := ⟨by simp, by simp, by simp, List.nodup_nil⟩

theorem trans (H : Adds w w' l) (H' : Adds w' w'' l') : Adds w w'' (l ++ l') where
  finished := by rw [H'.finished, H.finished, List.append_assoc]
  seen {x} := by rw [H'.seen, H.seen, List.mem_append, or_assoc]
  fresh x hx := by
    rcases List.mem_append.mp hx with hx | hx
    · exact H.fresh x hx
    · exact fun hs => H'.fresh x hx (H.seen.mpr (.inl hs))
  nodup := List.nodup_append.mpr ⟨H.nodup, H'.nodup, fun x hx y hy e =>
    H'.fresh y hy (H.seen.mpr (.inr (e ▸ hx)))⟩

/-- A module is entered, what is below it is searched, and it is left. -/
theorem around (hm : m ∉ w.seen) (H : Adds { w with seen := m :: w.seen } w' l) :
    Adds w { w' with finished := w'.finished ++ [m] } (l ++ [m]) where
  finished := by simp [H.finished]
  seen {x} := by simp [H.seen, or_assoc, or_left_comm, or_comm]
  fresh x hx := by
    rcases List.mem_append.mp hx with hx | hx
    · exact fun hs => H.fresh x hx (List.mem_cons_of_mem _ hs)
    · exact List.mem_singleton.mp hx ▸ hm
  nodup := List.nodup_append.mpr ⟨H.nodup, List.nodup_singleton m, fun x hx y hy e =>
    H.fresh x hx (by rw [e, List.mem_singleton.mp hy]; exact List.mem_cons_self)⟩

end Walk.Adds

/-- Searches one after the other add what each of them adds, and enter every start if each of them
enters its own. -/
theorem foldl_adds {S : ModuleId → Prop} {enters : Prop} {search : Walk → ModuleId → Walk}
    (step : ∀ m, S m → ∀ w : Walk, ∃ l, w.Adds (search w m) l ∧ (∀ x ∈ l, S x) ∧
      (enters → m ∈ w.seen ∨ m ∈ l)) (ms : List ModuleId) (hms : ∀ m ∈ ms, S m) (w : Walk) :
    ∃ l, w.Adds (ms.foldl search w) l ∧ (∀ x ∈ l, S x) ∧
      (enters → ∀ m ∈ ms, m ∈ w.seen ∨ m ∈ l) := by
  induction ms generalizing w with
  | nil => exact ⟨[], .refl w, by simp, by simp⟩
  | cons m ms ih =>
    obtain ⟨hm, hms⟩ := List.forall_mem_cons.mp hms
    obtain ⟨l, H, hl, hin⟩ := step m hm w
    obtain ⟨l', H', hl', hins⟩ := ih hms (search w m)
    refine ⟨_, H.trans H', fun x hx => (List.mem_append.mp hx).elim (hl x) (hl' x), fun he => ?_⟩
    refine List.forall_mem_cons.mpr ⟨(hin he).imp_right (List.mem_append_left _), fun x hx => ?_⟩
    rcases hins he x hx with hs | hx
    · exact (H.seen.mp hs).imp_right (List.mem_append_left _)
    · exact .inr (List.mem_append_right _ hx)

/-- A search adds modules from any set that holds its start and is closed under instantiation, and
it enters the start, if it may enter anything. -/
theorem visit_adds {S : ModuleId → Prop} (closed : ∀ m, S m → ∀ c ∈ h.children m, S c) (n : Nat)
    (hm : S m) (w : Walk) :
    ∃ l, w.Adds (h.visit n m w) l ∧ (∀ x ∈ l, S x) ∧ (0 < n → m ∈ w.seen ∨ m ∈ l) := by
  induction n generalizing m w with
  | zero => exact ⟨[], .refl w, by simp, by simp⟩
  | succ n ih =>
    unfold visit
    split
    · rename_i hs
      exact ⟨[], .refl w, by simp, fun _ => .inl (by simpa using hs)⟩
    · rename_i hs
      obtain ⟨l, H, hl, -⟩ := foldl_adds (fun c hc w => ih hc w) (h.children m) (closed m hm)
        { w with seen := m :: w.seen }
      refine ⟨_, H.around (by simpa using hs), fun x hx => ?_, fun _ => .inr (by simp)⟩
      rcases List.mem_append.mp hx with hx | hx
      · exact hl x hx
      · exact List.mem_singleton.mp hx ▸ hm

/-- Searches of one depth, one after the other. -/
theorem foldl_visit_adds {S : ModuleId → Prop} (closed : ∀ m, S m → ∀ c ∈ h.children m, S c)
    (n : Nat) (ms : List ModuleId) (hms : ∀ m ∈ ms, S m) (w : Walk) :
    ∃ l, w.Adds (ms.foldl (fun w m => h.visit n m w) w) l ∧ (∀ x ∈ l, S x) ∧
      (0 < n → ∀ m ∈ ms, m ∈ w.seen ∨ m ∈ l) :=
  foldl_adds (fun _ hm w => visit_adds closed n hm w) ms hms w

theorem walk_adds {S : ModuleId → Prop} (closed : ∀ m, S m → ∀ c ∈ h.children m, S c)
    (ms : List ModuleId) (hms : ∀ m ∈ ms, S m) (w : Walk) :
    ∃ l, w.Adds (h.walk ms w) l ∧ (∀ x ∈ l, S x) ∧ ∀ m ∈ ms, m ∈ w.seen ∨ m ∈ l := by
  obtain ⟨l, H, hl, hin⟩ := foldl_visit_adds closed h.fuel ms hms w
  exact ⟨l, H, hl, hin (Nat.succ_pos _)⟩

/-! ### Ranked hierarchies -/

/-- Every edge leads to a higher rank, and no rank exceeds the number of modules. -/
structure Ranked (h : Hierarchy) (rank : ModuleId → Nat) : Prop where
  lt : ∀ {m c}, c ∈ h.children m → rank m < rank c
  le : ∀ m, rank m ≤ h.modules.length

/-- Every module of the list stands behind its children. -/
def ChildrenFirst (h : Hierarchy) (l : List ModuleId) : Prop :=
  ∀ pre m post, l = pre ++ m :: post → ∀ c ∈ h.children m, c ∈ pre

theorem ChildrenFirst.nil : h.ChildrenFirst [] := fun _ _ _ e => by simp at e

theorem ChildrenFirst.concat (H : h.ChildrenFirst l) (hm : ∀ c ∈ h.children m, c ∈ l) :
    h.ChildrenFirst (l ++ [m]) := by
  intro pre x post e
  rcases List.eq_nil_or_concat post with rfl | ⟨post, y, rfl⟩
  · obtain ⟨rfl, hx⟩ := List.append_inj' e rfl
    cases hx
    exact hm
  · rw [List.concat_eq_append, ← List.cons_append, ← List.append_assoc] at e
    exact H _ _ _ (List.append_inj' e rfl).1

/-- The state between two searches below modules of rank at least `n`: what was left is in order,
and what was entered and not left yet has a lower rank. -/
structure Walk.Tidy (h : Hierarchy) (rank : ModuleId → Nat) (n : Nat) (w : Walk) : Prop where
  ordered : h.ChildrenFirst w.finished
  pending : ∀ x ∈ w.seen, x ∉ w.finished → rank x < n

theorem Walk.Adds.pending {rank : ModuleId → Nat} {k : Nat} (H : w.Adds w' l)
    (hw : ∀ x ∈ w.seen, x ∉ w.finished → rank x < k) :
    ∀ x ∈ w'.seen, x ∉ w'.finished → rank x < k := by
  intro x hs hf
  rw [H.finished, List.mem_append, not_or] at hf
  exact hw x ((H.seen.mp hs).resolve_right hf.2) hf.1

/-- Searches below modules of rank at least `k` leave every one of them, and keep what was left. -/
theorem foldl_tidy {rank : ModuleId → Nat} {n k : Nat}
    (step : ∀ {c w}, c ∈ l → w.Tidy h rank k →
      (h.visit n c w).Tidy h rank k ∧ c ∈ (h.visit n c w).finished) (T : w.Tidy h rank k) :
    (l.foldl (fun w c => h.visit n c w) w).Tidy h rank k ∧
      ∀ x, x ∈ l ∨ x ∈ w.finished → x ∈ (l.foldl (fun w c => h.visit n c w) w).finished := by
  induction l generalizing w with
  | nil => exact ⟨T, by simp⟩
  | cons c l ih =>
    obtain ⟨T', hc⟩ := step List.mem_cons_self T
    obtain ⟨T'', keep⟩ := ih (fun hm => step (List.mem_cons_of_mem _ hm)) T'
    obtain ⟨l', H, -⟩ := visit_adds (S := fun _ => True) (h := h) (by simp) n trivial (m := c) w
    refine ⟨T'', fun x hx => keep x ?_⟩
    rcases hx with hx | hx
    · exact (List.mem_cons.mp hx).elim (fun e => .inr (e ▸ hc)) .inl
    · exact .inr (by rw [H.finished]; exact List.mem_append_left _ hx)

theorem visit_tidy {rank : ModuleId → Nat} (R : h.Ranked rank) {n k : Nat}
    (hn : h.modules.length < n + rank m) (hk : k ≤ rank m) (T : w.Tidy h rank k) :
    (h.visit n m w).Tidy h rank k ∧ m ∈ (h.visit n m w).finished := by
  induction n generalizing m w k with
  | zero => exact absurd (R.le m) (by omega)
  | succ n ih =>
    obtain ⟨l, H, -⟩ :=
      visit_adds (S := fun _ => True) (h := h) (by simp) (n + 1) trivial (m := m) w
    suffices hf : h.ChildrenFirst (h.visit (n + 1) m w).finished ∧
        m ∈ (h.visit (n + 1) m w).finished from ⟨⟨hf.1, H.pending T.pending⟩, hf.2⟩
    unfold visit
    split
    · rename_i hs
      refine ⟨T.ordered, ?_⟩
      by_contra hf
      exact absurd (T.pending m (by simpa using hs) hf) (by omega)
    · have entered : Walk.Tidy h rank (rank m + 1) { w with seen := m :: w.seen } := by
        refine ⟨T.ordered, fun x hx hf => ?_⟩
        rcases List.mem_cons.mp hx with rfl | hx
        · exact Nat.lt_succ_self _
        · exact Nat.lt_of_lt_of_le (T.pending x hx hf) (Nat.le_succ_of_le hk)
      have below : ∀ {c w}, c ∈ h.children m → w.Tidy h rank (rank m + 1) →
          (h.visit n c w).Tidy h rank (rank m + 1) ∧ c ∈ (h.visit n c w).finished := by
        intro c w hc T
        have hr := R.lt hc
        exact ih (by omega) hr T
      obtain ⟨T', hin⟩ := foldl_tidy below entered
      exact ⟨T'.ordered.concat fun c hc => hin c (.inl hc), by simp⟩

theorem walk_tidy {rank : ModuleId → Nat} (R : h.Ranked rank) (ms : List ModuleId)
    (T : w.Tidy h rank 0) : (h.walk ms w).Tidy h rank 0 := by
  induction ms generalizing w with
  | nil => exact T
  | cons m ms ih => exact ih (visit_tidy R (by unfold fuel; omega) (Nat.zero_le _) T).1

theorem walkAll_eq_walk (nodup : l.Nodup) (w : Walk) : h.walkAll l w = h.walk l w := by
  induction l generalizing w with
  | nil => rfl
  | cons m l ih =>
    obtain ⟨hm, nodup⟩ := List.nodup_cons.mp nodup
    rw [walkAll, if_neg (by simpa using hm), ih nodup]
    rfl

/-- The identities of the modules are distinct, the top is one of them, and edges stay among
them. -/
structure Closed (h : Hierarchy) : Prop where
  nodup : h.ids.Nodup
  top : h.top ∈ h.ids
  parent : ∀ {e}, e ∈ h.edges → e.parent ∈ h.ids
  child : ∀ {e}, e ∈ h.edges → e.child ∈ h.ids

/-- The instances of a hierarchy, without the look-up marks of their edges. -/
def sites (h : Hierarchy) : List Site := h.edges.map Edge.toSite

theorem mem_uses_iff {s : Site} : s ∈ h.uses m ↔ s ∈ h.sites ∧ s.child = m := by
  simp only [uses, sites, List.mem_map, List.mem_filter, beq_iff_eq]
  constructor
  · rintro ⟨e, ⟨he, rfl⟩, rfl⟩
    exact ⟨⟨e, he, rfl⟩, rfl⟩
  · rintro ⟨⟨e, he, rfl⟩, rfl⟩
    exact ⟨e, ⟨he, rfl⟩, rfl⟩

theorem mem_children_iff : c ∈ h.children m ↔ ∃ e ∈ h.edges, e.parent = m ∧ e.child = c := by
  simp [children, instances, and_assoc]

/-- Edges stay among the modules. -/
structure Enclosed (h : Hierarchy) : Prop where
  parent : ∀ {e}, e ∈ h.edges → e.parent ∈ h.ids
  child : ∀ {e}, e ∈ h.edges → e.child ∈ h.ids

theorem Closed.enclosed (C : h.Closed) : h.Enclosed := ⟨C.parent, C.child⟩

theorem Enclosed.children (C : h.Enclosed) : ∀ m, m ∈ h.ids → ∀ c ∈ h.children m, c ∈ h.ids := by
  intro m _ c hc
  obtain ⟨e, he, -, rfl⟩ := mem_children_iff.mp hc
  exact C.child he

theorem Closed.children (C : h.Closed) : ∀ m, m ∈ h.ids → ∀ c ∈ h.children m, c ∈ h.ids :=
  C.enclosed.children

theorem childrenFirst_eq (C : h.Closed) :
    h.childrenFirst = (h.walk h.ids (h.walk [h.top] ⟨[], []⟩)).finished := by
  rw [childrenFirst, if_pos (by simpa using C.top), walkAll_eq_walk C.nodup]

theorem childrenFirst_adds (C : h.Closed) :
    ∃ l, Walk.Adds ⟨[], []⟩ (h.walk h.ids (h.walk [h.top] ⟨[], []⟩)) l ∧ h.childrenFirst = l ∧
      ∀ m, m ∈ l ↔ m ∈ h.ids := by
  obtain ⟨l, H, hl, -⟩ := walk_adds C.children [h.top] (by simpa using C.top) ⟨[], []⟩
  obtain ⟨l', H', hl', hin⟩ := walk_adds C.children h.ids (fun _ => id) (h.walk [h.top] ⟨[], []⟩)
  refine ⟨_, H.trans H', by rw [childrenFirst_eq C, (H.trans H').finished]; rfl, fun m => ?_⟩
  rw [List.mem_append]
  refine ⟨fun hm => hm.elim (hl m) (hl' m), fun hm => ?_⟩
  exact (hin m hm).imp (fun hs => (H.seen.mp hs).resolve_left (by simp)) id

/-- The order lists every module once. -/
theorem nodup_childrenFirst (C : h.Closed) : h.childrenFirst.Nodup := by
  obtain ⟨l, H, e, -⟩ := childrenFirst_adds C
  exact e ▸ H.nodup

theorem mem_childrenFirst (C : h.Closed) : m ∈ h.childrenFirst ↔ m ∈ h.ids := by
  obtain ⟨l, -, e, hl⟩ := childrenFirst_adds C
  rw [e, hl]

/-- The order lists every module behind its children. -/
theorem childrenFirst_ordered {rank : ModuleId → Nat} (C : h.Closed) (R : h.Ranked rank) :
    h.ChildrenFirst h.childrenFirst := by
  rw [childrenFirst_eq C]
  exact (walk_tidy R _ (walk_tidy R _ ⟨.nil, by simp⟩)).ordered

/-- A module in the order is listed once, and behind its children. -/
theorem childrenFirst_split {rank : ModuleId → Nat} {pre post : List ModuleId} (C : h.Closed)
    (R : h.Ranked rank) (e : pre ++ m :: post = h.childrenFirst) :
    m ∉ pre ∧ m ∉ post ∧ m ∈ h.ids ∧ ∀ c ∈ h.children m, c ∈ pre := by
  have hnodup := nodup_childrenFirst C
  rw [← e] at hnodup
  obtain ⟨-, hpost, hdisj⟩ := List.nodup_append.mp hnodup
  refine ⟨fun hm => hdisj _ hm _ List.mem_cons_self rfl, (List.nodup_cons.mp hpost).1, ?_,
    childrenFirst_ordered C R pre m post e.symm⟩
  rw [← mem_childrenFirst C, ← e]
  exact List.mem_append_right _ List.mem_cons_self

/-! ### Hierarchies without a reported cycle -/

theorem mem_lastOccurrences : m ∈ lastOccurrences l ↔ m ∈ l := by
  induction l with
  | nil => rfl
  | cons x l ih =>
    unfold lastOccurrences
    split
    · rename_i hx
      rw [ih, List.mem_cons]
      refine ⟨.inr, ?_⟩
      rintro (rfl | hm)
      · simpa using hx
      · exact hm
    · rw [List.mem_cons, List.mem_cons, ih]

theorem parent_of_lateParent?_eq_none {done rest pre post : List ModuleId} {s : Site}
    (H : h.lateParent? done rest = none) (hrest : rest = pre ++ m :: post) (hs : s ∈ h.uses m) :
    s.parent = m ∨ s.parent ∈ pre ∨ s.parent ∈ done := by
  induction rest generalizing done pre with
  | nil => simp at hrest
  | cons x rest ih =>
    unfold lateParent? at H
    split at H
    · cases H
    · rename_i hf
      cases pre with
      | nil =>
        obtain ⟨rfl, -⟩ := List.cons.inj hrest
        have := List.find?_eq_none.mp hf s hs
        simpa [or_iff_not_imp_left] using this
      | cons y pre =>
        obtain ⟨rfl, hrest'⟩ := List.cons.inj hrest
        rcases ih H hrest' with hp | hp | hp
        · exact .inl hp
        · exact .inr (.inl (List.mem_cons_of_mem _ hp))
        · exact (List.mem_cons.mp hp).elim (fun e => .inr (.inl (e ▸ List.mem_cons_self)))
            fun hp => .inr (.inr hp)

/-- Without a reported cycle, the reversed order of a search ranks the modules. -/
theorem exists_ranked (C : h.Enclosed) (hc : h.cycle? = none) : ∃ rank, h.Ranked rank := by
  obtain ⟨l, H, hl, hin⟩ := walk_adds C.children (lastOccurrences h.ids)
    (fun m hm => mem_lastOccurrences.mp hm) ⟨[], []⟩
  unfold cycle? at hc
  simp only at hc
  split at hc
  · cases hc
  rename_i hself
  have hf : (h.walk (lastOccurrences h.ids) ⟨[], []⟩).finished = l := by simp [H.finished]
  rw [hf] at hc
  have mem : ∀ {m}, m ∈ h.ids → m ∈ l := fun hm =>
    (hin _ (mem_lastOccurrences.mpr hm)).resolve_left (by simp)
  refine ⟨fun m => l.reverse.idxOf m, fun {m c} hmc => ?_, fun m => ?_⟩
  · obtain ⟨e, he, rfl, rfl⟩ := mem_children_iff.mp hmc
    obtain ⟨pre, post, hsplit⟩ := List.append_of_mem (List.mem_reverse.mpr (mem (C.child he)))
    have hnodup := List.nodup_reverse.mpr H.nodup
    rw [hsplit] at hnodup ⊢
    have hne : e.child ∉ pre := fun hm =>
      (List.nodup_append.mp hnodup).2.2 _ hm _ List.mem_cons_self rfl
    have hp : e.parent ∈ pre := by
      have huse : e.toSite ∈ h.uses e.child := mem_uses_iff.mpr ⟨List.mem_map_of_mem he, rfl⟩
      rcases parent_of_lateParent?_eq_none hc hsplit huse with hp | hp | hp
      · have hnone := List.find?_eq_none.mp hself e.parent
          (List.mem_reverse.mpr (H.seen.mpr (.inr (mem (C.parent he)))))
        rw [← hp] at hmc
        simp [hmc] at hnone
      · exact hp
      · cases hp
    rw [List.idxOf_append_of_mem hp, List.idxOf_append_of_notMem hne, List.idxOf_cons_self]
    exact Nat.lt_of_lt_of_le (List.idxOf_lt_length_of_mem hp) (Nat.le_add_right ..)
  · have hlen : l.length ≤ h.ids.length := (List.Nodup.subperm H.nodup hl).length_le
    have := List.idxOf_le_length (l := l.reverse) (a := m)
    simp only [List.length_reverse, ids, List.length_map] at this hlen
    omega

end AnnotatedCircuit.Hierarchy
