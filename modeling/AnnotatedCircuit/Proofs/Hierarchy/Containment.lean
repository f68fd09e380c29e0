import AnnotatedCircuit.Proofs.Hierarchy.Answers

/-!
# Instances that lie under a module

Whether instances lie under a module is found out by climbing (`Hierarchy.climb`): an instance that
was not looked at before is taken from the work, and the instances of the module that holds it are
added. The answer does not depend on the order of the work, and it is always found
(`Hierarchy.exists_climbs`). It is right for every chain of modules upwards if the edges of one
instance lie in one module (`Hierarchy.allUnder_exact`). Where they do not, the chains through all
edges but the one that a look-up finds are missed.
-/

namespace AnnotatedCircuit.Hierarchy

variable {h : Hierarchy} {m a b : ModuleId} {o o' : OpId} {s : Site} {n : Nat}
  {arrange : List OpId → List OpId} {work seen : List OpId}

/-- The state between two turns of the climb. -/
structure Climb where
  /-- The instances to look at, the next one first. -/
  work : List OpId
  /-- The instances looked at, the last one first. -/
  seen : List OpId

/-- One turn of the climb up to `m`. It gives the answer or adds instances to the work. -/
def climb (h : Hierarchy) (m : ModuleId) (arrange : List OpId → List OpId) : Climb → Bool ⊕ Climb
  | ⟨[], _⟩ => .inl true
  | ⟨o :: work, seen⟩ =>
    if o ∈ seen then .inr ⟨work, seen⟩
    else match h.site? o with
      | none => .inl false
      | some s =>
        if s.parent = m then .inr ⟨work, o :: seen⟩
        else match h.uses s.parent with
          | [] => .inl false
          | us => .inr ⟨arrange (us.map Site.op) ++ work, o :: seen⟩

/-- The turns of a climb. -/
abbrev Climbs (h : Hierarchy) (m : ModuleId) (arrange : List OpId → List OpId) :
    Climb → Climb → Prop :=
  Relation.ReflTransGen fun c c' => h.climb m arrange c = .inr c'

/-! ### What the answer says of instances -/

/-- The module that holds the first instance is not `m`, and the second one is an instance of it. -/
def Ascends (h : Hierarchy) (m : ModuleId) (o o' : OpId) : Prop :=
  ∃ s, h.site? o = some s ∧ s.parent ≠ m ∧ ∃ u ∈ h.uses s.parent, u.op = o'

/-- The module that holds the instance is `m`, or there are instances of it. -/
def Held (h : Hierarchy) (m : ModuleId) (o : OpId) : Prop :=
  ∃ s, h.site? o = some s ∧ (s.parent = m ∨ h.uses s.parent ≠ [])

/-- The climb from an instance gets to `m` on all ways. -/
def Under (h : Hierarchy) (m : ModuleId) (o : OpId) : Prop :=
  ∀ o', Relation.ReflTransGen (h.Ascends m) o o' → h.Held m o'

theorem Under.held (U : h.Under m o) : h.Held m o := U o .refl

theorem Under.ascends (U : h.Under m o) (up : h.Ascends m o o') : h.Under m o' :=
  fun _ way => U _ (.head up way)

theorem Held.under (H : h.Held m o) (up : ∀ o', h.Ascends m o o' → h.Under m o') :
    h.Under m o := by
  intro o' way
  rcases Relation.ReflTransGen.cases_head way with rfl | ⟨x, first, rest⟩
  · exact H
  · exact up x first o' rest

/-- What was looked at is held, and what comes above it was looked at or will be. -/
def Climb.Sound (h : Hierarchy) (m : ModuleId) (c : Climb) : Prop :=
  ∀ o ∈ c.seen, h.Held m o ∧ ∀ o', h.Ascends m o o' → o' ∈ c.seen ∨ o' ∈ c.work

/-- What was looked at is under `m` if the work is. -/
theorem Climb.Sound.under {c : Climb} (S : c.Sound h m) (hw : ∀ o ∈ c.work, h.Under m o) :
    ∀ o ∈ c.seen, h.Under m o := by
  intro o ho o' way
  induction way using Relation.ReflTransGen.head_induction_on with
  | refl => exact (S _ ho).1
  | head up rest ih =>
    rcases (S _ ho).2 _ up with hs | hw'
    · exact ih hs
    · exact hw _ hw' _ rest

/-! ### The turns -/

theorem under_of_answer {c : Climb} {r : Bool} (hr : h.climb m arrange c = .inl r) :
    r = true ↔ ∀ o ∈ c.work, h.Under m o := by
  obtain ⟨work, seen⟩ := c
  cases work with
  | nil =>
    cases hr
    simp
  | cons o work =>
    rw [climb] at hr
    split at hr
    · cases hr
    suffices lost : r = false ∧ ¬ h.Held m o by
      rw [lost.1]
      exact iff_of_false Bool.false_ne_true fun U => lost.2 (U o List.mem_cons_self).held
    split at hr
    · rename_i hs
      cases hr
      exact ⟨rfl, fun ⟨s, hs', _⟩ => nomatch hs.symm.trans hs'⟩
    · rename_i s hs
      split at hr
      · cases hr
      · rename_i hp
        split at hr
        · rename_i hu
          cases hr
          refine ⟨rfl, fun ⟨s', hs', held⟩ => ?_⟩
          obtain rfl := Option.some.inj (hs.symm.trans hs')
          exact held.elim hp fun used => used hu
        · cases hr

/-- The instances behind the edges. -/
def ops (h : Hierarchy) : Finset OpId := (h.sites.map Site.op).toFinset

/-- A bound for the number of turns. -/
def toClimb (h : Hierarchy) (c : Climb) : Nat :=
  c.work.length + (h.ops \ c.seen.toFinset).card * h.edges.length

theorem length_uses_le (h : Hierarchy) (m : ModuleId) : (h.uses m).length ≤ h.edges.length := by
  rw [uses, List.length_map]
  exact List.length_filter_le ..

theorem card_ops_enter (hs : h.site? o = some s) (new : o ∉ seen) :
    (h.ops \ (o :: seen).toFinset).card + 1 ≤ (h.ops \ seen.toFinset).card := by
  obtain ⟨hsite, rfl⟩ := site?_eq_some hs
  have : h.ops \ (s.op :: seen).toFinset = (h.ops \ seen.toFinset).erase s.op := by
    simp [Finset.sdiff_insert]
  rw [this]
  refine Nat.succ_le_of_lt (Finset.card_erase_lt_of_mem ?_)
  rw [Finset.mem_sdiff, ops, List.mem_toFinset, List.mem_toFinset]
  exact ⟨List.mem_map_of_mem hsite, new⟩

/-- What a turn does that gives no answer. -/
structure Climb.Turned (h : Hierarchy) (m : ModuleId) (c c' : Climb) : Prop where
  sound : c'.Sound h m
  under : (∀ o ∈ c'.work, h.Under m o) ↔ ∀ o ∈ c.work, h.Under m o
  less : h.toClimb c' < h.toClimb c

/-- An instance that was looked at before is left out. -/
theorem Climb.Sound.skip (S : Climb.Sound h m ⟨o :: work, seen⟩) (old : o ∈ seen) :
    Climb.Turned h m ⟨o :: work, seen⟩ ⟨work, seen⟩ := by
  have S' : Climb.Sound h m ⟨work, seen⟩ := by
    refine fun x hx => ⟨(S x hx).1, fun x' up => ?_⟩
    rcases (S x hx).2 x' up with hs | hw
    · exact .inl hs
    rcases List.mem_cons.mp hw with rfl | hw
    · exact .inl old
    · exact .inr hw
  refine ⟨S', ?_, by simp [toClimb]⟩
  rw [List.forall_mem_cons, iff_and_self]
  exact fun U => S'.under U o old

/-- The work goes on with what comes above a new instance, in any order. -/
theorem Climb.Sound.enter {up : List OpId} (S : Climb.Sound h m ⟨o :: work, seen⟩)
    (new : o ∉ seen) (held : h.Held m o) (above : ∀ x, x ∈ up ↔ h.Ascends m o x)
    (few : up.length ≤ h.edges.length) :
    Climb.Turned h m ⟨o :: work, seen⟩ ⟨up ++ work, o :: seen⟩ := by
  refine ⟨fun x hx => ?_, ?_, ?_⟩
  · rcases List.mem_cons.mp hx with rfl | hx
    · exact ⟨held, fun x' hu => .inr (List.mem_append_left _ ((above x').mpr hu))⟩
    · refine ⟨(S x hx).1, fun x' hu => ?_⟩
      rcases (S x hx).2 x' hu with hs | hw
      · exact .inl (List.mem_cons_of_mem _ hs)
      rcases List.mem_cons.mp hw with rfl | hw
      · exact .inl List.mem_cons_self
      · exact .inr (List.mem_append_right _ hw)
  · rw [List.forall_mem_append, List.forall_mem_cons, and_congr_left_iff]
    exact fun _ => ⟨fun U => held.under fun x hx => U x ((above x).mpr hx),
      fun U x hx => U.ascends ((above x).mp hx)⟩
  · obtain ⟨s, hs, -⟩ := held
    have := Nat.mul_le_mul_right h.edges.length (card_ops_enter hs new)
    rw [Nat.succ_mul] at this
    simp only [toClimb, List.length_append, List.length_cons]
    omega

theorem Climb.Sound.turned {c c' : Climb} (S : c.Sound h m) (perm : ∀ l, (arrange l).Perm l)
    (hc : h.climb m arrange c = .inr c') : c.Turned h m c' := by
  obtain ⟨work, seen⟩ := c
  cases work with
  | nil => cases hc
  | cons o work =>
    rw [climb] at hc
    split at hc
    · cases hc
      exact S.skip ‹_›
    rename_i new
    split at hc
    · cases hc
    rename_i s hs
    split at hc
    · -- the instance is in `m` itself, so nothing comes above it
      rename_i hp
      cases hc
      have above : ∀ x, x ∈ [] ↔ h.Ascends m o x := by
        refine fun x => iff_of_false List.not_mem_nil ?_
        rintro ⟨s', hs', hp', -⟩
        obtain rfl := Option.some.inj (hs.symm.trans hs')
        exact hp' hp
      exact S.enter new ⟨s, hs, .inl hp⟩ above (Nat.zero_le _)
    · rename_i hp
      split at hc
      · cases hc
      · rename_i hu
        cases hc
        refine S.enter new ⟨s, hs, .inr hu⟩ (fun x => ?_) ?_
        · rw [(perm _).mem_iff, List.mem_map]
          refine ⟨fun found => ⟨s, hs, hp, found⟩, ?_⟩
          rintro ⟨s', hs', -, found⟩
          obtain rfl := Option.some.inj (hs.symm.trans hs')
          exact found
        · rw [(perm _).length_eq, List.length_map]
          exact h.length_uses_le _

/-- Every climb comes to an answer, and that is whether the work lies under `m`. -/
theorem exists_climbs {c : Climb} (S : c.Sound h m) (perm : ∀ l, (arrange l).Perm l) :
    ∃ c' r, h.Climbs m arrange c c' ∧ h.climb m arrange c' = .inl r ∧
      (r = true ↔ ∀ o ∈ c.work, h.Under m o) := by
  generalize hn : h.toClimb c = n
  induction n using Nat.strongRecOn generalizing c with
  | ind n ih =>
    cases hc : h.climb m arrange c with
    | inl r => exact ⟨c, r, .refl, hc, under_of_answer hc⟩
    | inr c₁ =>
      have T := S.turned perm hc
      obtain ⟨c', r, run, hr, under⟩ := ih _ (hn ▸ T.less) T.sound rfl
      exact ⟨c', r, .head hc run, hr, under.trans T.under⟩

/-! ### The answer -/

theorem sweep_succ (h : Hierarchy) (m : ModuleId) (n : Nat) (c : Climb) :
    h.sweep m (n + 1) c.work c.seen =
      (h.climb m id c).elim id fun c' => h.sweep m n c'.work c'.seen := by
  obtain ⟨work, seen⟩ := c
  cases work with
  | nil => rfl
  | cons o work =>
    simp only [sweep, climb, List.contains_iff_mem]
    split
    · rfl
    cases h.site? o with
    | none => rfl
    | some s =>
      dsimp only
      split
      · rfl
      · cases h.uses s.parent <;> rfl

theorem sweep_iff {c : Climb} (S : c.Sound h m) (hn : h.toClimb c ≤ n) :
    h.sweep m n c.work c.seen = true ↔ ∀ o ∈ c.work, h.Under m o := by
  induction n generalizing c with
  | zero =>
    have : c.work = [] := List.length_eq_zero_iff.mp (by unfold toClimb at hn; omega)
    rw [this]
    exact iff_of_true (by rw [sweep]) (by simp)
  | succ n ih =>
    rw [sweep_succ]
    cases hc : h.climb m id c with
    | inl r => exact under_of_answer hc
    | inr c' =>
      have T := S.turned (fun _ => .refl _) hc
      have := T.less
      exact (ih T.sound (by omega)).trans T.under

theorem allUnder_iff {os : List OpId} : h.allUnder os m = true ↔ ∀ o ∈ os, h.Under m o := by
  refine sweep_iff (c := ⟨os, []⟩) nofun ?_
  have : h.ops.card ≤ h.edges.length :=
    (List.toFinset_card_le _).trans_eq (by simp [sites])
  simpa [toClimb] using Nat.mul_le_mul_right _ this

/-! ### Chains of modules -/

/-- A chain of modules leads from the first one up to the second, each of them used by the next, and
none of them is `m`. -/
inductive Rises (h : Hierarchy) (m : ModuleId) : ModuleId → ModuleId → Prop where
  | here {a : ModuleId} (other : a ≠ m) : Rises h m a a
  | up {a b : ModuleId} {u : Site} (below : Rises h m a b) (used : u ∈ h.uses b)
    (other : u.parent ≠ m) : Rises h m a u.parent

theorem Rises.other (R : h.Rises m a b) : b ≠ m := by
  cases R <;> assumption

/-- A look-up of an instance finds the module that holds it, whatever edge it is taken from. -/
def Located (h : Hierarchy) : Prop :=
  ∀ u ∈ h.sites, ∃ s, h.site? u.op = some s ∧ s.parent = u.parent

theorem Plain.located (P : h.Plain) : h.Located := fun u hu => ⟨u, P.site?_eq hu, rfl⟩

theorem under_iff (L : h.Located) :
    h.Under m o ↔ ∃ s, h.site? o = some s ∧ ∀ a, h.Rises m s.parent a → h.uses a ≠ [] := by
  constructor
  · intro U
    obtain ⟨s, hs, -⟩ := U.held
    refine ⟨s, hs, fun a R => ?_⟩
    obtain ⟨o', s', U', hs', rfl⟩ : ∃ o' s', h.Under m o' ∧ h.site? o' = some s' ∧
        s'.parent = a := by
      induction R with
      | here => exact ⟨o, s, U, hs, rfl⟩
      | @up b u R used other ih =>
        obtain ⟨o', s', U', hs', rfl⟩ := ih
        obtain ⟨s'', hs'', hp⟩ := L u (mem_uses_iff.mp used).1
        exact ⟨u.op, s'', U'.ascends ⟨s', hs', R.other, u, used, rfl⟩, hs'', hp⟩
    obtain ⟨s'', hs'', held⟩ := U'.held
    obtain rfl := Option.some.inj (hs'.symm.trans hs'')
    exact held.resolve_left R.other
  · rintro ⟨s, hs, used⟩ o' way
    obtain ⟨s', hs', at'⟩ : ∃ s', h.site? o' = some s' ∧
        (s'.parent = m ∨ h.Rises m s.parent s'.parent) := by
      induction way with
      | refl => exact ⟨s, hs, or_iff_not_imp_left.mpr .here⟩
      | tail _ up ih =>
        obtain ⟨s₁, hs₁, other, u, hu, rfl⟩ := up
        obtain ⟨s', hs', at'⟩ := ih
        obtain rfl := Option.some.inj (hs₁.symm.trans hs')
        obtain ⟨s'', hs'', hp⟩ := L u (mem_uses_iff.mp hu).1
        exact ⟨s'', hs'', hp ▸ or_iff_not_imp_left.mpr ((at'.resolve_left other).up hu)⟩
    exact ⟨s', hs', at'.imp_right (used _)⟩

/-- With instances taken from the end of the work, and added there in the order of the edges, the
climb always comes to an answer. It is whether the look-ups of instances lead from each of them to
`m` on all ways. If the edges of one instance lie in one module, this says that every instance has
an edge and no chain of modules upwards from the module that holds it ends without meeting `m`. -/
theorem allUnder_exact (h : Hierarchy) (os : List OpId) (m : ModuleId) :
    (∃ c, h.Climbs m List.reverse ⟨os.reverse, []⟩ c ∧
      h.climb m List.reverse c = .inl (h.allUnder os m)) ∧
    (h.allUnder os m = true ↔ ∀ o ∈ os, h.Under m o) ∧
    (h.Located → (h.allUnder os m = true ↔ ∀ o ∈ os, ∃ s, h.site? o = some s ∧
      ∀ a, h.Rises m s.parent a → h.uses a ≠ [])) := by
  refine ⟨?_, allUnder_iff, fun L => allUnder_iff.trans (forall₂_congr fun _ _ => under_iff L)⟩
  obtain ⟨c, r, run, hr, under⟩ :=
    exists_climbs (h := h) (m := m) (c := ⟨os.reverse, []⟩) nofun List.reverse_perm
  have same : r = h.allUnder os m := by
    rw [Bool.eq_iff_iff, under, allUnder_iff]
    simp
  exact ⟨c, run, same ▸ hr⟩

theorem allUnder_exact_manyPaths : PathTable.manyPaths.hierarchy.Located ∧
    PathTable.manyPaths.hierarchy.allUnder [⟨2⟩] ⟨0⟩ = true ∧
    (∃ s, PathTable.manyPaths.hierarchy.site? ⟨2⟩ = some s ∧
      ∀ a, PathTable.manyPaths.hierarchy.Rises ⟨0⟩ s.parent a →
        PathTable.manyPaths.hierarchy.uses a ≠ []) ∧
    PathTable.manyPaths.hierarchy.allUnder [⟨2⟩, ⟨1⟩] ⟨1⟩ = false := by
  have H : PathTable.manyPaths.Built := (Design.Built.new "Top").edited _
  have L := (Design.plain_hierarchy H.coherent).located
  have under : PathTable.manyPaths.hierarchy.allUnder [⟨2⟩] ⟨0⟩ = true := by decide +kernel
  exact ⟨L, under, ((allUnder_exact _ [⟨2⟩] ⟨0⟩).2.2 L).mp under ⟨2⟩ List.mem_cons_self,
    by decide +kernel⟩

/-- The top module and `B` hold the same instance of `A`, and a look-up finds it in `B`. -/
def heldTwice : Design :=
  { Design.new "Top" with
    modules := [⟨⟨0⟩, "Top", .defined, [], [⟨0⟩, ⟨2⟩]⟩, ⟨⟨1⟩, "A", .defined, [], [⟨3⟩]⟩,
      ⟨⟨2⟩, "B", .defined, [], [⟨1⟩]⟩, .empty ⟨3⟩ "Leaf" .defined]
    ops := [some ⟨⟨0⟩, ⟨0⟩, .inst "a" ⟨1⟩, []⟩, some ⟨⟨0⟩, ⟨2⟩, .inst "a" ⟨1⟩, []⟩,
      some ⟨⟨2⟩, ⟨0⟩, .inst "b" ⟨2⟩, []⟩, some ⟨⟨3⟩, ⟨1⟩, .inst "l" ⟨3⟩, []⟩] }

-- The chain from `A` straight to the top module, which nothing uses, does not meet `B`.
example : (Hierarchy.ofDesign heldTwice).map (fun h =>
      (h.allUnder [⟨3⟩] ⟨2⟩, (h.site? ⟨3⟩).map Site.parent, (h.uses ⟨1⟩).map Site.parent,
        h.uses ⟨0⟩)) =
    .ok (true, some ⟨1⟩, [⟨0⟩, ⟨2⟩], []) := by decide +kernel

end AnnotatedCircuit.Hierarchy
