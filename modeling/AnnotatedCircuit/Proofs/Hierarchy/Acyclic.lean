import Mathlib.Data.Finset.Card
import Mathlib.Logic.Relation
import AnnotatedCircuit.Proofs.Design.History
import AnnotatedCircuit.Proofs.Hierarchy.Sites

/-!
# Designs without cycles

A hierarchy is acyclic when no module lies below itself. This is the same as a ranking of the
modules, and it is what the search for cycles decides (`Hierarchy.cycle?_eq_none_iff`). So the
hierarchy of every built design without cycles is found (`Hierarchy.ofDesign_of_acyclic`).
-/

namespace AnnotatedCircuit

namespace Hierarchy

variable {h : Hierarchy} {rank : ModuleId → Nat} {m c : ModuleId} {l : List ModuleId}

/-- One module instantiates another, directly or through others. -/
def Above (h : Hierarchy) : ModuleId → ModuleId → Prop :=
  Relation.TransGen fun a b => b ∈ h.children a

/-- No module lies below itself. -/
def Acyclic (h : Hierarchy) : Prop := ∀ m, ¬ h.Above m m

theorem Ranked.lt_of_above (R : h.Ranked rank) (A : h.Above m c) : rank m < rank c := by
  induction A with
  | single hc => exact R.lt hc
  | tail _ hc ih => exact Nat.lt_trans ih (R.lt hc)

theorem Ranked.acyclic (R : h.Ranked rank) : h.Acyclic := fun _ A =>
  Nat.lt_irrefl _ (R.lt_of_above A)

open Classical in
/-- The modules above a module. -/
noncomputable def above (h : Hierarchy) (m : ModuleId) : Finset ModuleId :=
  h.ids.toFinset.filter (h.Above · m)

theorem mem_above_iff {a : ModuleId} : a ∈ h.above m ↔ a ∈ h.ids ∧ h.Above a m := by
  classical simp [above]

/-- Without cycles, every module has more modules above it than its parents have. -/
theorem Acyclic.exists_ranked (A : h.Acyclic) (C : h.Enclosed) : ∃ rank, h.Ranked rank := by
  refine ⟨fun m => (h.above m).card, fun {m c} hc => Finset.card_lt_card ?_, fun m => ?_⟩
  · rw [Finset.ssubset_iff_of_subset]
    · obtain ⟨e, he, rfl, -⟩ := mem_children_iff.mp hc
      exact ⟨e.parent, mem_above_iff.mpr ⟨C.parent he, .single hc⟩,
        fun hm => A _ (mem_above_iff.mp hm).2⟩
    · intro a ha
      obtain ⟨hid, ha⟩ := mem_above_iff.mp ha
      exact mem_above_iff.mpr ⟨hid, .tail ha hc⟩
  · calc (h.above m).card ≤ h.ids.toFinset.card :=
          Finset.card_le_card fun a ha => List.mem_toFinset.mpr (mem_above_iff.mp ha).1
      _ ≤ h.ids.length := List.toFinset_card_le _
      _ = h.modules.length := List.length_map ..

/-! ### The search for cycles -/

theorem lateParent?_eq_none {done rest : List ModuleId}
    (early : ∀ pre m post, rest = pre ++ m :: post → ∀ s ∈ h.uses m,
      s.parent ∈ pre ∨ s.parent ∈ done) : h.lateParent? done rest = none := by
  induction rest generalizing done with
  | nil => rfl
  | cons m rest ih =>
    have now : (h.uses m).find? (fun s => !(m :: done).contains s.parent) = none := by
      rw [List.find?_eq_none]
      intro s hs
      have := (early [] m rest rfl s hs).resolve_left List.not_mem_nil
      simp [this]
    rw [lateParent?, now]
    refine ih fun pre m' post e s hs => ?_
    rcases early (m :: pre) m' post (by rw [e, List.cons_append]) s hs with hp | hp
    · exact (List.mem_cons.mp hp).elim (fun e => .inr (e ▸ List.mem_cons_self)) .inl
    · exact .inr (List.mem_cons_of_mem _ hp)

/-- In the reverse of an order with every child in front, every parent is in front. -/
theorem ChildrenFirst.parent_mem (H : h.ChildrenFirst l) (nodup : l.Nodup)
    (all : ∀ {e}, e ∈ h.edges → e.parent ∈ l) {pre post : List ModuleId} {s : Site}
    (e : l.reverse = pre ++ m :: post) (hs : s ∈ h.uses m) : s.parent ∈ pre := by
  have split : l = post.reverse ++ m :: pre.reverse := by
    rw [← List.reverse_reverse l, e]
    simp
  obtain ⟨hsite, rfl⟩ := mem_uses_iff.mp hs
  obtain ⟨edge, hedge, rfl⟩ := List.mem_map.mp hsite
  have child : edge.child ∈ h.children edge.parent := mem_children_iff.mpr ⟨edge, hedge, rfl, rfl⟩
  obtain ⟨_, nodup', disjoint⟩ := List.nodup_append.mp (split ▸ nodup)
  have hp := split ▸ all hedge
  rcases List.mem_append.mp hp with hp | hp
  · -- A parent behind its child in this order has the child twice in the list.
    obtain ⟨a, b, hab⟩ := List.append_of_mem hp
    have hc := H a edge.parent (b ++ edge.child :: pre.reverse) (by rw [split, hab]; simp) _ child
    exact absurd rfl (disjoint _ (hab ▸ List.mem_append_left _ hc) _ List.mem_cons_self)
  · rcases List.mem_cons.mp hp with hp | hp
    · have hc := H post.reverse edge.child pre.reverse split _ (hp ▸ child)
      exact absurd rfl (disjoint _ hc _ List.mem_cons_self)
    · exact List.mem_reverse.mp hp

theorem Ranked.cycle?_eq_none (R : h.Ranked rank) (C : h.Enclosed) : h.cycle? = none := by
  obtain ⟨l, H, -, hin⟩ := walk_adds C.children (lastOccurrences h.ids)
    (fun m hm => mem_lastOccurrences.mp hm) ⟨[], []⟩
  have T : Walk.Tidy h rank 0 (h.walk (lastOccurrences h.ids) ⟨[], []⟩) :=
    walk_tidy R _ ⟨.nil, by simp⟩
  have hf : (h.walk (lastOccurrences h.ids) ⟨[], []⟩).finished = l := by simp [H.finished]
  have self : ((h.walk (lastOccurrences h.ids) ⟨[], []⟩).seen.reverse.find? fun m =>
      (h.children m).contains m) = none := by
    rw [List.find?_eq_none]
    intro m _ hm
    exact Nat.lt_irrefl _ (R.lt (List.contains_iff_mem.mp hm))
  unfold cycle?
  simp only [self]
  rw [hf]
  refine lateParent?_eq_none fun pre m post e s hs => .inl ?_
  refine (hf ▸ T.ordered).parent_mem H.nodup (fun he => ?_) e hs
  exact (hin _ (mem_lastOccurrences.mpr (C.parent he))).resolve_left (by simp)

/-- The search reports a cycle exactly where there is one. -/
theorem cycle?_eq_none_iff (C : h.Enclosed) : h.cycle? = none ↔ h.Acyclic := by
  constructor
  · intro hc
    obtain ⟨rank, R⟩ := exists_ranked C hc
    exact R.acyclic
  · intro A
    obtain ⟨rank, R⟩ := A.exists_ranked C
    exact R.cycle?_eq_none C

end Hierarchy

namespace Design

variable {d d' : Design} {m c : ModuleId}

/-! ### Built designs -/

/-- A change keeps the modules, and its instances instantiate what was mentioned before. -/
theorem mentions_of_change (H : d.Coherent) (h : d.Change d') :
    (∀ c x, d.module? c = some x → ∃ y, d'.module? c = some y) ∧
      ∀ o op c, d'.op? o = some op → op.kind.child? = some c → d.Mentions c := by
  cases h with
  | none | notes | anchor => exact ⟨fun _ x hx => ⟨x, hx⟩, fun o op _ ho hc => .inr ⟨o, op, ho, hc⟩⟩
  | module =>
    refine ⟨fun c x hx => ⟨x, ?_⟩, fun o op _ ho hc => .inr ⟨o, op, ho, hc⟩⟩
    exact (List.getElem?_append_left (Coherent.module_index_lt hx)).trans hx
  | ports =>
    refine ⟨fun c x hx => ?_, fun o op _ ho hc => .inr ⟨o, op, ho, hc⟩⟩
    exact (exists_module?_enterPorts hx ..).imp fun _ => And.left
  | op _ _ _ _ _ known _ =>
    refine ⟨fun c x hx => (exists_module?_addOp hx ..).imp fun _ => And.left, ?_⟩
    intro o op c ho hc
    rcases op?_addOp_cases ho with ⟨-, rfl⟩ | ho
    · exact known c hc
    · exact .inr ⟨o, op, ho, hc⟩
  | uses found =>
    refine ⟨fun _ x hx => ⟨x, hx⟩, fun o op c ho hc => ?_⟩
    rw [op?_redirected (H.nodup_body found)] at ho
    split at ho
    · obtain ⟨op₀, ho₀, rfl⟩ := Option.map_eq_some_iff.mp ho
      exact .inr ⟨o, op₀, ho₀, by simpa [Op.rebind] using hc⟩
    · exact .inr ⟨o, op, ho, hc⟩
  | removal =>
    refine ⟨fun c x hx => (exists_module?_withoutOp hx ..).imp fun _ => And.left, ?_⟩
    exact fun o op _ ho hc => .inr ⟨o, op, (op?_withoutOp_cases ho).2, hc⟩

theorem ChildrenKnown.change (K : d.ChildrenKnown) (H : d.Coherent) (h : d.Change d') :
    d'.ChildrenKnown := by
  intro o op c ho hc
  obtain ⟨kept, mentions⟩ := mentions_of_change H h
  rcases mentions o op c ho hc with ⟨x, hx⟩ | ⟨o', op', ho', hc'⟩
  · exact kept c x hx
  · obtain ⟨x, hx⟩ := K ho' hc'
    exact kept c x hx

theorem Built.childrenKnown (H : d.Built) : d.ChildrenKnown := by
  induction H with
  | new name => exact fun ho _ => by simp at ho
  | call c H ih => exact ih.change H.coherent (change_call _ c)

/-! ### Acyclic designs -/

/-- The body of one module holds an instance of the other. -/
def Instantiates (d : Design) (m c : ModuleId) : Prop :=
  ∃ x o op, d.module? m = some x ∧ o ∈ x.body ∧ d.op? o = some op ∧ op.kind.child? = some c

/-- No module instantiates itself, directly or through others. -/
def Acyclic (d : Design) : Prop := ∀ m, ¬ Relation.TransGen d.Instantiates m m

theorem instantiates_iff (H : d.Coherent) : d.Instantiates m c ↔ c ∈ d.hierarchy.children m := by
  have : c ∈ d.hierarchy.children m ↔ ∃ s ∈ d.sites, s.parent = m ∧ s.child = c := by
    simp [Hierarchy.mem_children_iff, Design.hierarchy]
  rw [this]
  constructor
  · rintro ⟨x, o, op, hx, ho, hop, hc⟩
    obtain ⟨op', hop', rfl⟩ := (H.mem_body hx).mp ho
    obtain rfl := Option.some.inj (hop.symm.trans hop')
    exact ⟨⟨o, op.parent, c⟩, (mem_sites_iff H).mpr ⟨op, hop, rfl, hc⟩, rfl, rfl⟩
  · rintro ⟨s, hs, rfl, rfl⟩
    obtain ⟨op, hop, hp, hc⟩ := (mem_sites_iff H).mp hs
    obtain ⟨x, hx⟩ := H.parent_module hop
    rw [hp] at hx
    exact ⟨x, s.op, op, hx, (H.mem_body hx).mpr ⟨op, hop, hp⟩, hop, hc⟩

theorem acyclic_hierarchy_iff (H : d.Coherent) : d.hierarchy.Acyclic ↔ d.Acyclic := by
  have : d.Instantiates = fun a b => b ∈ d.hierarchy.children a := by
    funext m c
    exact propext (instantiates_iff H)
  rw [Acyclic, this]
  rfl

theorem acyclic_iff (H : d.Coherent) (K : d.ChildrenKnown) :
    d.Acyclic ↔ d.hierarchy.cycle? = none := by
  rw [← acyclic_hierarchy_iff H, Hierarchy.cycle?_eq_none_iff (closed_hierarchy H K).enclosed]

end Design

namespace Hierarchy

variable {d : Design}

open Design

theorem ofDesign_of_acyclic (H : d.Built) (A : d.Acyclic) : ofDesign d = .ok d.hierarchy := by
  have C := H.coherent
  have K : d.ChildrenKnown := H.childrenKnown
  exact (ofDesign_eq_ok_iff C).mpr ⟨K, (acyclic_iff C K).mp A, rfl⟩

end Hierarchy

end AnnotatedCircuit
