import Mathlib.Data.List.Induction
import AnnotatedCircuit.Proofs.Hierarchy.Replacement

/-!
# Trails

A trail lists the instances on a way down through a hierarchy. In a ranked hierarchy the modules
that it passes are distinct. Where a module has a single trail from the top, so has every module
on it, and no instance but those of the trail leads from a module that can be reached into a module
of the trail (`Sole.mem_of_child`).
-/

namespace AnnotatedCircuit.Hierarchy

variable {h : Hierarchy} {rank : ModuleId → Nat} {a b m : ModuleId} {s : Site}
  {ss ts qs : List Site} {p : InstPath}

/-- The instances of a way down from one module to another. -/
inductive Trail (h : Hierarchy) : ModuleId → List Site → ModuleId → Prop where
  | nil (m : ModuleId) : Trail h m [] m
  | cons {s : Site} {ss : List Site} {m : ModuleId} (site : s ∈ h.sites)
    (rest : Trail h s.child ss m) : Trail h s.parent (s :: ss) m

namespace Trail

theorem eq_of_nil (T : h.Trail a [] b) : a = b := by
  cases T
  rfl

theorem append (T : h.Trail a ss b) (T' : h.Trail b ts m) : h.Trail a (ss ++ ts) m := by
  induction T with
  | nil => exact T'
  | cons site _ ih => exact .cons site (ih T')

theorem split (T : h.Trail a (ss ++ ts) m) : ∃ b, h.Trail a ss b ∧ h.Trail b ts m := by
  induction ss generalizing a with
  | nil => exact ⟨a, .nil a, T⟩
  | cons s ss ih =>
    cases T with
    | cons site rest =>
      obtain ⟨b, T₁, T₂⟩ := ih rest
      exact ⟨b, .cons site T₁, T₂⟩

theorem concat (T : h.Trail a ss s.parent) (site : s ∈ h.sites) :
    h.Trail a (ss ++ [s]) s.child := T.append (.cons site (.nil _))

theorem of_concat (T : h.Trail a (ss ++ [s]) m) :
    h.Trail a ss s.parent ∧ s ∈ h.sites ∧ m = s.child := by
  obtain ⟨b, T₁, T₂⟩ := T.split
  cases T₂ with
  | cons site rest => exact ⟨T₁, site, rest.eq_of_nil.symm⟩

theorem sites (T : h.Trail a ss b) : ∀ s ∈ ss, s ∈ h.sites := by
  induction T with
  | nil => exact nofun
  | cons site _ ih => exact List.forall_mem_cons.mpr ⟨site, ih⟩

theorem end_mem (C : h.Closed) (T : h.Trail h.top ss m) : m ∈ h.ids := by
  rcases List.eq_nil_or_concat ss with rfl | ⟨ss, s, rfl⟩
  · exact T.eq_of_nil ▸ C.top
  · rw [List.concat_eq_append] at T
    obtain ⟨-, site, rfl⟩ := T.of_concat
    obtain ⟨e, he, rfl⟩ := List.mem_map.mp site
    exact C.child he

/-- The modules that a trail passes, seen from either end of its instances. -/
theorem passed (T : h.Trail a ss b) : ss.map Site.parent ++ [b] = a :: ss.map Site.child := by
  induction T with
  | nil => rfl
  | cons _ _ ih => rw [List.map_cons, List.cons_append, ih, List.map_cons]

theorem end_eq (T : h.Trail a ss b) (T' : h.Trail a ss m) : b = m := by
  have := T.passed.trans T'.passed.symm
  simpa using this

/-- A trail leads to ever higher ranks. -/
theorem ascending (R : h.Ranked rank) (T : h.Trail a ss b) :
    (a :: ss.map Site.child).Pairwise fun m m' => rank m < rank m' := by
  induction T with
  | nil => exact List.pairwise_singleton ..
  | cons site _ ih =>
    have hlt := R.lt_site site
    refine List.pairwise_cons.mpr ⟨fun m hm => ?_, ih⟩
    rcases List.mem_cons.mp hm with rfl | hm
    · exact hlt
    · exact Nat.lt_trans hlt ((List.pairwise_cons.mp ih).1 m hm)

theorem nodup_passed (R : h.Ranked rank) (T : h.Trail a ss b) : (a :: ss.map Site.child).Nodup :=
  (T.ascending R).imp fun hlt e => Nat.ne_of_lt hlt (congrArg rank e)

theorem nodup_parents (R : h.Ranked rank) (T : h.Trail a ss b) : (ss.map Site.parent).Nodup := by
  have := T.nodup_passed R
  rw [← T.passed] at this
  exact (List.nodup_append.mp this).1

theorem route (T : h.Trail h.top ss m) : h.Route (ss.map Site.op) m := by
  induction ss using List.reverseRecOn generalizing m with
  | nil => exact T.eq_of_nil ▸ .top
  | append_singleton ss s ih =>
    obtain ⟨T', site, rfl⟩ := T.of_concat
    rw [List.map_append]
    exact .step (ih T') site

end Trail

theorem Route.exists_trail (H : h.Route p m) : ∃ ss, h.Trail h.top ss m ∧ ss.map Site.op = p := by
  induction H with
  | top => exact ⟨[], .nil _, rfl⟩
  | step _ site ih =>
    obtain ⟨ss, T, rfl⟩ := ih
    exact ⟨_, T.concat site, by simp⟩

/-! ### Modules with a single path -/

/-- The only trail from the top to a module. -/
structure Sole (h : Hierarchy) (ss : List Site) (m : ModuleId) : Prop where
  trail : h.Trail h.top ss m
  only : ∀ ts, h.Trail h.top ts m → ts = ss

theorem Plain.sites_eq (P : h.Plain) (hs : ∀ s ∈ ss, s ∈ h.sites) (ht : ∀ t ∈ ts, t ∈ h.sites)
    (e : ss.map Site.op = ts.map Site.op) : ss = ts := by
  induction ss generalizing ts with
  | nil => simpa using e.symm
  | cons s ss ih =>
    cases ts with
    | nil => cases e
    | cons t ts =>
      obtain ⟨hop, e⟩ := List.cons.inj e
      obtain ⟨hs₁, hs⟩ := List.forall_mem_cons.mp hs
      obtain ⟨ht₁, ht⟩ := List.forall_mem_cons.mp ht
      rw [P.site_eq hs₁ ht₁ hop, ih hs ht e]

theorem exists_sole (R : h.Ranked rank) (P : h.Plain) (hp : h.pathsTo m = [p]) :
    ∃ ss, h.Sole ss m ∧ ss.map Site.op = p := by
  have route : ∀ {q}, h.Route q m ↔ q = p := by
    intro q
    rw [← mem_pathsTo_iff R, hp, List.mem_singleton]
  obtain ⟨ss, T, e⟩ := (route.mpr rfl).exists_trail
  exact ⟨ss, ⟨T, fun ts T' => P.sites_eq T'.sites T.sites ((route.mp T'.route).trans e.symm)⟩, e⟩

namespace Sole

theorem path_eq (H : h.Sole ss m) (R : h.Ranked rank) (hp : h.pathsTo m = [p]) :
    p = ss.map Site.op := by
  have := (mem_pathsTo_iff R).mpr H.trail.route
  rw [hp, List.mem_singleton] at this
  exact this.symm

/-- Every module on a single trail has a single trail. -/
theorem of_append (H : h.Sole (ss ++ ts) m) (T : h.Trail b ts m) (T' : h.Trail h.top ss b) :
    h.Sole ss b where
  trail := T'
  only qs Q := List.append_cancel_right (H.only (qs ++ ts) (Q.append T))

/-- An instance that leads from a module that can be reached into one of the trail belongs to the
trail. -/
theorem eq_of_child (H : h.Sole (ss ++ s :: ts) m) (T : h.Trail h.top qs a) {s' : Site}
    (site : s' ∈ h.sites) (parent : s'.parent = a) (child : s'.child = s.child) :
    s' = s ∧ qs = ss := by
  subst parent
  rw [List.append_cons] at H
  obtain ⟨b, T₁, T₂⟩ := H.trail.split
  obtain ⟨-, -, rfl⟩ := T₁.of_concat
  have e := (H.of_append T₂ T₁).only _ (child ▸ T.concat site)
  obtain ⟨rfl, hs⟩ := List.append_inj' e rfl
  exact ⟨List.head_eq_of_cons_eq hs, rfl⟩

theorem mem_of_child (H : h.Sole (ss ++ ts) m) (T : h.Trail h.top qs a) (site : s ∈ h.sites)
    (parent : s.parent = a) (child : s.child ∈ ts.map Site.child) : s ∈ ts := by
  obtain ⟨t, ht, hc⟩ := List.mem_map.mp child
  obtain ⟨pre, post, rfl⟩ := List.append_of_mem ht
  rw [← List.append_assoc] at H
  obtain ⟨rfl, -⟩ := H.eq_of_child T site parent hc.symm
  exact ht

/-- A module that can be reached holds one instance that leads on along a single trail, if the
trail passes it, and none otherwise. -/
theorem countP_sites (R : h.Ranked rank) (P : h.Plain) (H : h.Sole (ss ++ ts) m)
    (T : h.Trail h.top qs a) :
    (h.sites.countP fun s => s.parent = a ∧ s.child ∈ ts.map Site.child) =
      if a ∈ ts.map Site.parent then 1 else 0 := by
  obtain ⟨b, -, T'⟩ := H.trail.split
  have on : ∀ s ∈ h.sites, s.parent = a ∧ s.child ∈ ts.map Site.child ↔ s ∈ ts ∧ s.parent = a :=
    fun s hs => ⟨fun ⟨hp, hc⟩ => ⟨H.mem_of_child T hs hp hc, hp⟩,
      fun ⟨ht, hp⟩ => ⟨hp, List.mem_map_of_mem ht⟩⟩
  split
  · rename_i ha
    obtain ⟨s, hs, hp⟩ := List.mem_map.mp ha
    have single : ∀ s' ∈ h.sites, decide (s'.parent = a ∧ s'.child ∈ ts.map Site.child) = true ↔
        (s' == s) = true := by
      intro s' hs'
      rw [decide_eq_true_iff, on s' hs', beq_iff_eq]
      constructor
      · rintro ⟨ht, hp'⟩
        exact List.inj_on_of_nodup_map (T'.nodup_parents R) ht hs (hp'.trans hp.symm)
      · rintro rfl
        exact ⟨hs, hp⟩
    rw [List.countP_congr single]
    exact List.count_eq_one_of_mem (List.Nodup.of_map _ P.nodup) (T'.sites s hs)
  · rename_i ha
    apply List.countP_eq_zero.mpr
    intro s hs
    rw [decide_eq_true_iff, on s hs]
    rintro ⟨ht, rfl⟩
    exact ha (List.mem_map_of_mem ht)

end Sole

/-- Two single trails that part have no module in common behind their parting. -/
theorem Sole.disjoint {xs ys : List Site} {m' : ModuleId} (H : h.Sole (qs ++ xs) m)
    (H' : h.Sole (qs ++ ys) m') (parts : ∀ x ∈ xs.head?, ∀ y ∈ ys.head?, x ≠ y)
    (ha : a ∈ xs.map Site.child) : a ∉ ys.map Site.child := by
  intro ha'
  obtain ⟨x, hx, rfl⟩ := List.mem_map.mp ha
  obtain ⟨y, hy, hc⟩ := List.mem_map.mp ha'
  obtain ⟨pre, post, rfl⟩ := List.append_of_mem hx
  obtain ⟨pre', post', rfl⟩ := List.append_of_mem hy
  rw [← List.append_assoc] at H H'
  obtain ⟨b, T, T'⟩ := H.trail.split
  cases T' with
  | cons site _ =>
    obtain ⟨rfl, e⟩ := H'.eq_of_child T site rfl hc.symm
    obtain rfl := List.append_cancel_left e
    cases pre with
    | nil => exact parts x (by simp) x (by simp) rfl
    | cons z pre => exact parts z (by simp) z (by simp) rfl

end AnnotatedCircuit.Hierarchy
