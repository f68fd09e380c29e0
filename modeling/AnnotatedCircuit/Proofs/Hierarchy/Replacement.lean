import AnnotatedCircuit.Proofs.Design.Tables
import AnnotatedCircuit.Proofs.Hierarchy.Paths

/-!
# Replacing an instance

In a plain hierarchy, where no operation stands behind two edges, replacing an instance by a new
one renames the operation of one edge (`Hierarchy.replace_eq`). Which module instantiates which
does not change, and with it neither the orders of the modules nor the search for cycles do
(`Hierarchy.Alike`); the paths are renamed, as the remembered ones are.
-/

namespace AnnotatedCircuit

namespace Site

/-- The module that holds an instance, and its own. -/
def ends (s : Site) : ModuleId × ModuleId := (s.parent, s.child)

/-- An instance with another operation, if it has the old one. -/
def rename (old new : OpId) (s : Site) : Site := { s with op := exchange old new s.op }

end Site

namespace Hierarchy

variable {h h' : Hierarchy} {rank : ModuleId → Nat} {m : ModuleId} {s s' : Site} {o old new : OpId}

/-- No operation stands behind two edges, and a look-up finds every edge. -/
structure Plain (h : Hierarchy) : Prop where
  current : ∀ {e}, e ∈ h.edges → e.current = true
  nodup : (h.sites.map Site.op).Nodup

theorem Plain.site_eq (P : h.Plain) (hs : s ∈ h.sites) (hs' : s' ∈ h.sites) (e : s.op = s'.op) :
    s = s' := List.inj_on_of_nodup_map P.nodup hs hs' e

theorem Plain.site?_eq (P : h.Plain) (hs : s ∈ h.sites) : h.site? s.op = some s := by
  obtain ⟨e, he, rfl⟩ := List.mem_map.mp hs
  unfold site?
  cases hf : h.edges.find? fun e' => e'.current && e'.op == e.op with
  | none =>
    have := List.find?_eq_none.mp hf e he
    simp [P.current he] at this
  | some e' =>
    have hp := List.find?_some hf
    simp only [Bool.and_eq_true, beq_iff_eq] at hp
    exact congrArg some
      (P.site_eq (List.mem_map_of_mem (List.mem_of_find?_eq_some hf)) hs hp.2)

theorem Plain.site_ok (P : h.Plain) (hs : s ∈ h.sites) : h.site s.op = .ok s := by
  simp only [site, P.site?_eq hs]

/-! ### Hierarchies of one shape -/

/-- The same modules instantiate each other, in the same order. -/
structure Alike (h h' : Hierarchy) : Prop where
  top : h'.top = h.top
  modules : h'.modules = h.modules
  shape : h'.sites.map Site.ends = h.sites.map Site.ends

theorem children_eq_shape (h : Hierarchy) (m : ModuleId) :
    h.children m = ((h.sites.map Site.ends).filter (·.1 == m)).map Prod.snd := by
  simp only [children, instances, sites, List.filter_map, List.map_map]
  rfl

theorem map_parent_uses (h : Hierarchy) (m : ModuleId) :
    (h.uses m).map Site.parent = ((h.sites.map Site.ends).filter (·.2 == m)).map Prod.fst := by
  simp only [uses, sites, List.filter_map, List.map_map]
  rfl

namespace Alike

theorem refl (h : Hierarchy) : h.Alike h := ⟨rfl, rfl, rfl⟩

theorem trans {h'' : Hierarchy} (A : h.Alike h') (B : h'.Alike h'') : h.Alike h'' :=
  ⟨B.top.trans A.top, B.modules.trans A.modules, B.shape.trans A.shape⟩

theorem symm (A : h.Alike h') : h'.Alike h := ⟨A.top.symm, A.modules.symm, A.shape.symm⟩

theorem ids (A : h.Alike h') : h'.ids = h.ids := by rw [Hierarchy.ids, A.modules, Hierarchy.ids]

theorem fuel (A : h.Alike h') : h'.fuel = h.fuel := by
  rw [Hierarchy.fuel, A.modules, Hierarchy.fuel]

theorem children (A : h.Alike h') (m : ModuleId) : h'.children m = h.children m := by
  rw [children_eq_shape, A.shape, ← children_eq_shape]

theorem visit (A : h.Alike h') (n : Nat) (m : ModuleId) (w : Walk) :
    h'.visit n m w = h.visit n m w := by
  induction n generalizing m w with
  | zero => rfl
  | succ n ih =>
    have : (fun w c => h'.visit n c w) = fun w c => h.visit n c w := by
      funext w c
      exact ih c w
    unfold Hierarchy.visit
    rw [A.children, this]

theorem walk (A : h.Alike h') (ms : List ModuleId) (w : Walk) : h'.walk ms w = h.walk ms w := by
  simp only [Hierarchy.walk, A.fuel, A.visit]

theorem walkAll (A : h.Alike h') (ms : List ModuleId) (w : Walk) :
    h'.walkAll ms w = h.walkAll ms w := by
  induction ms generalizing w with
  | nil => rfl
  | cons m ms ih => rw [Hierarchy.walkAll, Hierarchy.walkAll, ih, A.fuel, A.visit]

theorem childrenFirst (A : h.Alike h') : h'.childrenFirst = h.childrenFirst := by
  rw [Hierarchy.childrenFirst, Hierarchy.childrenFirst, A.ids, A.top, A.walk, A.walkAll]

theorem lateParent? (A : h.Alike h') (done rest : List ModuleId) :
    h'.lateParent? done rest = h.lateParent? done rest := by
  induction rest generalizing done with
  | nil => rfl
  | cons m rest ih =>
    have step : ∀ g : Hierarchy, g.lateParent? done (m :: rest) =
        (((g.uses m).map Site.parent).find? fun p => !(m :: done).contains p).or
          (g.lateParent? (m :: done) rest) := by
      intro g
      rw [List.find?_map, Hierarchy.lateParent?]
      simp only [Function.comp_def]
      cases (g.uses m).find? fun s => !(m :: done).contains s.parent <;> rfl
    rw [step, step, map_parent_uses, A.shape, ← map_parent_uses, ih]

theorem cycle? (A : h.Alike h') : h'.cycle? = h.cycle? := by
  have : h'.children = h.children := funext A.children
  simp only [Hierarchy.cycle?, A.ids, A.walk, A.lateParent?, this]

theorem ranked (A : h.Alike h') (R : h.Ranked rank) : h'.Ranked rank :=
  ⟨fun hc => R.lt (A.children _ ▸ hc), fun m => A.modules ▸ R.le m⟩

end Alike

/-! ### The renaming of an edge -/

/-- The hierarchy with another operation behind the edges of `old`. -/
def renamed (h : Hierarchy) (old new : OpId) : Hierarchy :=
  { h with edges := h.edges.map fun e => ⟨e.toSite.rename old new, e.current⟩ }

theorem sites_renamed (h : Hierarchy) (old new : OpId) :
    (h.renamed old new).sites = h.sites.map (Site.rename old new) := by
  simp [sites, renamed, Function.comp_def]

theorem alike_renamed (h : Hierarchy) (old new : OpId) : h.Alike (h.renamed old new) where
  top := rfl
  modules := rfl
  shape := by
    rw [sites_renamed, List.map_map]
    rfl

theorem uses_renamed (h : Hierarchy) (old new : OpId) (m : ModuleId) :
    (h.renamed old new).uses m = (h.uses m).map (Site.rename old new) := by
  simp only [uses, renamed, List.filter_map, List.map_map]
  rfl

theorem Plain.renamed (P : h.Plain) (fresh : ∀ s ∈ h.sites, s.op ≠ new) :
    (h.renamed old new).Plain where
  current {e} he := by
    obtain ⟨e₀, he₀, rfl⟩ := List.mem_map.mp he
    exact (P.current he₀ : e₀.current = true)
  nodup := by
    rw [sites_renamed, List.map_map]
    refine List.Nodup.map_on (fun s hs s' hs' e => ?_) (List.Nodup.of_map _ P.nodup)
    exact P.site_eq hs hs' (exchange_inj (fresh s hs) (fresh s' hs') e)

theorem replace_eq (P : h.Plain) (hs : s ∈ h.sites) (fresh : ∀ s ∈ h.sites, s.op ≠ new) :
    h.replace s.op new = .ok (h.renamed s.op new) := by
  have hmap : (h.edges.map fun e => if e.current && e.op == s.op then { e with op := new }
      else { e with current := e.current && e.op ≠ new }) =
      h.edges.map fun e => ⟨e.toSite.rename s.op new, e.current⟩ := by
    apply List.map_congr_left
    intro e he
    have hne := fresh _ (List.mem_map_of_mem he)
    by_cases ho : e.op = s.op
    · simp [P.current he, ho, Site.rename]
    · simp [P.current he, ho, Site.rename, exchange_of_ne ho, hne]
  unfold replace
  rw [P.site_ok hs, hmap]
  rfl

/-- The paths are renamed with the edges. -/
theorem pathsWithin_renamed (h : Hierarchy) (old new : OpId) (n : Nat) (m : ModuleId) :
    (h.renamed old new).pathsWithin n m =
      (h.pathsWithin n m).map (·.map (exchange old new)) := by
  induction n generalizing m with
  | zero => rfl
  | succ n ih =>
    unfold pathsWithin
    have htop : (h.renamed old new).top = h.top := rfl
    by_cases ht : m = h.top
    · rw [htop, if_pos ht, if_pos ht]
      rfl
    · rw [htop, if_neg ht, if_neg ht, uses_renamed, List.flatMap_map, List.map_flatMap]
      apply List.flatMap_congr
      intro s _
      simp [ih, Site.rename, Function.comp_def]

theorem pathsTo_renamed (h : Hierarchy) (old new : OpId) (m : ModuleId) :
    (h.renamed old new).pathsTo m =
      (h.pathsTo m).map (·.map (exchange old new)) :=
  pathsWithin_renamed h old new h.fuel m

end Hierarchy

namespace PathTable

variable {t : PathTable} {s : Site} {new : OpId}

/-- A replacement keeps the remembered lists right. -/
theorem Right.replace (H : t.Right) (P : t.hierarchy.Plain) (hs : s ∈ t.hierarchy.sites)
    (fresh : ∀ s ∈ t.hierarchy.sites, s.op ≠ new) :
    ∃ t', t.replace s.op new = .ok t' ∧ t'.hierarchy = t.hierarchy.renamed s.op new ∧ t'.Right := by
  refine ⟨_, by rw [PathTable.replace, Hierarchy.replace_eq P hs fresh]; rfl, rfl, ?_, ?_⟩
  · obtain ⟨rank, R⟩ := H.ranked
    exact ⟨rank, (t.hierarchy.alike_renamed _ _).ranked R⟩
  · intro m ps e
    rw [OrderedMap.find?_mapValues] at e
    obtain ⟨qs, hq, rfl⟩ := Option.map_eq_some_iff.mp e
    rw [H.faithful m qs hq, Hierarchy.pathsTo_renamed]
    rfl

end PathTable

end AnnotatedCircuit
