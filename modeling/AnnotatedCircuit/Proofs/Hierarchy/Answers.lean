import AnnotatedCircuit.Proofs.Hierarchy.Chains

/-!
# A path table in use

A table is asked for paths and told of replaced instances, in any order. Where every instance has
one edge, its answers are those of a table that remembers nothing (`PathTable.answers_eq`). The
table renames the paths that it remembers, and of an instance with two edges only the last edge is
replaced: there it can be seen which paths were remembered.
-/

namespace AnnotatedCircuit

/-- A question for the paths to a module, or the replacement of an instance. -/
inductive PathTable.Call where
  | paths (m : ModuleId)
  | replace (old new : OpId)
deriving DecidableEq

/-- What a call answers. -/
inductive PathTable.Answer where
  | paths (ps : List InstPath)
  | replaced
  | failed (e : DesignError)
deriving DecidableEq

namespace PathTable

variable {t : PathTable} {h : Hierarchy}

/-- The answers of a table. A replacement that fails leaves the table as it is. -/
def answers (t : PathTable) : List Call → List Answer
  | [] => []
  | .paths m :: calls => .paths (t.paths m).1 :: (t.paths m).2.answers calls
  | .replace old new :: calls =>
    match t.replace old new with
    | .ok t' => .replaced :: t'.answers calls
    | .error e => .failed e :: t.answers calls

end PathTable

namespace Hierarchy

variable {d : Design} {h : Hierarchy} {s : Site}

/-- The answers found in the edges alone. -/
def answers (h : Hierarchy) : List PathTable.Call → List PathTable.Answer
  | [] => []
  | .paths m :: calls => .paths (h.pathsTo m) :: h.answers calls
  | .replace old new :: calls =>
    match h.replace old new with
    | .ok h' => .replaced :: h'.answers calls
    | .error e => .failed e :: h.answers calls

/-- No instance is replaced by one that the hierarchy has at that time. -/
def Fresh (h : Hierarchy) : List PathTable.Call → Prop
  | [] => True
  | .paths _ :: calls => h.Fresh calls
  | .replace old new :: calls =>
    match h.replace old new with
    | .ok h' => h.site? new = none ∧ h'.Fresh calls
    | .error _ => h.Fresh calls

/-! ### The hierarchies of arbitrary designs -/

theorem site?_eq_some (hs : h.site? o = some s) : s ∈ h.sites ∧ s.op = o := by
  obtain ⟨e, he, rfl⟩ := Option.map_eq_some_iff.mp hs
  have hp := List.find?_some he
  simp only [Bool.and_eq_true, beq_iff_eq] at hp
  exact ⟨List.mem_map_of_mem (List.mem_of_find?_eq_some he), hp.2⟩

theorem sitesIn_enclosed {x : Module} {ss : List Site} (hx : x ∈ d.modules)
    (h : sitesIn d x = .ok ss) : ∀ s ∈ ss, s.parent ∈ d.modules.map Module.id ∧
      s.child ∈ d.modules.map Module.id := by
  obtain ⟨known, rfl⟩ := sitesIn_eq_ok_iff_known.mp h
  intro s hs
  obtain ⟨op, hop, e⟩ := List.mem_filterMap.mp hs
  obtain ⟨c, hc, rfl⟩ := Option.map_eq_some_iff.mp e
  obtain ⟨y, hy, e⟩ := List.any_eq_true.mp (known op hop c hc)
  exact ⟨List.mem_map_of_mem hx, List.mem_map.mpr ⟨y, hy, beq_iff_eq.mp e⟩⟩

theorem map_toSite_foldl_enter (ss : List Site) (es : List Edge) :
    (ss.foldl enter es).map Edge.toSite = es.map Edge.toSite ++ ss := by
  induction ss generalizing es with
  | nil => simp
  | cons s ss ih => simp [ih, enter, Function.comp_def]

/-- The hierarchy of a design, whatever its tables hold: the instances of its bodies are entered one
after the other, all of them lie between modules of the design, and they close no cycle. -/
theorem ofDesign_cases (hh : ofDesign d = .ok h) :
    h.edges = h.sites.foldl enter [] ∧ ∃ rank, h.Ranked rank := by
  obtain ⟨sss, hs, hh⟩ := Checked.bind_eq_ok_iff.mp hh
  have within : ∀ s ∈ sss.flatten, s.parent ∈ d.modules.map Module.id ∧
      s.child ∈ d.modules.map Module.id := by
    intro s hmem
    obtain ⟨ss, hss, hmem⟩ := List.mem_flatten.mp hmem
    obtain ⟨x, hx, hok⟩ := Checked.exists_of_mem_mapM hs hss
    exact sitesIn_enclosed hx hok s hmem
  dsimp only at hh
  split at hh
  · rename_i hc
    obtain rfl := Checked.pure_eq_ok_iff.mp hh
    have hsites := map_toSite_foldl_enter sss.flatten []
    rw [List.map_nil, List.nil_append] at hsites
    have enclosed : ∀ {e}, e ∈ sss.flatten.foldl enter [] →
        e.parent ∈ d.modules.map Module.id ∧ e.child ∈ d.modules.map Module.id :=
      fun he => within _ (hsites ▸ List.mem_map_of_mem he)
    have hids : ∀ edges, Hierarchy.ids ⟨d.top, d.modules.map fun m => (m.name, m.id), edges⟩ =
        d.modules.map Module.id := fun _ => by simp [ids, Function.comp_def]
    refine ⟨congrArg (List.foldl enter []) hsites.symm, exists_ranked ⟨?_, ?_⟩ hc⟩
    · exact fun he => hids _ ▸ (enclosed he).1
    · exact fun he => hids _ ▸ (enclosed he).2
  · obtain ⟨_, _, hh⟩ := Checked.bind_eq_ok_iff.mp hh
    cases hh

theorem plain_of_nodup (he : h.edges = h.sites.foldl enter []) (once : (h.sites.map Site.op).Nodup) :
    h.Plain := by
  rw [foldl_enter h.sites [] (by simpa using once), List.nil_append] at he
  refine ⟨fun {e} hmem => ?_, once⟩
  rw [he] at hmem
  obtain ⟨s, -, rfl⟩ := List.mem_map.mp hmem
  rfl

end Hierarchy

namespace PathTable

variable {t : PathTable} {d : Design} {h : Hierarchy} {calls : List Call}

/-- A right table over a plain hierarchy answers like the hierarchy, and a call keeps it so. -/
theorem Right.answers (H : t.Right) (P : t.hierarchy.Plain) (fresh : t.hierarchy.Fresh calls) :
    t.answers calls = t.hierarchy.answers calls := by
  induction calls generalizing t with
  | nil => rfl
  | cons c calls ih =>
    cases c with
    | paths m =>
      rw [PathTable.answers, Hierarchy.answers, paths_eq H, ih (H.paths m) P fresh]
      rfl
    | replace old new =>
      cases hs : t.hierarchy.site? old with
      | none =>
        have failed : t.hierarchy.replace old new = .error (.unknownEdge old) := by
          rw [Hierarchy.replace, Hierarchy.site, hs]
          rfl
        rw [Hierarchy.Fresh, failed] at fresh
        rw [PathTable.answers, Hierarchy.answers, PathTable.replace, failed, ← ih H P fresh]
        rfl
      | some s =>
        obtain ⟨hmem, rfl⟩ := Hierarchy.site?_eq_some hs
        have unused : t.hierarchy.site? new = none := by
          rw [Hierarchy.Fresh] at fresh
          split at fresh
          · exact fresh.1
          · rename_i he
            rw [Hierarchy.replace, P.site_ok hmem] at he
            cases he
        have ne : ∀ s ∈ t.hierarchy.sites, s.op ≠ new := by
          rintro s hs rfl
          rw [P.site?_eq hs] at unused
          cases unused
        obtain ⟨t', ht, hh, H'⟩ := H.replace P hmem ne
        have replaced := Hierarchy.replace_eq P hmem ne
        rw [Hierarchy.Fresh, replaced] at fresh
        rw [PathTable.answers, Hierarchy.answers, ht, replaced]
        refine congrArg _ ((ih H' ?_ ?_).trans ?_)
        · exact hh ▸ P.renamed ne
        · exact hh ▸ fresh.2
        · rw [hh]

/-- Nobody can see what a table remembers: whatever paths it is asked for and whatever instances are
replaced by new ones in between, it answers what an enumeration of the edges of the time gives. This
needs every instance to have one edge, as it has in a design whose bodies list it once. -/
theorem answers_eq (hh : Hierarchy.ofDesign d = .ok h) (once : (h.sites.map Site.op).Nodup)
    (calls : List Call) (fresh : h.Fresh calls) :
    (PathTable.ofHierarchy h).answers calls = h.answers calls := by
  obtain ⟨he, rank, R⟩ := Hierarchy.ofDesign_cases hh
  exact (Right.ofHierarchy R).answers (Hierarchy.plain_of_nodup he once) fresh

/-- Questions before and after two replacements, one of an instance that no longer exists. -/
def mixedCalls : List Call :=
  [.paths ⟨2⟩, .replace ⟨0⟩ ⟨6⟩, .paths ⟨1⟩, .replace ⟨0⟩ ⟨7⟩, .paths ⟨2⟩]

theorem answers_eq_manyPaths : Hierarchy.ofDesign manyPaths = .ok manyPaths.hierarchy ∧
    (manyPaths.hierarchy.sites.map Site.op).Nodup ∧ manyPaths.hierarchy.Fresh mixedCalls ∧
    (PathTable.ofHierarchy manyPaths.hierarchy).answers mixedCalls =
      manyPaths.hierarchy.answers mixedCalls := by
  have hh : Hierarchy.ofDesign manyPaths = .ok manyPaths.hierarchy := by decide +kernel
  have once : (manyPaths.hierarchy.sites.map Site.op).Nodup := by decide +kernel
  have fresh : manyPaths.hierarchy.Fresh mixedCalls := ⟨by decide +kernel, trivial⟩
  exact ⟨hh, once, fresh, answers_eq hh once mixedCalls fresh⟩

/-- The body of the top module lists its only instance twice. -/
def listedTwice : Design :=
  { Design.new "Top" with
    modules := [⟨⟨0⟩, "Top", .defined, [], [⟨0⟩, ⟨0⟩]⟩, .empty ⟨1⟩ "A" .defined]
    ops := [some ⟨⟨0⟩, ⟨0⟩, .inst "a" ⟨1⟩, []⟩] }

-- The table has renamed both paths; only one of the two edges has the new instance.
example : (Hierarchy.ofDesign listedTwice).map (fun h =>
      ((PathTable.ofHierarchy h).answers [.paths ⟨1⟩, .replace ⟨0⟩ ⟨7⟩, .paths ⟨1⟩],
        h.answers [.paths ⟨1⟩, .replace ⟨0⟩ ⟨7⟩, .paths ⟨1⟩])) =
    .ok ([.paths [[⟨0⟩], [⟨0⟩]], .replaced, .paths [[⟨7⟩], [⟨7⟩]]],
      [.paths [[⟨0⟩], [⟨0⟩]], .replaced, .paths [[⟨0⟩], [⟨7⟩]]]) := by decide +kernel

end PathTable

end AnnotatedCircuit
