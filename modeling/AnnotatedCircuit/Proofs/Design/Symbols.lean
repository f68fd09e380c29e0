import AnnotatedCircuit.Proofs.Design.Roundtrip

/-!
# Symbols

The names of modules and anchors, the symbols of a design, stand in two tables. A module gets a name
that no module has, an anchor one that nothing has; writing a design down and reading it again keeps
both tables. So a symbol is given twice only where a module takes the name of an anchor
(`Design.nodup_symbolNames_iff`).
-/

namespace AnnotatedCircuit

open Json

namespace Json.Input

variable {names : List String} {ms : List (String × Json)}

/-- A record in a value, under distinct names. -/
theorem fields?_value (hn : ms.map Prod.fst = names) (nodup : names.Nodup) :
    (value (.obj ms)).fields? names = some (ms.map fun m => some (value m.2)) := by
  have written : value (.obj ms) = value (.obj ms) := rfl
  obtain ⟨is, his, all⟩ := Reading.direct.fields? names written hn nodup
  have same : is = (ms.map Prod.snd).map value := by
    rw [← List.forall₂_eq_eq_eq, List.forall₂_map_right_iff]
    exact all.flip
  rw [his, same, List.map_map, List.map_map]
  rfl

theorem allFields?_value (hn : ms.map Prod.fst = names) (nodup : names.Nodup) :
    (value (.obj ms)).allFields? names = some (ms.map fun m => value m.2) := by
  have fields : ms.map (fun m => some (value m.2)) = (ms.map fun m => value m.2).map some := by
    rw [List.map_map]
    rfl
  rw [allFields?, fields?_value hn nodup, fields, Option.bind_some, Reading.mapM_id_map_some]

/-- A list keeps what its items keep. -/
theorem map_of_list?_value {α β γ : Type} {toJson : α → Json} {decode : Input → Option β}
    {f : α → γ} {g : β → γ} (same : ∀ {a b}, decode (value (toJson a)) = some b → g b = f a)
    {as : List α} {bs : List β} (h : (value (Json.list toJson as)).list? decode = some bs) :
    bs.map g = as.map f := by
  have h : ((as.map toJson).map value).mapM decode = some bs := h
  rw [List.map_map, Option.mapM_eq_some_iff, List.forall₂_map_left_iff] at h
  rw [← List.forall₂_eq_eq_eq, List.forall₂_map_left_iff, List.forall₂_map_right_iff]
  exact h.flip.imp fun _ _ => same

end Json.Input

theorem Module.name_of_ofInput?_toJson {x y : Module}
    (h : ofInput? (.value x.toJson) = some y) : y.name = x.name := by
  have fields : (Input.value x.toJson).allFields? ["id", "name", "kind", "ports", "body"] = _ :=
    Input.allFields?_value rfl (by decide)
  rw [ofInput?, fields] at h
  obtain ⟨_, -, h⟩ := Option.bind_eq_some_iff.mp h
  obtain ⟨name, hname, h⟩ := Option.bind_eq_some_iff.mp h
  obtain ⟨_, -, h⟩ := Option.bind_eq_some_iff.mp h
  obtain ⟨_, -, h⟩ := Option.bind_eq_some_iff.mp h
  obtain ⟨_, -, h⟩ := Option.bind_eq_some_iff.mp h
  cases h
  cases hname
  rfl

theorem Anchor.name_of_ofInput?_toJson {a b : Anchor}
    (h : ofInput? (.value a.toJson) = some b) : b.name = a.name := by
  have fields : (Input.value a.toJson).allFields? ["id", "name", "namepath", "leaf"] = _ :=
    Input.allFields?_value rfl (by decide)
  rw [ofInput?, fields] at h
  obtain ⟨_, -, h⟩ := Option.bind_eq_some_iff.mp h
  obtain ⟨name, hname, h⟩ := Option.bind_eq_some_iff.mp h
  obtain ⟨_, -, h⟩ := Option.bind_eq_some_iff.mp h
  obtain ⟨_, -, h⟩ := Option.bind_eq_some_iff.mp h
  cases h
  cases hname
  rfl

namespace Design

variable {d d' : Design} {c : Edit.Call} {name : String}

/-- The names of the modules. -/
def moduleNames (d : Design) : List String := d.modules.map Module.name

/-- The names of the anchors. -/
def anchorNames (d : Design) : List String := d.anchors.map Anchor.name

/-- The names of the modules and of the anchors. -/
def symbolNames (d : Design) : List String := d.moduleNames ++ d.anchorNames

theorem moduleNamed?_eq_none_iff : d.moduleNamed? name = none ↔ name ∉ d.moduleNames := by
  rw [moduleNamed?, Option.map_eq_none_iff, List.find?_eq_none, moduleNames, List.mem_map]
  simp

/-- A design that is read of what was written keeps its symbols, whatever is lost of the rest. -/
theorem symbols_of_ofInput?_toJson (h : ofInput? (.value d.toJson) = some d') :
    d'.moduleNames = d.moduleNames ∧ d'.anchorNames = d.anchorNames := by
  have fields : (Input.value d.toJson).fields? ["name", "top", "modules", "ops", "values",
      "raw_annotations", "annotations", "hier_paths", "symbols"] = _ :=
    Input.fields?_value rfl (by decide)
  rw [ofInput?, fields] at h
  obtain ⟨_, -, h⟩ := Option.bind_eq_some_iff.mp h
  obtain ⟨_, -, h⟩ := Option.bind_eq_some_iff.mp h
  obtain ⟨modules, hmodules, h⟩ := Option.bind_eq_some_iff.mp h
  obtain ⟨_, -, h⟩ := Option.bind_eq_some_iff.mp h
  obtain ⟨_, -, h⟩ := Option.bind_eq_some_iff.mp h
  obtain ⟨_, -, h⟩ := Option.bind_eq_some_iff.mp h
  obtain ⟨_, -, h⟩ := Option.bind_eq_some_iff.mp h
  obtain ⟨anchors, hanchors, h⟩ := Option.bind_eq_some_iff.mp h
  obtain ⟨_, -, h⟩ := Option.bind_eq_some_iff.mp h
  cases h
  exact ⟨Input.map_of_list?_value Module.name_of_ofInput?_toJson hmodules,
    Input.map_of_list?_value Anchor.name_of_ofInput?_toJson hanchors⟩

/-- What an effect does to the symbols: nothing, or one more at the end of a table. -/
theorem Effect.symbols (h : d.Effect c d') :
    (d'.moduleNames = d.moduleNames ∧ d'.anchorNames = d.anchorNames) ∨
    (∃ name kind, c = .newModule name kind ∧ name ∉ d.moduleNames ∧
      d'.moduleNames = d.moduleNames ++ [name] ∧ d'.anchorNames = d.anchorNames) ∨
    ∃ name ∉ d.symbols.used, d'.moduleNames = d.moduleNames ∧
      d'.anchorNames = d.anchorNames ++ [name] := by
  cases h with
  | none | notes | uses => exact .inl ⟨rfl, rfl⟩
  | @module name kind fresh =>
    exact .inr (.inl ⟨name, kind, rfl, moduleNamed?_eq_none_iff.mp fresh, List.map_append, rfl⟩)
  | anchor fresh =>
    exact .inr (.inr ⟨_, (NameSupply.fresh_ok fresh).1, rfl, List.map_append⟩)
  | port | ports => exact .inl ⟨names_enterPorts .., rfl⟩
  | op | clone => exact .inl ⟨names_addOp .., rfl⟩
  | removal => exact .inl ⟨names_withoutOp .., rfl⟩

theorem counted_effect (C : d.symbols.Counted) (h : d.Effect c d') : d'.symbols.Counted := by
  cases h with
  | @module name => exact (NameSupply.counted_addAll C [name]).1
  | @anchor hint name symbols fresh =>
    rcases NameSupply.fresh_cases C hint with ⟨_, _, fresh', C'⟩ | ⟨_, full, -⟩
    · cases fresh.symm.trans fresh'
      exact C'
    · cases fresh.symm.trans full
  | _ => exact C

theorem Built.counted (H : d.Built) : d.symbols.Counted := by
  induction H with
  | new name => exact (NameSupply.counted_ofNames [name]).1
  | call c _ ih => exact counted_effect ih (Edit.effect_run _ c)

/-! ### Histories with reloads -/

/-- A step in the history of a design. -/
inductive Step where
  | call (c : Edit.Call)
  /-- Write the design down and read it again. -/
  | reload

/-- The design that a step leaves. A design that cannot be read again is kept. -/
def Step.run : Step → Design → Design
  | .call c, d => c.run d
  | .reload, d => (ofInput? (.value d.toJson)).getD d

/-- The design after a sequence of steps. -/
def stepped (d : Design) (steps : List Step) : Design := steps.foldl (fun d s => s.run d) d

/-- A step gives a module the name of an anchor. -/
def Step.Clashes (d : Design) (s : Step) : Prop :=
  ∃ name kind, s = .call (.newModule name kind) ∧ d.moduleNamed? name = none ∧
    name ∈ d.anchorNames

/-- What a step does to the symbols, and whether it clashes. -/
inductive Renamed (d : Design) (s : Step) (d' : Design) : Prop where
  | none (modules : d'.moduleNames = d.moduleNames) (anchors : d'.anchorNames = d.anchorNames)
    (clear : ¬ s.Clashes d)
  | module {name : String} (fresh : name ∉ d.moduleNames)
    (modules : d'.moduleNames = d.moduleNames ++ [name]) (anchors : d'.anchorNames = d.anchorNames)
    (clash : s.Clashes d ↔ name ∈ d.anchorNames)
  | anchor {name : String} (fresh : name ∉ d.symbols.used)
    (modules : d'.moduleNames = d.moduleNames) (anchors : d'.anchorNames = d.anchorNames ++ [name])
    (clear : ¬ s.Clashes d)

theorem run_newModule (kind : ModuleKind) (h : d.moduleNamed? name = none) :
    (Edit.Call.newModule name kind).run d = { d with
      modules := d.modules ++ [Module.empty ⟨d.modules.length⟩ name kind]
      symbols := d.symbols.add name } := by
  rw [Edit.Call.run, Edit.newModule, Edit.after_get_bind, h]
  rfl

theorem renamed_run (d : Design) : ∀ s : Step, d.Renamed s (s.run d)
  | .reload => by
    have clear : ¬ Step.reload.Clashes d := fun ⟨_, _, e, _⟩ => nomatch e
    cases h : ofInput? (.value d.toJson) with
    | none =>
      rw [Step.run, h]
      exact .none rfl rfl clear
    | some d' =>
      obtain ⟨modules, anchors⟩ := symbols_of_ofInput?_toJson h
      rw [Step.run, h]
      exact .none modules anchors clear
  | .call c => by
    by_cases clash : (Step.call c).Clashes d
    · obtain ⟨name, kind, e, fresh, taken⟩ := clash
      obtain rfl := Step.call.inj e
      rw [Step.run, run_newModule kind fresh]
      exact .module (moduleNamed?_eq_none_iff.mp fresh) List.map_append rfl
        (iff_of_true ⟨name, kind, rfl, fresh, taken⟩ taken)
    · rcases (Edit.effect_run d c).symbols with ⟨modules, anchors⟩ |
        ⟨name, kind, rfl, fresh, modules, anchors⟩ | ⟨name, fresh, modules, anchors⟩
      · exact .none modules anchors clash
      · refine .module fresh modules anchors (iff_of_false clash fun taken => clash ?_)
        exact ⟨name, kind, rfl, moduleNamed?_eq_none_iff.mpr fresh, taken⟩
      · exact .anchor fresh modules anchors clash

/-! ### Which symbols are distinct -/

/-- Each table has distinct names, all of them in use. -/
structure Distinct (d : Design) : Prop where
  modules : d.moduleNames.Nodup
  anchors : d.anchorNames.Nodup
  used : d.NamesUsed

namespace Distinct

variable {s : Step}

theorem new (name : String) : (Design.new name).Distinct :=
  ⟨List.nodup_singleton _, List.nodup_nil, (Built.new name).namesUsed⟩

theorem module_used (N : d.Distinct) (h : name ∈ d.moduleNames) : name ∈ d.symbols.used :=
  N.used name (List.mem_append_left _ (List.mem_cons_of_mem _ h))

theorem anchor_used (N : d.Distinct) (h : name ∈ d.anchorNames) : name ∈ d.symbols.used :=
  N.used name (List.mem_append_right _ h)

theorem nodup_iff (N : d.Distinct) :
    d.symbolNames.Nodup ↔ d.moduleNames.Disjoint d.anchorNames := by
  rw [symbolNames, List.nodup_append', and_iff_right N.modules, and_iff_right N.anchors]

theorem run (N : d.Distinct) (s : Step) : (s.run d).Distinct := by
  have used : (s.run d).NamesUsed := by
    cases s with
    | call c => exact N.used.effect (Edit.effect_run d c)
    | reload =>
      rw [Step.run]
      cases h : ofInput? (.value d.toJson) with
      | none => exact N.used
      | some d' => exact namesUsed_of_ofInput? h
  cases renamed_run d s with
  | none modules anchors => exact ⟨modules ▸ N.modules, anchors ▸ N.anchors, used⟩
  | module fresh modules anchors =>
    refine ⟨?_, anchors ▸ N.anchors, used⟩
    rw [modules, ← List.concat_eq_append]
    exact N.modules.concat fresh
  | anchor fresh modules anchors =>
    refine ⟨modules ▸ N.modules, ?_, used⟩
    rw [anchors, ← List.concat_eq_append]
    exact N.anchors.concat fun h => fresh (N.anchor_used h)

/-- A step keeps the tables apart if it does not clash; once they share a name, they always do. -/
theorem disjoint_run (N : d.Distinct) (s : Step) :
    (s.run d).moduleNames.Disjoint (s.run d).anchorNames ↔
      d.moduleNames.Disjoint d.anchorNames ∧ ¬ s.Clashes d := by
  cases renamed_run d s with
  | none modules anchors clear => rw [modules, anchors, and_iff_left clear]
  | module fresh modules anchors clash =>
    rw [modules, anchors, clash, List.disjoint_append_left, List.singleton_disjoint]
  | anchor fresh modules anchors clear =>
    rw [modules, anchors, and_iff_left clear, List.disjoint_append_right, List.disjoint_singleton,
      and_iff_left fun h => fresh (N.module_used h)]

theorem stepped (N : d.Distinct) (steps : List Step) : (d.stepped steps).Distinct := by
  induction steps generalizing d with
  | nil => exact N
  | cons s steps ih => exact ih (N.run s)

/-- The tables are kept apart as long as no step clashes. -/
theorem disjoint_stepped (N : d.Distinct) (steps : List Step) :
    (d.stepped steps).moduleNames.Disjoint (d.stepped steps).anchorNames ↔
      d.moduleNames.Disjoint d.anchorNames ∧
        ∀ before s after, steps = before ++ s :: after → ¬ s.Clashes (d.stepped before) := by
  induction steps generalizing d with
  | nil => simp [Design.stepped]
  | cons s steps ih =>
    have now := ih (N.run s)
    rw [N.disjoint_run, and_assoc] at now
    refine now.trans (and_congr_right fun _ => ⟨fun ⟨clear, later⟩ before t after e => ?_,
      fun h => ⟨h [] s steps rfl, fun before t after e => h (s :: before) t after (e ▸ rfl)⟩⟩)
    rcases before with _ | ⟨u, before⟩
    · cases e
      exact clear
    · cases e
      exact later before t after rfl

end Distinct

theorem Built.distinct (H : d.Built) : d.Distinct := by
  induction H with
  | new name => exact .new name
  | call c _ ih => exact ih.run (.call c)

/-- In every history the modules have distinct names, and so have the anchors. The two share no
name exactly if no module was ever given the name of an anchor. -/
theorem nodup_symbolNames_iff (name : String) (steps : List Step) :
    ((Design.new name).stepped steps).moduleNames.Nodup ∧
    ((Design.new name).stepped steps).anchorNames.Nodup ∧
    (((Design.new name).stepped steps).symbolNames.Nodup ↔
      ∀ before s after, steps = before ++ s :: after →
        ¬ s.Clashes ((Design.new name).stepped before)) := by
  have N := (Distinct.new name).stepped steps
  refine ⟨N.modules, N.anchors, ?_⟩
  rw [N.nodup_iff, (Distinct.new name).disjoint_stepped]
  exact and_iff_right (List.disjoint_nil_right _)

example : ¬ ((Design.new "Top").stepped
    [.call (.newAnchor "A" [] "Top"), .reload,
      .call (.newModule "A" .defined)]).symbolNames.Nodup := by
  decide +kernel

end Design

end AnnotatedCircuit
