import AnnotatedCircuit.Proofs.Json.Rereading

/-!
# Values nested too deep

Where brackets stand inside of too many others, the text of a value is unreadable, and a decoder
that looks at the brackets refuses them. So whatever is decoded completely fits (`Json.Fits`); there
is one lemma for each of the decoders that others are put together from.
-/

namespace AnnotatedCircuit.Json

open Input

/-- No brackets of a value are unreadable if its text stands inside of `level` others. -/
def Fits (level : Nat) (v : Json) : Prop := level + v.depth ≤ maxNesting

def FitsMembers (level : Nat) : List (String × Json) → Prop
  | [] => True
  | (_, v) :: ms => v.Fits level ∧ FitsMembers level ms

section

variable {α β : Type} {level : Nat} {v : Json} {vs : List Json} {ms : List (String × Json)}
  {tag : String} {names : List String} {i : Input}

/-! ### Where a value fits -/

theorem fitsMembers_iff : FitsMembers level ms ↔ ∀ m ∈ ms, m.2.Fits level := by
  induction ms with
  | nil => simp [FitsMembers]
  | cons m ms ih => rw [FitsMembers, ih, List.forall_mem_cons]

theorem fits_leaf (h : level ≤ maxNesting) (hv : v.depth = 0) : v.Fits level := by
  rw [Fits, hv]
  exact h

theorem fits_arr (h : level < maxNesting) (hv : ∀ v ∈ vs, v.Fits (level + 1)) :
    (arr vs).Fits level := by
  have : depthItems vs ≤ maxNesting - (level + 1) := by
    clear h
    induction vs with
    | nil => exact Nat.zero_le _
    | cons v vs ih =>
      obtain ⟨hv, hvs⟩ := List.forall_mem_cons.mp hv
      exact max_le (Nat.le_sub_of_add_le' hv) (ih hvs)
  rw [Fits, depth]
  omega

theorem fits_obj (h : level < maxNesting) (hm : FitsMembers (level + 1) ms) :
    (obj ms).Fits level := by
  have : depthMembers ms ≤ maxNesting - (level + 1) := by
    clear h
    induction ms with
    | nil => exact Nat.zero_le _
    | cons m ms ih => exact max_le (Nat.le_sub_of_add_le' hm.1) (ih hm.2)
  rw [Fits, depth]
  omega

theorem fits_tagged (h : level < maxNesting) (hv : v.Fits (level + 1)) :
    (tagged tag v).Fits level := fits_obj h ⟨hv, trivial⟩

theorem fits_list {toJson : α → Json} {as : List α} (h : level < maxNesting)
    (ha : ∀ a ∈ as, (toJson a).Fits (level + 1)) : (list toJson as).Fits level :=
  fits_arr h (List.forall_mem_map.mpr ha)

/-! ### What decoders find -/

theorem foundItems_eq (level : Nat) (vs : List Json) :
    foundItems level vs = vs.map (foundIn level) := by
  induction vs with
  | nil => rfl
  | cons v vs ih => rw [foundItems, ih, List.map_cons]

theorem foundMembers_eq (level : Nat) (ms : List (String × Json)) :
    foundMembers level ms = ms.map fun m => (m.1, m.2.foundIn level) := by
  induction ms with
  | nil => rfl
  | cons m ms ih => rw [foundMembers, ih, List.map_cons]

/-- Whoever refuses what is unreadable finds the members of an object, if anything. -/
theorem of_obj {f : Input → Option α} {a : α} (hf : f .unreadable = none)
    (h : f ((obj ms).foundIn level) = some a) :
    level < maxNesting ∧ f (.obj (foundMembers (level + 1) ms)) = some a := by
  rw [foundIn] at h
  split at h
  · exact ⟨‹_›, h⟩
  · rw [hf] at h
    cases h

theorem of_tagged {f : Input → Option α} {a : α} (hf : f .unreadable = none)
    (h : f ((tagged tag v).foundIn level) = some a) :
    level < maxNesting ∧ f (.obj [(tag, v.foundIn (level + 1))]) = some a := of_obj hf h

theorem items?_foundIn {is : List Input} (h : ((arr vs).foundIn level).items? = some is) :
    level < maxNesting ∧ is = vs.map (foundIn (level + 1)) := by
  rw [foundIn] at h
  split at h
  · rename_i hl
    exact ⟨hl, (Option.some.inj h).symm.trans (foundItems_eq _ vs)⟩
  · cases h

theorem alternative?_obj (tag : String) (i : Input) :
    (Input.obj [(tag, i)]).alternative? = some (tag, some i) := rfl

/-! ### Records -/

theorem namedFields?_found (level : Nat) (nodup : (ms.map Prod.fst).Nodup) :
    namedFields? (ms.map Prod.fst) (foundMembers level ms) =
      some (ms.map fun m => some (m.2.foundIn level)) := by
  have keys : (foundMembers level ms).map Prod.fst = ms.map Prod.fst := by
    simp [foundMembers_eq]
  have found := namedFields?_of_nodup (keys ▸ nodup)
  rw [keys] at found
  exact found.trans (by simp [foundMembers_eq])

theorem mapM_id_found (level : Nat) (ms : List (String × Json)) :
    (ms.map fun m => some (m.2.foundIn level)).mapM id =
      some (ms.map fun m => m.2.foundIn level) := by
  have all := Reading.mapM_id_map_some (ms.map fun m => m.2.foundIn level)
  rwa [List.map_map] at all

/-- A decoder of fields that looks the members of an object up by name and refuses what is
unreadable. -/
structure ReadsFields (f : List String → Input → Option (List (Option Input))) : Prop where
  unreadable : ∀ names, f names .unreadable = none
  members : ∀ names ms, f names (.obj ms) = namedFields? names ms

theorem readsFields_fields? : ReadsFields fields? := ⟨fun _ => rfl, fun _ _ => rfl⟩

theorem readsFields_contentFields? : ReadsFields contentFields? := ⟨fun _ => rfl, fun _ _ => rfl⟩

/-- A record under distinct names is decoded field by field, if at all. -/
theorem ReadsFields.found {f : List String → Input → Option (List (Option Input))}
    {os : List (Option Input)} (F : ReadsFields f) (h : f names ((obj ms).foundIn level) = some os)
    (hn : ms.map Prod.fst = names) (nodup : names.Nodup) :
    level < maxNesting ∧ os = ms.map fun m => some (m.2.foundIn (level + 1)) := by
  subst hn
  obtain ⟨hl, h⟩ := of_obj (F.unreadable _) h
  rw [F.members, namedFields?_found _ nodup] at h
  exact ⟨hl, (Option.some.inj h).symm⟩

theorem ReadsFields.foundAll {f : List String → Input → Option (List (Option Input))}
    {is : List Input} (F : ReadsFields f)
    (h : (f names ((obj ms).foundIn level)).bind (·.mapM id) = some is)
    (hn : ms.map Prod.fst = names) (nodup : names.Nodup) :
    level < maxNesting ∧ is = ms.map fun m => m.2.foundIn (level + 1) := by
  obtain ⟨os, hos, h⟩ := Option.bind_eq_some_iff.mp h
  obtain ⟨hl, rfl⟩ := F.found hos hn nodup
  exact ⟨hl, Option.some.inj (h.symm.trans (mapM_id_found _ ms))⟩

/-! ### What is decoded completely fits -/

/-- An array that is decoded fits if its items do. -/
theorem fits_of_list? {toJson : α → Json} {f : Input → Option β} {as : List α} {bs : List β}
    (h : ((list toJson as).foundIn level).list? f = some bs)
    (ha : level < maxNesting → ∀ a ∈ as, ∀ b, f ((toJson a).foundIn (level + 1)) = some b →
      (toJson a).Fits (level + 1)) : (list toJson as).Fits level := by
  obtain ⟨is, his, h⟩ := Option.bind_eq_some_iff.mp h
  obtain ⟨hl, rfl⟩ := items?_foundIn his
  refine fits_list hl fun a hmem => ?_
  obtain ⟨b, hb⟩ :=
    Option.exists_of_mapM_eq_some h (List.mem_map_of_mem (List.mem_map_of_mem hmem))
  exact ha hl a hmem b hb

mutual

/-- What can be read as a value is complete. -/
theorem fits_of_value? : (v : Json) → {level : Nat} → level ≤ maxNesting → {w : Json} →
    (v.foundIn level).value? = some w → v.Fits level
  | .null, _, hl, _, _ => fits_leaf hl rfl
  | .bool _, _, hl, _, _ => fits_leaf hl rfl
  | .int _, _, hl, _, _ => fits_leaf hl rfl
  | .double _, _, hl, _, _ => fits_leaf hl rfl
  | .str _, _, hl, _, _ => fits_leaf hl rfl
  | .arr vs, level, _, _, h => by
    rw [foundIn] at h
    split at h
    · rename_i hl
      obtain ⟨ws, hws, -⟩ := Option.map_eq_some_iff.mp h
      exact fits_arr hl (fits_of_valueItems? vs hl hws)
    · cases h
  | .obj ms, level, _, _, h => by
    obtain ⟨hl, h⟩ := of_obj rfl h
    obtain ⟨ws, hws, -⟩ := Option.map_eq_some_iff.mp h
    exact fits_obj hl (fitsMembers_of_valueMembers? ms hl hws)

theorem fits_of_valueItems? : (vs : List Json) → {level : Nat} → level ≤ maxNesting →
    {ws : List Json} → valueItems? (foundItems level vs) = some ws → ∀ v ∈ vs, v.Fits level
  | [], _, _, _, _ => nofun
  | v :: vs, level, hl, _, h => by
    obtain ⟨w, hw, h⟩ := Option.bind_eq_some_iff.mp h
    obtain ⟨ws, hws, h⟩ := Option.bind_eq_some_iff.mp h
    exact List.forall_mem_cons.mpr ⟨fits_of_value? v hl hw, fits_of_valueItems? vs hl hws⟩

theorem fitsMembers_of_valueMembers? : (ms : List (String × Json)) → {level : Nat} →
    level ≤ maxNesting → {ws : List (String × Json)} →
    valueMembers? (foundMembers level ms) = some ws → FitsMembers level ms
  | [], _, _, _, _ => trivial
  | (_, v) :: ms, level, hl, _, h => by
    obtain ⟨w, hw, h⟩ := Option.bind_eq_some_iff.mp h
    obtain ⟨ws, hws, h⟩ := Option.bind_eq_some_iff.mp h
    exact ⟨fits_of_value? v hl hw, fitsMembers_of_valueMembers? ms hl hws⟩

end

/-- An object fits if its members are decoded to values. -/
theorem fits_of_dictionary? {as : List (String × Json)}
    (h : ((obj ms).foundIn level).dictionary? Input.value? = some as) : (obj ms).Fits level := by
  obtain ⟨hl, h⟩ := of_obj rfl h
  rw [dictionary?, members?, Option.bind_some, foundMembers_eq] at h
  refine fits_obj hl (fitsMembers_iff.mpr fun m hm => ?_)
  obtain ⟨a, ha⟩ := Option.exists_of_mapM_eq_some h (List.mem_map_of_mem hm)
  obtain ⟨w, hw, -⟩ := Option.map_eq_some_iff.mp ha
  exact fits_of_value? m.2 hl hw

theorem of_nullable?_foundIn {f : Input → Option α} {a : Option α}
    (h : ((obj ms).foundIn level).nullable? f = some a) :
    ∃ b, f ((obj ms).foundIn level) = some b := by
  have brackets : (obj ms).foundIn level ≠ .value .null := by
    rw [foundIn]
    split <;> exact nofun
  rw [Input.nullable?.eq_2 _ _ brackets] at h
  obtain ⟨b, hb, -⟩ := Option.map_eq_some_iff.mp h
  exact ⟨b, hb⟩

end

end AnnotatedCircuit.Json
