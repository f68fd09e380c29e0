import Mathlib.Data.List.Forall2
import AnnotatedCircuit.Json.Decode
import AnnotatedCircuit.Proofs.Outcome

/-!
# Decoding what was written

A reading says what a decoder gets to see of a value that was written: the value itself, or what is
found in its text (`Json.Reading`). For every reading there is one lemma for each of the decoders
that others are put together from. Conversely, what a list or an object is decoded to comes from its
items (`Input.exists_of_mem_list?`, `Input.exists_of_mem_dictionary?`).
-/

namespace AnnotatedCircuit.Json

namespace Input

variable {i : Input} {members : List (String × Input)} {items : List Input}

theorem str?_of_members? (h : i.members? = some members) : i.str? = none := by
  cases i with
  | value v => cases v <;> first | rfl | cases h
  | _ => rfl

theorem ne_null_of_members? (h : i.members? = some members) : i ≠ .value .null := by
  rintro rfl
  cases h

theorem contentFields?_of_members? (h : i.members? = some members) (names : List String) :
    i.contentFields? names = namedFields? names members := by
  cases i with
  | value v => cases v <;> first | (cases h; rfl) | cases h
  | obj => cases h; rfl
  | _ => cases h

/-! ### Where answers come from -/

theorem natBelow?_lt {bound n : Nat} (h : i.natBelow? bound = some n) : n < bound := by
  unfold natBelow? at h
  split at h
  · split at h
    · rename_i hn
      cases h
      exact hn.2
    · cases h
  · cases h

/-- What an array is decoded to comes from its items. -/
theorem exists_of_mem_list? {α : Type} {f : Input → Option α} {as : List α} {a : α}
    (h : i.list? f = some as) (ha : a ∈ as) :
    ∃ is, i.items? = some is ∧ ∃ j ∈ is, f j = some a :=
  let ⟨is, his, h⟩ := Option.bind_eq_some_iff.mp h
  ⟨is, his, Option.exists_of_mem_mapM h ha⟩

/-- What an object is decoded to comes from its members. -/
theorem exists_of_mem_dictionary? {α : Type} {f : Input → Option α} {ms : List (String × α)}
    {m : String × α} (h : i.dictionary? f = some ms) (hm : m ∈ ms) :
    ∃ ns, i.members? = some ns ∧ ∃ n ∈ ns, f n.2 = some m.2 := by
  obtain ⟨ns, hns, h⟩ := Option.bind_eq_some_iff.mp h
  obtain ⟨n, hn, h⟩ := Option.exists_of_mem_mapM h hm
  obtain ⟨a, ha, rfl⟩ := Option.map_eq_some_iff.mp h
  exact ⟨ns, hns, n, hn, ha⟩

theorem of_nullable? {α : Type} {f : Input → Option α} {a : α}
    (h : i.nullable? f = some (some a)) : f i = some a := by
  unfold nullable? at h
  split at h
  · cases h
  · obtain ⟨_, ha, e⟩ := Option.map_eq_some_iff.mp h
    cases e
    exact ha

/-! ### Members by their names -/

theorem filter_key {members : List (String × Input)} (nodup : (members.map Prod.fst).Nodup)
    {m : String × Input} (hm : m ∈ members) : members.filter (fun n => n.1 == m.1) = [m] := by
  induction members with
  | nil => cases hm
  | cons n members ih =>
    obtain ⟨hnew, nodup⟩ := List.nodup_cons.mp nodup
    rcases List.mem_cons.mp hm with rfl | hm
    · rw [List.filter_cons_of_pos (by simp), List.filter_eq_nil_iff.mpr]
      intro n hn e
      exact hnew (eq_of_beq e ▸ List.mem_map_of_mem hn)
    · rw [List.filter_cons_of_neg, ih nodup hm]
      intro e
      exact hnew (eq_of_beq e ▸ List.mem_map_of_mem hm)

/-- Members under distinct names are all found. -/
theorem namedFields?_of_nodup (nodup : (members.map Prod.fst).Nodup) :
    namedFields? (members.map Prod.fst) members = some (members.map fun m => some m.2) := by
  have all : ∀ l : List (String × Input), (∀ m ∈ l, m ∈ members) →
      namedFields? (l.map Prod.fst) members = some (l.map fun m => some m.2) := by
    intro l
    induction l with
    | nil => exact fun _ => rfl
    | cons m l ih =>
      intro h
      obtain ⟨hm, hl⟩ := List.forall_mem_cons.mp h
      have rest := ih hl
      rw [namedFields?] at rest ⊢
      rw [List.map_cons, List.mapM_cons, filter_key nodup hm, rest]
      rfl
  exact all members fun _ h => h

end Input

open Input

/-- How inputs stand to the values they come from: `S v i` says that a decoder gets to see `i` of the
value `v`. Read as a value, the input is like the one it comes from. -/
structure Reading (S : Json → Input → Prop) (Like : Json → Json → Prop) : Prop where
  null : ∀ {i}, S .null i → i = .value .null
  bool : ∀ {b i}, S (.bool b) i → i = .value (.bool b)
  int : ∀ {n i}, S (.int n) i → i = .value (.int n)
  str : ∀ {s i}, S (.str s) i → i = .value (.str s)
  arr : ∀ {vs i}, S (.arr vs) i → ∃ is, i.items? = some is ∧ List.Forall₂ S vs is
  obj : ∀ {ms i}, S (.obj ms) i → ∃ ns, i.members? = some ns ∧
    List.Forall₂ (fun m n => m.1 = n.1 ∧ S m.2 n.2) ms ns
  depth : ∀ {v i}, S v i → i.depth = v.depth
  value : ∀ {v i}, S v i → ∃ w, i.value? = some w ∧ Like v w

/-- A decoder that is given the value itself. -/
theorem Reading.direct : Reading (fun v i => i = .value v) Eq where
  null := id
  bool := id
  int := id
  str := id
  arr {vs i} h := by
    refine ⟨vs.map .value, by rw [h]; rfl, ?_⟩
    rw [List.forall₂_map_right_iff]
    exact List.forall₂_same.mpr fun _ _ => rfl
  obj {ms i} h := by
    refine ⟨ms.map fun m => (m.1, .value m.2), by rw [h]; rfl, ?_⟩
    rw [List.forall₂_map_right_iff]
    exact List.forall₂_same.mpr fun _ _ => ⟨rfl, rfl⟩
  depth h := by rw [h]; rfl
  value {v i} h := ⟨v, by rw [h, value?_value], rfl⟩

namespace Reading

variable {S : Json → Input → Prop} {Like : Json → Json → Prop} {α β : Type} {i : Input} {n : Nat}
  {tag : String} {v : Json} {vs : List Json} {ms : List (String × Json)}

/-! ### Simple values -/

theorem natBelow? (R : Reading S Like) (h : S (Json.nat n) i) {bound : Nat} (hn : n < bound) :
    i.natBelow? bound = some n := by
  rw [R.int h, Input.natBelow?, if_pos ⟨Int.natCast_nonneg n, by simpa using hn⟩]
  rfl

theorem word? (R : Reading S Like) (h : S (Json.nat n) i) (hn : n < Word.limit) :
    i.word? = some n := R.natBelow? h hn

theorem index? (R : Reading S Like) (h : S (Json.nat n) i) (hn : n < Word.limit * Word.limit) :
    i.index? = some n := R.natBelow? h hn

theorem bool? (R : Reading S Like) {b : Bool} (h : S (.bool b) i) : i.bool? = some b := by
  rw [R.bool h]
  rfl

theorem str? (R : Reading S Like) {s : String} (h : S (.str s) i) : i.str? = some s := by
  rw [R.str h]
  rfl

theorem nullable? (R : Reading S Like) {toJson : α → Json} {f : Input → Option α} {a : Option α}
    (h : S (Json.ofOption toJson a) i)
    (ha : ∀ b, a = some b → S (toJson b) i → i ≠ .value .null ∧ f i = some b) :
    i.nullable? f = some a := by
  cases a with
  | none =>
    rw [R.null h]
    rfl
  | some b =>
    obtain ⟨some, hf⟩ := ha b rfl h
    rw [Input.nullable?, hf]
    · rfl
    · exact some

/-! ### Arrays -/

/-- An array is decoded if its items are. -/
theorem list?_of (R : Reading S Like) {toJson : α → Json} {f : Input → Option β}
    {P : α → β → Prop} {as : List α} (h : S (Json.list toJson as) i)
    (ha : ∀ a ∈ as, ∀ j, S (toJson a) j → ∃ b, f j = some b ∧ P a b) :
    ∃ bs, i.list? f = some bs ∧ List.Forall₂ P as bs := by
  obtain ⟨is, his, all⟩ := R.arr h
  rw [Input.list?, his, Option.bind_some]
  rw [List.forall₂_map_left_iff] at all
  clear h his
  induction all with
  | nil => exact ⟨[], rfl, .nil⟩
  | cons hj _ ih =>
    obtain ⟨ha, hrest⟩ := List.forall_mem_cons.mp ha
    obtain ⟨b, hb, hP⟩ := ha _ hj
    obtain ⟨bs, hbs, all⟩ := ih hrest
    exact ⟨b :: bs, by rw [List.mapM_cons, hb, hbs]; rfl, .cons hP all⟩

theorem list? (R : Reading S Like) {toJson : α → Json} {f : Input → Option α} {as : List α}
    (h : S (Json.list toJson as) i) (ha : ∀ a ∈ as, ∀ j, S (toJson a) j → f j = some a) :
    i.list? f = some as := by
  obtain ⟨bs, hbs, all⟩ := R.list?_of (P := (· = ·)) h fun a h j hj => ⟨a, ha a h j hj, rfl⟩
  rw [List.forall₂_eq_eq_eq] at all
  rw [hbs, all]

/-! ### Records and alternatives -/

theorem exists_members (R : Reading S Like) (h : S (.obj ms) i) :
    ∃ ns, i.members? = some ns ∧ ns.map Prod.fst = ms.map Prod.fst ∧
      List.Forall₂ S (ms.map Prod.snd) (ns.map Prod.snd) := by
  obtain ⟨ns, hns, all⟩ := R.obj h
  refine ⟨ns, hns, ?_, ?_⟩
  · clear h hns
    induction all with
    | nil => rfl
    | cons hm _ ih => rw [List.map_cons, List.map_cons, ih, hm.1]
  · rw [List.forall₂_map_left_iff, List.forall₂_map_right_iff]
    exact all.imp fun _ _ h => h.2

/-- A record under distinct names is decoded field by field. -/
theorem fields? (R : Reading S Like) (names : List String) (h : S (.obj ms) i)
    (hn : ms.map Prod.fst = names) (nodup : names.Nodup) :
    ∃ is, i.fields? names = some (is.map some) ∧ List.Forall₂ S (ms.map Prod.snd) is := by
  obtain ⟨ns, hns, hkeys, all⟩ := R.exists_members h
  obtain rfl := hkeys.trans hn
  refine ⟨ns.map Prod.snd, ?_, all⟩
  rw [Input.fields?, hns]
  exact (namedFields?_of_nodup nodup).trans (by simp)

theorem contentFields? (R : Reading S Like) (names : List String) (h : S (.obj ms) i)
    (hn : ms.map Prod.fst = names) (nodup : names.Nodup) :
    ∃ is, i.contentFields? names = some (is.map some) ∧ List.Forall₂ S (ms.map Prod.snd) is := by
  obtain ⟨ns, hns, hkeys, all⟩ := R.exists_members h
  obtain rfl := hkeys.trans hn
  refine ⟨ns.map Prod.snd, ?_, all⟩
  rw [contentFields?_of_members? hns]
  exact (namedFields?_of_nodup nodup).trans (by simp)

theorem mapM_id_map_some (is : List Input) : (is.map some).mapM id = some is := by
  rw [Option.mapM_eq_some_iff, List.forall₂_map_left_iff]
  exact List.forall₂_same.mpr fun _ _ => rfl

theorem allFields? (R : Reading S Like) (names : List String) (h : S (.obj ms) i)
    (hn : ms.map Prod.fst = names) (nodup : names.Nodup) :
    ∃ is, i.allFields? names = some is ∧ List.Forall₂ S (ms.map Prod.snd) is := by
  obtain ⟨is, his, all⟩ := R.fields? names h hn nodup
  exact ⟨is, by rw [Input.allFields?, his, Option.bind_some, mapM_id_map_some], all⟩

theorem allContentFields? (R : Reading S Like) (names : List String) (h : S (.obj ms) i)
    (hn : ms.map Prod.fst = names) (nodup : names.Nodup) :
    ∃ is, i.allContentFields? names = some is ∧ List.Forall₂ S (ms.map Prod.snd) is := by
  obtain ⟨is, his, all⟩ := R.contentFields? names h hn nodup
  exact ⟨is, by rw [Input.allContentFields?, his, Option.bind_some, mapM_id_map_some], all⟩

theorem alternative?_tagged (R : Reading S Like) (h : S (.tagged tag v) i) :
    ∃ j, i.alternative? = some (tag, some j) ∧ S v j := by
  obtain ⟨ns, hns, all⟩ := R.obj h
  cases all with
  | cons hm rest =>
    cases rest
    obtain ⟨rfl, hv⟩ := hm
    exact ⟨_, by rw [Input.alternative?, str?_of_members? hns, hns], hv⟩

theorem tag?_str (R : Reading S Like) (h : S (.str tag) i) : i.tag? = some tag := by
  rw [R.str h]
  rfl

/-- An alternative with a content is no other tag. -/
theorem tag?_tagged (R : Reading S Like) (h : S (.tagged tag v) i) :
    i.tag? = none ∨ i.tag? = some tag := by
  obtain ⟨j, hj, -⟩ := R.alternative?_tagged h
  rw [Input.tag?, hj]
  split
  · rename_i e
    cases e
  · rename_i e
    cases e
    exact .inr rfl
  · exact .inl rfl

theorem ne_null_of_obj (R : Reading S Like) (h : S (.obj ms) i) : i ≠ .value .null := by
  obtain ⟨ns, hns, -⟩ := R.obj h
  exact ne_null_of_members? hns

/-- The members of an object are decoded if their values are. -/
theorem dictionary?_of (R : Reading S Like) {f : Input → Option α} {P : Json → α → Prop}
    (h : S (.obj ms) i) (ha : ∀ m ∈ ms, ∀ j, S m.2 j → ∃ a, f j = some a ∧ P m.2 a) :
    ∃ as, i.dictionary? f = some as ∧
      List.Forall₂ (fun m a => m.1 = a.1 ∧ P m.2 a.2) ms as := by
  obtain ⟨ns, hns, all⟩ := R.obj h
  rw [Input.dictionary?, hns, Option.bind_some]
  clear h hns
  induction all with
  | nil => exact ⟨[], rfl, .nil⟩
  | cons hm _ ih =>
    obtain ⟨ha, hrest⟩ := List.forall_mem_cons.mp ha
    obtain ⟨a, hf, hP⟩ := ha _ hm.2
    obtain ⟨as, has, all⟩ := ih hrest
    refine ⟨(_, a) :: as, ?_, .cons ⟨hm.1, hP⟩ all⟩
    rw [List.mapM_cons, has]
    dsimp only
    rw [hf]
    rfl

end Reading

end AnnotatedCircuit.Json
