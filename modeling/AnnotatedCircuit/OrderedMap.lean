/-!
Finite maps that remember the order in which their keys were first entered.

`OrderedMap.update` is the one operation that adds: a key that is already there keeps its place,
a new key goes to the end. `keys_update` says so, and the absence of repeated keys, which is a field
of the type, follows from it.
-/

namespace AnnotatedCircuit

/-- Pairs of a key and a value in order of entry, no key twice. -/
structure OrderedMap (κ α : Type) where
  entries : List (κ × α)
  distinct : (entries.map Prod.fst).Nodup

namespace OrderedMap

variable {κ α β : Type}

/-- The map without entries. -/
def empty : OrderedMap κ α := ⟨[], List.nodup_nil⟩

instance : Inhabited (OrderedMap κ α) := ⟨empty⟩

@[ext] theorem ext {m n : OrderedMap κ α} (h : m.entries = n.entries) : m = n := by
  cases m; cases n; cases h; rfl

instance [DecidableEq κ] [DecidableEq α] : DecidableEq (OrderedMap κ α) := fun m n =>
  decidable_of_iff (m.entries = n.entries) ⟨ext, fun h => h ▸ rfl⟩

/-- The keys, first entered first. -/
def keys (m : OrderedMap κ α) : List κ := m.entries.map Prod.fst

/-- The values, in the order of their keys. -/
def values (m : OrderedMap κ α) : List α := m.entries.map Prod.snd

def size (m : OrderedMap κ α) : Nat := m.entries.length

def isEmpty (m : OrderedMap κ α) : Bool := m.entries.isEmpty

theorem keys_nodup (m : OrderedMap κ α) : m.keys.Nodup := m.distinct

section Lookup

variable [DecidableEq κ]

/-- The value stored in a list of pairs under the first pair with key `k`. -/
def lookup (k : κ) : List (κ × α) → Option α
  | [] => none
  | (k', a) :: rest => if k' = k then some a else lookup k rest

/-- The value of `k`, if it was entered. -/
def find? (m : OrderedMap κ α) (k : κ) : Option α := lookup k m.entries

def contains (m : OrderedMap κ α) (k : κ) : Bool := (m.find? k).isSome

/-- Apply `f` to the value under `k`, or enter `f none` at the end. -/
def updateEntries (k : κ) (f : Option α → α) : List (κ × α) → List (κ × α)
  | [] => [(k, f none)]
  | (k', a) :: rest =>
    if k' = k then (k', f (some a)) :: rest else (k', a) :: updateEntries k f rest

theorem keys_updateEntries (k : κ) (f : Option α → α) (es : List (κ × α)) :
    (updateEntries k f es).map Prod.fst =
      if k ∈ es.map Prod.fst then es.map Prod.fst else es.map Prod.fst ++ [k] := by
  induction es with
  | nil => simp [updateEntries]
  | cons e es ih =>
    obtain ⟨k', a⟩ := e
    by_cases h : k' = k
    · simp [updateEntries, h]
    · by_cases hk : k ∈ es.map Prod.fst
      · simp only [updateEntries, h, if_false, List.map_cons, ih, hk, if_true, List.mem_cons,
          or_true]
      · simp only [updateEntries, h, if_false, List.map_cons, ih, hk, List.mem_cons, Ne.symm h,
          or_false, List.cons_append]

/-- Apply `f` to the value of `k`. A key that is not there yet is entered at the end with the
value `f none`. -/
def update (m : OrderedMap κ α) (k : κ) (f : Option α → α) : OrderedMap κ α where
  entries := updateEntries k f m.entries
  distinct := by
    rw [keys_updateEntries]
    split
    · exact m.distinct
    · rename_i h
      exact List.nodup_append.mpr ⟨m.distinct, by simp, fun a ha b hb => by
        rw [List.mem_singleton.mp hb]; exact fun e => h (e ▸ ha)⟩

/-- Entering a value leaves the keys in place, with a new key at the end. -/
theorem keys_update (m : OrderedMap κ α) (k : κ) (f : Option α → α) :
    (m.update k f).keys = if k ∈ m.keys then m.keys else m.keys ++ [k] :=
  keys_updateEntries k f m.entries

/-- Store `a` under `k`, in the place of the former value if there is one. -/
def insert (m : OrderedMap κ α) (k : κ) (a : α) : OrderedMap κ α := m.update k fun _ => a

/-- The pairs entered one after the other: a repeated key keeps its first place and its last
value. -/
def ofList (es : List (κ × α)) : OrderedMap κ α :=
  es.foldl (fun m e => m.insert e.1 e.2) empty

end Lookup

/-- The entries whose key satisfies `p`. -/
def filterKeys (m : OrderedMap κ α) (p : κ → Bool) : OrderedMap κ α where
  entries := m.entries.filter fun e => p e.1
  distinct := m.distinct.sublist (List.filter_sublist.map Prod.fst)

/-- Remove `k`; the other entries keep their order. -/
def erase [DecidableEq κ] (m : OrderedMap κ α) (k : κ) : OrderedMap κ α :=
  m.filterKeys fun k' => k' ≠ k

/-- Apply `f` to every value. -/
def mapValues (m : OrderedMap κ α) (f : α → β) : OrderedMap κ β where
  entries := m.entries.map fun e => (e.1, f e.2)
  distinct := by rw [List.map_map]; exact m.distinct

section Laws

variable [DecidableEq κ]

theorem lookup_updateEntries (k k' : κ) (f : Option α → α) (es : List (κ × α)) :
    lookup k' (updateEntries k f es) = if k = k' then some (f (lookup k es)) else lookup k' es := by
  induction es with
  | nil => simp [updateEntries, lookup]
  | cons e es ih =>
    obtain ⟨j, a⟩ := e
    by_cases hj : j = k
    · subst hj
      by_cases h : j = k' <;> simp [updateEntries, lookup, h]
    · by_cases h : j = k'
      · subst h
        simp [updateEntries, lookup, hj, Ne.symm hj]
      · simp only [updateEntries, hj, if_false, lookup, h, ih]

/-- A look-up after an update sees the new value under that key and nothing else changed. -/
theorem find?_update (m : OrderedMap κ α) (k k' : κ) (f : Option α → α) :
    (m.update k f).find? k' = if k = k' then some (f (m.find? k)) else m.find? k' :=
  lookup_updateEntries k k' f m.entries

theorem find?_insert (m : OrderedMap κ α) (k k' : κ) (a : α) :
    (m.insert k a).find? k' = if k = k' then some a else m.find? k' :=
  find?_update m k k' fun _ => a

theorem lookup_filter (p : κ → Bool) (k : κ) (es : List (κ × α)) :
    lookup k (es.filter fun e => p e.1) = if p k then lookup k es else none := by
  induction es with
  | nil => simp [lookup]
  | cons e es ih =>
    obtain ⟨j, a⟩ := e
    by_cases hj : j = k
    · subst hj
      cases h : p j <;> simp [lookup, h, ih]
    · cases h : p j <;> simp [lookup, h, hj, ih]

theorem find?_filterKeys (m : OrderedMap κ α) (p : κ → Bool) (k : κ) :
    (m.filterKeys p).find? k = if p k then m.find? k else none :=
  lookup_filter p k m.entries

theorem find?_erase (m : OrderedMap κ α) (k k' : κ) :
    (m.erase k).find? k' = if k = k' then none else m.find? k' := by
  rw [erase, find?_filterKeys]
  by_cases h : k = k'
  · simp [h]
  · simp [h, Ne.symm h]

theorem lookup_map (f : α → β) (k : κ) (es : List (κ × α)) :
    lookup k (es.map fun e => (e.1, f e.2)) = (lookup k es).map f := by
  induction es with
  | nil => rfl
  | cons e es ih =>
    obtain ⟨j, a⟩ := e
    by_cases h : j = k
    · simp [lookup, h]
    · simp only [List.map_cons, lookup, h, if_false, ih]

theorem find?_mapValues (m : OrderedMap κ α) (f : α → β) (k : κ) :
    (m.mapValues f).find? k = (m.find? k).map f :=
  lookup_map f k m.entries

theorem updateEntries_map (f : α → β) (k : κ) (a : α) (es : List (κ × α)) :
    updateEntries k (fun _ => f a) (es.map fun e => (e.1, f e.2)) =
      (updateEntries k (fun _ => a) es).map fun e => (e.1, f e.2) := by
  induction es with
  | nil => rfl
  | cons e es ih =>
    simp only [updateEntries, List.map_cons, ih]
    split <;> rfl

theorem mapValues_insert (m : OrderedMap κ α) (f : α → β) (k : κ) (a : α) :
    (m.insert k a).mapValues f = (m.mapValues f).insert k (f a) :=
  ext (updateEntries_map f k a m.entries).symm

theorem mapValues_ofList (f : α → β) (es : List (κ × α)) :
    (ofList es).mapValues f = ofList (es.map fun e => (e.1, f e.2)) := by
  have step : ∀ m : OrderedMap κ α, (es.foldl (fun m e => m.insert e.1 e.2) m).mapValues f =
      es.foldl (fun m e => m.insert e.1 (f e.2)) (m.mapValues f) := by
    induction es with
    | nil => exact fun _ => rfl
    | cons e es ih => exact fun m => (ih _).trans (by rw [mapValues_insert]; rfl)
  rw [ofList, ofList, step, List.foldl_map]
  rfl

theorem lookup_isSome_iff (k : κ) (es : List (κ × α)) :
    (lookup k es).isSome ↔ k ∈ es.map Prod.fst := by
  induction es with
  | nil => simp [lookup]
  | cons e es ih =>
    obtain ⟨j, a⟩ := e
    by_cases h : j = k
    · simp [lookup, h]
    · simp only [lookup, h, if_false, ih, List.map_cons, List.mem_cons, Ne.symm h, false_or]

theorem contains_iff (m : OrderedMap κ α) (k : κ) : m.contains k = true ↔ k ∈ m.keys :=
  lookup_isSome_iff k m.entries

end Laws

end OrderedMap

end AnnotatedCircuit
