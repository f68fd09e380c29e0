import AnnotatedCircuit.Json.Reader
import AnnotatedCircuit.Proofs.Json.Decode
import AnnotatedCircuit.Proofs.Json.Scanning

/-!
# Reading a printed value

What `Input.parse?` finds in the text of a value is the value again, with every floating-point
number read from its digits and with the brackets that stand inside of too many others unreadable
(`Json.foundIn`). If no more than `maxNesting` brackets are nested, nothing is unreadable
(`Json.foundIn_eq_reread`).
-/

namespace AnnotatedCircuit.Json

mutual

/-- A value as it is found in its text if that is not nested too deep. -/
def reread : Json → Input
  | .arr items => .arr (rereadItems items)
  | .obj members => .obj (rereadMembers members)
  | .str s => .value (.str s)
  | v => (atom? v.leaf).getD .unreadable

def rereadItems : List Json → List Input
  | [] => []
  | v :: vs => v.reread :: rereadItems vs

def rereadMembers : List (String × Json) → List (String × Input)
  | [] => []
  | (k, v) :: ms => (k, v.reread) :: rereadMembers ms

end

mutual

/-- A value as it is found in its text, inside of `level` brackets. -/
def foundIn (level : Nat) : Json → Input
  | .arr items =>
    if level < maxNesting then .arr (foundItems (level + 1) items) else .unreadable
  | .obj members =>
    if level < maxNesting then .obj (foundMembers (level + 1) members) else .unreadable
  | v => v.reread

def foundItems (level : Nat) : List Json → List Input
  | [] => []
  | v :: vs => v.foundIn level :: foundItems level vs

def foundMembers (level : Nat) : List (String × Json) → List (String × Input)
  | [] => []
  | (k, v) :: ms => (k, v.foundIn level) :: foundMembers level ms

end

mutual

/-- Brackets that are not nested too deep are all found. -/
theorem foundIn_eq_reread : (v : Json) → (level : Nat) → level + v.depth ≤ maxNesting →
    v.foundIn level = v.reread
  | .null, _, _ => rfl
  | .bool _, _, _ => rfl
  | .int _, _, _ => rfl
  | .double _, _, _ => rfl
  | .str _, _, _ => rfl
  | .arr vs, level, h => by
    rw [depth] at h
    rw [foundIn, reread, if_pos (by omega), foundItems_eq_reread vs (level + 1) (by omega)]
  | .obj ms, level, h => by
    rw [depth] at h
    rw [foundIn, reread, if_pos (by omega), foundMembers_eq_reread ms (level + 1) (by omega)]

theorem foundItems_eq_reread : (vs : List Json) → (level : Nat) →
    level + depthItems vs ≤ maxNesting → foundItems level vs = rereadItems vs
  | [], _, _ => rfl
  | v :: vs, level, h => by
    rw [depthItems] at h
    rw [foundItems, rereadItems, foundIn_eq_reread v level (by omega),
      foundItems_eq_reread vs level (by omega)]

theorem foundMembers_eq_reread : (ms : List (String × Json)) → (level : Nat) →
    level + depthMembers ms ≤ maxNesting → foundMembers level ms = rereadMembers ms
  | [], _, _ => rfl
  | (k, v) :: ms, level, h => by
    rw [depthMembers] at h
    rw [foundMembers, rereadMembers, foundIn_eq_reread v level (by omega),
      foundMembers_eq_reread ms level (by omega)]

end

namespace Reader

/-- A value is read alike as the first item of an array. -/
theorem step?_itemOrClose (v : Json) (stack : List Frame) : ∃ t ts, v.tokens = t :: ts ∧
    step? ⟨stack, .itemOrClose⟩ t = step? ⟨stack, .value⟩ t := by
  unfold tokens
  split <;> exact ⟨_, _, rfl, rfl⟩

theorem nested_eq_ite (stack : List Frame) (i : Input) :
    nested stack i = if stack.length < maxNesting then i else .unreadable := by
  rw [nested]
  refine if_congr ?_ rfl rfl
  rw [List.isEmpty_iff, List.drop_eq_nil_iff, Nat.le_sub_one_iff_lt (by decide)]

theorem read_append {r r' : Reader} {ts : List Token} (h : ts.foldlM step? r = some r')
    (rest : List Token) : (ts ++ rest).foldlM step? r = rest.foldlM step? r' := by
  rw [List.foldlM_append, h]
  rfl

theorem read_first (v : Json) (stack : List Frame) (rest : List Token) :
    (v.tokens ++ rest).foldlM step? ⟨stack, .itemOrClose⟩ =
      (v.tokens ++ rest).foldlM step? ⟨stack, .value⟩ := by
  obtain ⟨t, ts, e, alike⟩ := step?_itemOrClose v stack
  rw [e, List.cons_append, List.foldlM_cons, List.foldlM_cons, alike]

mutual

/-- The tokens of a value are read as the value. -/
theorem read_tokens : (v : Json) → (stack : List Frame) →
    v.tokens.foldlM step? ⟨stack, .value⟩ = accept? (v.foundIn stack.length) stack
  | .null, stack => bind_pure _
  | .bool b, stack => bind_pure _
  | .int n, stack => bind_pure _
  | .double x, stack => bind_pure _
  | .str s, stack => bind_pure _
  | .arr [], stack => by
    refine (bind_pure (close? (.array [] :: stack) .closeArray)).trans ?_
    rw [close?, nested_eq_ite]
    rfl
  | .obj [], stack => by
    refine (bind_pure (close? (.object (some []) :: stack) .closeObject)).trans ?_
    rw [close?, nested_eq_ite]
    rfl
  | .arr (v :: vs), stack => by
    have first := read_tokens v (.array [] :: stack)
    have items := read_items vs [v.foundIn (stack.length + 1)] stack
    rw [tokens, List.foldlM_cons, List.append_assoc]
    refine (read_first v (.array [] :: stack) _).trans ?_
    refine (read_append first _).trans ((read_append items _).trans ?_)
    refine (bind_pure (close? (.array _ :: stack) .closeArray)).trans ?_
    rw [close?, nested_eq_ite, List.reverse_append, List.reverse_reverse]
    rfl
  | .obj ((k, v) :: ms), stack => by
    have first := read_tokens v (.entry (some []) (some k) :: stack)
    have members := read_members ms [(k, v.foundIn (stack.length + 1))] stack
    rw [tokens, List.append_assoc]
    refine (read_append first _).trans ((read_append members _).trans ?_)
    refine (bind_pure (close? (.object (some _) :: stack) .closeObject)).trans ?_
    rw [close?, nested_eq_ite, List.reverse_append, List.reverse_reverse]
    rfl

theorem read_items : (vs : List Json) → (read : List Input) → (stack : List Frame) →
    (tokensItems vs).foldlM step? ⟨.array read :: stack, .commaOrClose⟩ =
      some ⟨.array ((foundItems (stack.length + 1) vs).reverse ++ read) :: stack, .commaOrClose⟩
  | [], read, stack => rfl
  | v :: vs, read, stack => by
    have first := read_tokens v (.array read :: stack)
    have items := read_items vs (v.foundIn (stack.length + 1) :: read) stack
    rw [tokensItems, foundItems, List.reverse_cons, List.append_assoc]
    exact (read_append first _).trans items

theorem read_members : (ms : List (String × Json)) → (read : List (String × Input)) →
    (stack : List Frame) →
    (tokensMembers ms).foldlM step? ⟨.object (some read) :: stack, .commaOrClose⟩ =
      some ⟨.object (some ((foundMembers (stack.length + 1) ms).reverse ++ read)) :: stack,
        .commaOrClose⟩
  | [], read, stack => rfl
  | (k, v) :: ms, read, stack => by
    have first := read_tokens v (.entry (some read) (some k) :: stack)
    have members := read_members ms ((k, v.foundIn (stack.length + 1)) :: read) stack
    rw [tokensMembers, foundMembers, List.reverse_cons, List.append_assoc]
    exact (read_append first _).trans members

end

end Reader

/-- A value is read from its tokens. -/
theorem ofTokens?_tokens (v : Json) : Input.ofTokens? v.tokens = some (v.foundIn 0) := by
  rw [Input.ofTokens?, Reader.read_tokens v []]
  rfl

theorem parse?_pretty {v : Json} (hv : v.Plain) : Input.parse? v.pretty = some (v.foundIn 0) := by
  rw [Input.parse?, scan?_pretty hv, Option.bind_some, ofTokens?_tokens]

theorem parse?_pretty_newline {v : Json} (hv : v.Plain) :
    Input.parse? (v.pretty ++ "\n") = some (v.foundIn 0) := by
  rw [Input.parse?, scan?_pretty_newline hv, Option.bind_some, ofTokens?_tokens]

/-! ### Decoding what is found -/

theorem reread_int {n : Int} (h : (int n).Plain) : (int n).reread = .value (.int n) :=
  congrArg (fun j : Option Input => j.getD .unreadable) (atom?_int h.1 h.2)

theorem reread_double {x : Binary64} (h : (double x).Plain) :
    ∃ y, (double x).reread = .value (.double y) := by
  obtain ⟨y, hy⟩ := h.read
  exact ⟨y, congrArg (fun j : Option Input => j.getD .unreadable) hy⟩

mutual

theorem depth_reread : (v : Json) → v.Plain → v.reread.depth = v.depth
  | .null, _ => rfl
  | .bool true, _ => rfl
  | .bool false, _ => rfl
  | .int n, h => by
    rw [reread_int h]
    rfl
  | .double x, h => by
    obtain ⟨y, hy⟩ := reread_double h
    rw [hy]
    rfl
  | .str s, _ => rfl
  | .arr vs, h => congrArg (1 + ·) (depthItems_reread vs h)
  | .obj ms, h => congrArg (1 + ·) (depthMembers_reread ms h)

theorem depthItems_reread : (vs : List Json) → PlainItems vs →
    Input.depthItems (rereadItems vs) = depthItems vs
  | [], _ => rfl
  | v :: vs, h => congrArg₂ max (depth_reread v h.1) (depthItems_reread vs h.2)

theorem depthMembers_reread : (ms : List (String × Json)) → PlainMembers ms →
    Input.depthMembers (rereadMembers ms) = depthMembers ms
  | [], _ => rfl
  | (_, v) :: ms, h => congrArg₂ max (depth_reread v h.1) (depthMembers_reread ms h.2)

end

mutual

/-- The text of a value spells a value. -/
theorem value?_reread : (v : Json) → v.Plain → ∃ w, v.reread.value? = some w
  | .null, _ => ⟨_, rfl⟩
  | .bool true, _ => ⟨_, rfl⟩
  | .bool false, _ => ⟨_, rfl⟩
  | .int n, h => ⟨.int n, by rw [reread_int h, Input.value?_value]⟩
  | .double x, h => by
    obtain ⟨y, hy⟩ := reread_double h
    exact ⟨.double y, by rw [hy, Input.value?_value]⟩
  | .str s, _ => ⟨_, rfl⟩
  | .arr vs, h => by
    obtain ⟨ws, hws⟩ := valueItems?_reread vs h
    exact ⟨.arr ws, by rw [reread, Input.value?, hws]; rfl⟩
  | .obj ms, h => by
    obtain ⟨ns, hns⟩ := valueMembers?_reread ms h
    exact ⟨_, by rw [reread, Input.value?, hns]; rfl⟩

theorem valueItems?_reread : (vs : List Json) → PlainItems vs →
    ∃ ws, Input.valueItems? (rereadItems vs) = some ws
  | [], _ => ⟨_, rfl⟩
  | v :: vs, h => by
    obtain ⟨w, hw⟩ := value?_reread v h.1
    obtain ⟨ws, hws⟩ := valueItems?_reread vs h.2
    exact ⟨w :: ws, by rw [rereadItems, Input.valueItems?, hw, hws]; rfl⟩

theorem valueMembers?_reread : (ms : List (String × Json)) → PlainMembers ms →
    ∃ ns, Input.valueMembers? (rereadMembers ms) = some ns
  | [], _ => ⟨_, rfl⟩
  | (k, v) :: ms, h => by
    obtain ⟨w, hw⟩ := value?_reread v h.1
    obtain ⟨ns, hns⟩ := valueMembers?_reread ms h.2
    exact ⟨(k, w) :: ns, by rw [rereadMembers, Input.valueMembers?, hw, hns]; rfl⟩

end

theorem rereadItems_eq (vs : List Json) : rereadItems vs = vs.map reread := by
  induction vs with
  | nil => rfl
  | cons v vs ih => rw [rereadItems, ih, List.map_cons]

theorem rereadMembers_eq (ms : List (String × Json)) :
    rereadMembers ms = ms.map fun m => (m.1, m.2.reread) := by
  induction ms with
  | nil => rfl
  | cons m ms ih => rw [rereadMembers, ih, List.map_cons]

theorem plainItems_iff {vs : List Json} : PlainItems vs ↔ ∀ v ∈ vs, v.Plain := by
  induction vs with
  | nil => simp [PlainItems]
  | cons v vs ih => rw [PlainItems, ih, List.forall_mem_cons]

theorem plainMembers_iff {ms : List (String × Json)} : PlainMembers ms ↔ ∀ m ∈ ms, m.2.Plain := by
  induction ms with
  | nil => simp [PlainMembers]
  | cons m ms ih => rw [PlainMembers, ih, List.forall_mem_cons]

/-- A decoder that is given the text. -/
theorem Reading.text :
    Reading (fun v i => v.Plain ∧ i = v.reread) (fun v w => v.reread.value? = some w) where
  null h := h.2
  bool {b i} h := by cases b <;> exact h.2
  int h := h.2.trans (reread_int h.1)
  str h := h.2
  arr {vs i} h := by
    refine ⟨vs.map reread, by rw [h.2, ← rereadItems_eq]; rfl, ?_⟩
    rw [List.forall₂_map_right_iff]
    exact List.forall₂_same.mpr fun v hv => ⟨plainItems_iff.mp h.1 v hv, rfl⟩
  obj {ms i} h := by
    refine ⟨ms.map fun m => (m.1, m.2.reread), by rw [h.2, ← rereadMembers_eq]; rfl, ?_⟩
    rw [List.forall₂_map_right_iff]
    exact List.forall₂_same.mpr fun m hm => ⟨rfl, plainMembers_iff.mp h.1 m hm, rfl⟩
  depth {v i} h := by rw [h.2, depth_reread v h.1]
  value {v i} h := by
    obtain ⟨w, hw⟩ := value?_reread v h.1
    exact ⟨w, by rw [h.2, hw], hw⟩

end AnnotatedCircuit.Json
