import AnnotatedCircuit.Design.Edit
import AnnotatedCircuit.Proofs.Design.Decoded
import AnnotatedCircuit.Proofs.NameSupply

/-!
# Names that a file has taken

The names of the circuit, of its modules and of its anchors stand in a file (`Design.writtenNames?`),
and all of them are in use in the design that is read from it, whatever the file has in its table of
symbols. So anchors that are added one after the other have names that the file does not have, and
different ones (`Design.newAnchors_new`).
-/

namespace AnnotatedCircuit

open Json

namespace Json.Input

variable {α β : Type} {decode : Input → Option α} {decode' : Input → Option β} {f : α → β}
  {i : Input} {as : List α}

/-- The name in a record that has it behind an identity. -/
def recordName? (fields : List String) (i : Input) : Option String :=
  match i.allFields? fields with
  | some (_ :: name :: _) => name.str?
  | _ => none

/-- Items that are decoded can be decoded for less. -/
theorem list?_map (less : ∀ {i a}, decode i = some a → decode' i = some (f a))
    (h : i.list? decode = some as) : i.list? decode' = some (as.map f) := by
  obtain ⟨is, his, h⟩ := Option.bind_eq_some_iff.mp h
  refine Option.bind_eq_some_iff.mpr ⟨is, his, ?_⟩
  rw [Option.mapM_eq_some_iff] at h ⊢
  rw [List.forall₂_map_right_iff]
  exact h.imp fun _ _ => less

theorem orDefault?_map {i : Option Input} {default a : α}
    (less : ∀ {i as}, decode i = some as → decode' i = some (f as))
    (h : orDefault? default decode i = some a) : orDefault? (f default) decode' i = some (f a) := by
  cases i with
  | none => exact congrArg (Option.map f) h
  | some i => exact less h

end Json.Input

theorem Module.recordName?_of_ofInput? {i : Input} {x : Module} (h : ofInput? i = some x) :
    i.recordName? ["id", "name", "kind", "ports", "body"] = some x.name := by
  unfold ofInput? at h
  split at h
  case h_2 => cases h
  rename_i id name kind ports body fields
  obtain ⟨_, -, h⟩ := Option.bind_eq_some_iff.mp h
  obtain ⟨n, hn, h⟩ := Option.bind_eq_some_iff.mp h
  obtain ⟨_, -, h⟩ := Option.bind_eq_some_iff.mp h
  obtain ⟨_, -, h⟩ := Option.bind_eq_some_iff.mp h
  obtain ⟨_, -, h⟩ := Option.bind_eq_some_iff.mp h
  cases h
  rw [Input.recordName?, fields]
  exact hn

theorem Anchor.recordName?_of_ofInput? {i : Input} {a : Anchor} (h : ofInput? i = some a) :
    i.recordName? ["id", "name", "namepath", "leaf"] = some a.name := by
  unfold ofInput? at h
  split at h
  case h_2 => cases h
  rename_i id name path leaf fields
  obtain ⟨_, -, h⟩ := Option.bind_eq_some_iff.mp h
  obtain ⟨n, hn, h⟩ := Option.bind_eq_some_iff.mp h
  obtain ⟨_, -, h⟩ := Option.bind_eq_some_iff.mp h
  obtain ⟨_, -, h⟩ := Option.bind_eq_some_iff.mp h
  cases h
  rw [Input.recordName?, fields]
  exact hn

namespace Design

variable {d d' : Design} {i : Input}

/-- The names that a file has for the circuit, for modules and for anchors, in this order. -/
def writtenNames? (i : Input) : Option (List String) :=
  match i.fields? ["name", "top", "modules", "ops", "values", "raw_annotations", "annotations",
    "hier_paths", "symbols"] with
  | some [some name, _, some modules, _, _, _, _, anchors, _] => do
    let circuit ← name.str?
    let modules ← modules.list? (Input.recordName? ["id", "name", "kind", "ports", "body"])
    let anchors ← Input.orDefault? []
      (Input.list? (Input.recordName? ["id", "name", "namepath", "leaf"])) anchors
    return circuit :: modules ++ anchors
  | _ => none

/-- The names of a file are those in the tables of the design that is read. -/
theorem writtenNames?_of_ofInput? (h : ofInput? i = some d) :
    writtenNames? i = some d.tableNames := by
  unfold ofInput? at h
  split at h
  case h_2 => cases h
  rename_i name top modules ops values pending attachments anchors symbols fields
  obtain ⟨_, hname, h⟩ := Option.bind_eq_some_iff.mp h
  obtain ⟨_, -, h⟩ := Option.bind_eq_some_iff.mp h
  obtain ⟨_, hmodules, h⟩ := Option.bind_eq_some_iff.mp h
  obtain ⟨_, -, h⟩ := Option.bind_eq_some_iff.mp h
  obtain ⟨_, -, h⟩ := Option.bind_eq_some_iff.mp h
  obtain ⟨_, -, h⟩ := Option.bind_eq_some_iff.mp h
  obtain ⟨_, -, h⟩ := Option.bind_eq_some_iff.mp h
  obtain ⟨_, hanchors, h⟩ := Option.bind_eq_some_iff.mp h
  obtain ⟨_, -, h⟩ := Option.bind_eq_some_iff.mp h
  cases h
  have hmodules := Input.list?_map Module.recordName?_of_ofInput? hmodules
  have hanchors := Input.orDefault?_map (f := List.map Anchor.name)
    (Input.list?_map Anchor.recordName?_of_ofInput?) hanchors
  rw [writtenNames?, fields]
  refine Option.bind_eq_some_iff.mpr ⟨_, hname, Option.bind_eq_some_iff.mpr ⟨_, hmodules, ?_⟩⟩
  exact Option.bind_eq_some_iff.mpr ⟨_, hanchors, rfl⟩

/-! ### Adding anchors -/

/-- What an anchor is made of, but for its name, which comes from a hint. -/
structure AnchorRequest where
  hint : String
  path : List PathStep
  leaf : String

/-- An anchor as it was requested. -/
structure AnchorRequest.Made (r : AnchorRequest) (x : Anchor) : Prop where
  name : x.name = r.hint ∨ ∃ k, x.name = NameSupply.candidate r.hint k
  path : x.path = r.path
  leaf : x.leaf = r.leaf

/-- Add anchors one after the other. -/
def newAnchors (d : Design) : List AnchorRequest → Except Overflow Design
  | [] => .ok d
  | r :: rest => do
    let (_, d) ← d.newAnchor r.hint r.path r.leaf
    d.newAnchors rest

/-- A new anchor stands at the end of the table under a name that was not in use, and is from then
on. -/
theorem exists_of_newAnchor {hint : String} {path : List PathStep} {leaf : String} {a : AnchorId}
    (h : d.newAnchor hint path leaf = .ok (a, d')) : ∃ name, name ∉ d.symbols.used ∧
      d'.symbols.used = name :: d.symbols.used ∧
      (name = hint ∨ ∃ k, name = NameSupply.candidate hint k) ∧
      d'.anchors = d.anchors ++ [⟨a, name, path, leaf⟩] := by
  obtain ⟨⟨name, symbols⟩, fresh, h⟩ := Checked.bind_eq_ok_iff.mp h
  cases h
  obtain ⟨new, used, shape⟩ := NameSupply.fresh_ok fresh
  exact ⟨name, new, used, shape, rfl⟩

theorem exists_of_newAnchors {requests : List AnchorRequest} (h : d.newAnchors requests = .ok d') :
    ∃ added, d'.anchors = d.anchors ++ added ∧ List.Forall₂ AnchorRequest.Made requests added ∧
      (∀ x ∈ added, x.name ∉ d.symbols.used) ∧ (added.map Anchor.name).Nodup := by
  induction requests generalizing d with
  | nil =>
    cases h
    exact ⟨[], (List.append_nil _).symm, .nil, fun _ h => absurd h List.not_mem_nil, List.nodup_nil⟩
  | cons r rest ih =>
    obtain ⟨⟨a, d₁⟩, first, h⟩ := Checked.bind_eq_ok_iff.mp h
    obtain ⟨name, new, used, shape, one⟩ := exists_of_newAnchor first
    obtain ⟨added, more, made, unused, distinct⟩ := ih h
    simp only [used, List.mem_cons, not_or] at unused
    refine ⟨⟨a, name, r.path, r.leaf⟩ :: added, ?_, .cons ⟨shape, rfl, rfl⟩ made, ?_, ?_⟩
    · rw [more, one, List.append_assoc]
      rfl
    · exact List.forall_mem_cons.mpr ⟨new, fun x hx => (unused x hx).2⟩
    · refine List.nodup_cons.mpr ⟨fun taken => ?_, distinct⟩
      obtain ⟨x, hx, e⟩ := List.mem_map.mp taken
      exact (unused x hx).1 e

/-- Anchors that are added to a design that was read have names that the file has for nothing else,
and different ones, whatever symbols the file lists. -/
theorem newAnchors_new {requests : List AnchorRequest} (h : ofInput? i = some d)
    (hadded : d.newAnchors requests = .ok d') :
    ∃ names added, writtenNames? i = some names ∧ d'.anchors = d.anchors ++ added ∧
      List.Forall₂ AnchorRequest.Made requests added ∧ (∀ x ∈ added, x.name ∉ names) ∧
      (added.map Anchor.name).Nodup := by
  obtain ⟨added, more, made, unused, distinct⟩ := exists_of_newAnchors hadded
  exact ⟨d.tableNames, added, writtenNames?_of_ofInput? h, more, made,
    fun x hx taken => unused x hx (namesUsed_of_ofInput? h x.name taken), distinct⟩

/-- A file whose table of symbols knows none of its names, and counts a suffix that is taken. -/
def staleJson : Json :=
  .obj [("name", .str "Top"), ("top", .int 0),
    ("modules", .arr [
      .obj [("id", .int 0), ("name", .str "nla"), ("kind", .str "Module"), ("ports", .arr []),
        ("body", .arr [])],
      .obj [("id", .int 1), ("name", .str "nla_1"), ("kind", .str "External"), ("ports", .arr []),
        ("body", .arr [])]]),
    ("ops", .arr []), ("values", .arr []),
    ("hier_paths", .arr [.obj [("id", .int 0), ("name", .str "nla_2"), ("namepath", .arr []),
      ("leaf", .str "nla")]]),
    ("symbols", .obj [("used", .arr [.str "nla_0"]), ("next_suffix", .obj [("nla", .int 1)])])]

theorem newAnchors_new_stale : ∃ d d' names added,
    ofInput? (.value staleJson) = some d ∧
    d.newAnchors [⟨"nla", [], "nla"⟩, ⟨"Top", [], "nla"⟩, ⟨"nla", [], "nla"⟩] = .ok d' ∧
    writtenNames? (.value staleJson) = some names ∧ names = ["Top", "nla", "nla_1", "nla_2"] ∧
    d'.anchors = d.anchors ++ added ∧ added.map Anchor.name = ["nla_3", "Top_0", "nla_4"] ∧
    (∀ x ∈ added, x.name ∉ names) := by
  have run : (ofInput? (.value staleJson)).map (fun d => (d.anchors.map Anchor.name, do
      let d' ← d.newAnchors [⟨"nla", [], "nla"⟩, ⟨"Top", [], "nla"⟩, ⟨"nla", [], "nla"⟩]
      return d'.anchors.map Anchor.name)) =
      some (["nla_2"], .ok ["nla_2", "nla_3", "Top_0", "nla_4"]) := by
    decide +kernel
  obtain ⟨d, hd, run⟩ := Option.map_eq_some_iff.mp run
  obtain ⟨first, run⟩ := Prod.mk.inj run
  obtain ⟨d', hd', all⟩ := Checked.bind_eq_ok_iff.mp run
  replace all := Except.ok.inj all
  obtain ⟨names, added, written, more, -, new, -⟩ := newAnchors_new hd hd'
  have hnames : names = ["Top", "nla", "nla_1", "nla_2"] :=
    Option.some.inj (written.symm.trans (by decide +kernel))
  refine ⟨d, d', names, added, hd, hd', written, hnames, more, ?_, new⟩
  rw [more, List.map_append, first] at all
  exact (List.cons.inj all).2

end Design

end AnnotatedCircuit
