import AnnotatedCircuit.CommandLine.Run
import AnnotatedCircuit.Proofs.Design.Decoded
import AnnotatedCircuit.Proofs.Design.Nesting
import AnnotatedCircuit.Proofs.Design.Roundtrip
import AnnotatedCircuit.Proofs.Lowering.Stored

/-!
# Files of the commands

What the commands read as a design passes the check and can be written down
(`CommandLine.readDesign_sound`), and what is written of a sound design is read as a design with the
same tables, unless its types or notes are nested too deep (`CommandLine.readDesign_written`). Both
together say when the commands read what a lowering writes (`CommandLine.readDesign_runLower`).
-/

namespace AnnotatedCircuit.CommandLine

open Json

variable {read : FileReader} {path : String} {d d' : Design} {notes options output : Option String}
  {o : LowerOptions} {ignoreUnhandled ignoreClassless : Bool} {report : Report}

theorem readAs_eq_ok_iff {α : Type} {decode : Input → Option α} {what : String} {a : α} :
    readAs read decode what path = .ok a ↔
      ∃ text i, read path = .ok text ∧ Input.parse? text = some i ∧ decode i = some a := by
  unfold readAs
  cases read path with
  | error => simp
  | ok text =>
    cases hi : Input.parse? text with
    | none => simp [hi]
    | some i => cases ha : decode i <;> simp [hi, ha]

theorem readDesign_eq_ok_iff : readDesign read path = .ok d ↔
    readAs read Design.ofInput? "design" path = .ok d ∧ d.check = .ok () := by
  unfold readDesign
  rw [Checked.bind_eq_ok_iff]
  constructor
  · rintro ⟨d', hd, h⟩
    split at h
    · rename_i passed
      cases h
      exact ⟨hd, passed⟩
    · cases h
  · rintro ⟨hd, passed⟩
    refine ⟨d, hd, ?_⟩
    rw [passed]
    rfl

/-- What is read as a design passes the check and can be written down. -/
theorem readDesign_sound (h : readDesign read path = .ok d) :
    d.check = .ok () ∧ d.Writable ∧ d.PlainNotes := by
  obtain ⟨hd, passed⟩ := readDesign_eq_ok_iff.mp h
  obtain ⟨text, i, -, hi, hd⟩ := readAs_eq_ok_iff.mp hd
  exact ⟨passed, Design.writable_of_ofInput? hd,
    Design.plainNotes_of_ofInput? (Input.plain_of_parse? hi) hd⟩

/-- The notes of another file do no harm. -/
theorem lowerInputs_sound
    (h : lowerInputs read path notes options ignoreUnhandled ignoreClassless = .ok (d, o)) :
    d.check = .ok () ∧ d.Writable ∧ d.PlainNotes := by
  obtain ⟨d₀, hd, h⟩ := Checked.bind_eq_ok_iff.mp h
  obtain ⟨passed, W, N⟩ := readDesign_sound hd
  have joined : ∃ further : List Note, (∀ n ∈ further, n.Plain) ∧
      d = { d₀ with pending := d₀.pending ++ further } := by
    cases notes with
    | none =>
      obtain ⟨further, hfurther, h⟩ := Checked.bind_eq_ok_iff.mp h
      cases hfurther
      refine ⟨[], fun _ h => absurd h List.not_mem_nil, ?_⟩
      cases options <;> obtain ⟨_, -, h⟩ := Checked.bind_eq_ok_iff.mp h <;> cases h <;> rfl
    | some file =>
      obtain ⟨further, hfurther, h⟩ := Checked.bind_eq_ok_iff.mp h
      obtain ⟨text, i, -, hi, hlist⟩ := readAs_eq_ok_iff.mp hfurther
      refine ⟨further, Note.plain_of_list? (Input.plain_of_parse? hi) hlist, ?_⟩
      cases options <;> obtain ⟨_, -, h⟩ := Checked.bind_eq_ok_iff.mp h <;> cases h <;> rfl
  obtain ⟨further, plain, rfl⟩ := joined
  refine ⟨passed, ⟨W.top, W.modules, W.ops, W.values, W.attachments, W.anchors, W.symbols⟩,
    fun n hn => ?_, N.attached⟩
  rcases List.mem_append.mp hn with hn | hn
  · exact N.pending n hn
  · exact plain n hn

/-- From the text of a design, with or without the end of a line behind it, a design is read as it
is decoded of what is found there. -/
theorem readDesign_pretty (W : d.Writable) (N : d.PlainNotes)
    (h : read path = .ok d.toJson.pretty ∨ read path = .ok (d.toJson.pretty ++ "\n")) :
    readDesign read path = .ok d' ↔
      Design.ofInput? (d.toJson.foundIn 0) = some d' ∧ d'.check = .ok () := by
  have plain := Design.plain_toJson W N
  have text : ∃ text, read path = .ok text ∧ Input.parse? text = some (d.toJson.foundIn 0) := by
    rcases h with h | h
    · exact ⟨_, h, parse?_pretty plain⟩
    · exact ⟨_, h, parse?_pretty_newline plain⟩
  obtain ⟨text, htext, hparse⟩ := text
  simp [readDesign_eq_ok_iff, readAs_eq_ok_iff, htext, hparse]

/-- The text of a sound design is read as a design with the same tables, provided that it is not
nested too deep. -/
theorem readDesign_written (S : d.Sound fun _ => 0) (W : d.Writable) (N : d.PlainNotes)
    (h : read path = .ok d.toJson.pretty ∨ read path = .ok (d.toJson.pretty ++ "\n")) :
    ((∃ d', readDesign read path = .ok d') ↔ d.toJson.depth ≤ maxNesting) ∧
      ∀ d', readDesign read path = .ok d' → d.SameTables d' := by
  obtain ⟨d₁, hd₁, tables⟩ := Design.ofInput?_reread W N
  -- Nothing else is decoded, and that only if all brackets are readable.
  have only : ∀ d', readDesign read path = .ok d' → d.toJson.depth ≤ maxNesting ∧ d' = d₁ := by
    intro d' hd'
    obtain ⟨hd', -⟩ := (readDesign_pretty W N h).mp hd'
    have fits : 0 + d.toJson.depth ≤ maxNesting := Design.fits_of_ofInput? hd'
    rw [foundIn_eq_reread _ 0 fits, hd₁] at hd'
    exact ⟨by omega, (Option.some.inj hd').symm⟩
  have passed : d₁.check = .ok () := by
    have same := (S.annotated d₁.pending d₁.attachments d₁.anchors d₁.symbols).check
    obtain ⟨_, _, _, _, _, _, _, _, _⟩ := d₁
    obtain ⟨rfl, rfl, rfl, rfl, rfl, rfl⟩ := tables
    exact same
  refine ⟨⟨fun ⟨d', hd'⟩ => (only d' hd').1, fun shallow => ⟨d₁, ?_⟩⟩, fun d' hd' => ?_⟩
  · refine (readDesign_pretty W N h).mpr ⟨?_, passed⟩
    rw [foundIn_eq_reread _ 0 (by omega), hd₁]
  · rw [(only d' hd').2]
    exact tables

/-- The text that a command prints or writes to a file. -/
def Outcome.text (o : Outcome) : String :=
  match o.file with
  | none => o.stdout
  | some (_, text) => text

theorem runLower_text
    (h : lowerInputs read path notes options ignoreUnhandled ignoreClassless = .ok (d, o))
    (hl : d.lower o = .ok (report, d')) (output : Option String) :
    let text := (runLower read path notes options output ignoreUnhandled ignoreClassless).text
    text = d'.toJson.pretty ∨ text = d'.toJson.pretty ++ "\n" := by
  unfold runLower
  rw [h]
  dsimp only
  rw [hl]
  cases output with
  | none => exact .inr rfl
  | some => exact .inl rfl

/-- What a lowering makes of a coherent design passes the check again. What it prints or writes is
read as a design with the same tables, except where types or notes are nested too deep for a
text. -/
theorem readDesign_runLower
    (h : lowerInputs read path notes options ignoreUnhandled ignoreClassless = .ok (d, o))
    (H : d.Coherent) (hl : d.lower o = .ok (report, d')) (room : d'.Room)
    (few : d'.anchors.length ≤ Word.limit) {later : FileReader} {copy : String}
    (written : later copy =
      .ok (runLower read path notes options output ignoreUnhandled ignoreClassless).text) :
    d'.check = .ok () ∧
      ((∃ d'', readDesign later copy = .ok d'') ↔ d'.toJson.depth ≤ maxNesting) ∧
      ∀ d'', readDesign later copy = .ok d'' → d'.SameTables d'' := by
  obtain ⟨passed, W, N⟩ := lowerInputs_sound h
  obtain ⟨visible, fits⟩ := (Design.check_eq_ok_iff H).mp passed
  have S : d.Sound fun _ => 0 := ⟨H, visible, fits⟩
  obtain ⟨W', N'⟩ := Design.writable_lower S W N hl room few
  refine ⟨Design.check_lower H passed hl, readDesign_written (Design.sound_lower S hl) W' N' ?_⟩
  rcases runLower_text h hl output with e | e
  · exact .inl (written.trans (congrArg _ e))
  · exact .inr (written.trans (congrArg _ e))

def wiredNotes : List Note :=
  [(Note.ofClassAndTarget "firrtl.passes.wiring.SourceAnnotation" "Top|A>w").insert "pin"
      (.str "p"),
    .ofClassAndTarget "circt.test" "Top|Top/a:A>w",
    (Note.ofClassAndTarget "firrtl.passes.wiring.SinkAnnotation" "Top|Top>sink").insert "pin"
      (.str "p")]

/-- A source inside of an instance, a sink beside the instance, and a note to attach. -/
def wiredCalls : List Edit.Call :=
  [.newModule "A" .defined, .newWire ⟨1⟩ "w" (.uint (some 1)), .instantiate ⟨0⟩ "a" ⟨1⟩,
    .newWire ⟨0⟩ "sink" (.uint (some 1)), .setNotes wiredNotes .empty]

def wired : Design := (Design.new "Top").edited wiredCalls

theorem coherent_wired : wired.Coherent := ((Design.Built.new "Top").edited _).coherent

theorem writable_wired : wired.Writable := by
  have type : (SignalType.uint (some 1)).Writable := by simp [SignalType.Writable, Word.limit]
  refine Design.writable_edited ?_ ⟨by decide +kernel, by decide +kernel, by decide +kernel⟩
    (by decide +kernel)
  simp only [wiredCalls, List.forall_mem_cons]
  exact ⟨trivial, type, trivial, type, List.forall_mem_nil _, List.forall_mem_nil _⟩

theorem plainNotes_wired : wired.PlainNotes := by
  refine ⟨fun n hn m hm => ?_, fun e n hn => by cases hn⟩
  have texts : ∀ n ∈ wired.pending, ∀ m ∈ n.fields.entries, m.2.str?.isSome := by decide +kernel
  have text := texts n hn m hm
  cases hv : m.2 <;> rw [hv] at text <;> trivial

theorem readDesign_runLower_wired :
    let read : FileReader := fun _ => .ok wired.toJson.pretty
    let later : FileReader := fun _ =>
      .ok (runLower read "top.json" none none none false false).text
    ∃ d report d' d'', lowerInputs read "top.json" none none false false = .ok (d, {}) ∧
      d.Coherent ∧ d.lower {} = .ok (report, d') ∧ d'.Room ∧ d'.anchors.length ≤ Word.limit ∧
      readDesign later "out.json" = .ok d'' ∧ d''.ops.length = 6 := by
  intro read later
  have S : wired.Sound fun _ => 0 := by
    obtain ⟨visible, fits⟩ := (Design.check_eq_ok_iff coherent_wired).mp (by decide +kernel)
    exact ⟨coherent_wired, visible, fits⟩
  have text : read "top.json" = .ok wired.toJson.pretty := rfl
  obtain ⟨readable, same⟩ := readDesign_written S writable_wired plainNotes_wired (.inl text)
  obtain ⟨d, hd⟩ := readable.mpr (by decide +kernel)
  have tables := same d hd
  have inputs : lowerInputs read "top.json" none none false false = .ok (d, {}) := by
    rw [lowerInputs, hd]
    simp
  have H : d.Coherent :=
    coherent_wired.congr tables.top tables.modules tables.ops tables.values
  have counts : (Design.ofInput? (wired.toJson.foundIn 0)).bind (fun d =>
      (d.lower {}).toOption.map fun r => (r.2.modules.length, r.2.ops.length, r.2.values.length,
        r.2.anchors.length, r.2.toJson.depth)) = some (2, 6, 4, 1, 7) := by decide +kernel
  have decoded := ((readDesign_pretty writable_wired plainNotes_wired (.inl text)).mp hd).1
  rw [decoded, Option.bind_some] at counts
  obtain ⟨⟨report, d'⟩, hl, counts⟩ := Option.map_eq_some_iff.mp counts
  have hl : d.lower {} = .ok (report, d') := by
    cases hl' : d.lower {} <;> rw [hl'] at hl <;> cases hl
    rfl
  simp only [Prod.mk.injEq] at counts
  obtain ⟨modules, ops, values, anchors, depth⟩ := counts
  have room : d'.Room := by
    constructor <;> rw [‹List.length _ = _›] <;> decide
  have few : d'.anchors.length ≤ Word.limit := by
    rw [anchors]
    decide
  have written : later "out.json" =
    .ok (runLower read "top.json" none none none false false).text := rfl
  obtain ⟨-, readable, same⟩ := readDesign_runLower inputs H hl room few written
  obtain ⟨d'', hd''⟩ := readable.mpr (by rw [depth]; decide)
  exact ⟨d, report, d', d'', inputs, H, hl, room, few, hd'',
    (congrArg List.length (same d'' hd'').ops).trans ops⟩

end AnnotatedCircuit.CommandLine
