import AnnotatedCircuit.Proofs.Lowering.Soundness
import AnnotatedCircuit.Proofs.Wiring.Stored

/-!
# The numbers in a lowered design

A path resolves to an entity of the tables and to the number of a part, which is a word
(`Design.writable_target`). So the notes that a lowering attaches, and the entities that it attaches
them to, can be written down, as can the anchors that it makes: if a sound design can be written down
and its tables do not grow beyond what their indices reach, then what a lowering makes of it can be
written down (`Design.writable_lower`).
-/

namespace AnnotatedCircuit

open Lowering TargetPath

/-! ### Targets -/

namespace SignalType

variable {t : SignalType} {accesses : List Access} {n number : Nat}

theorem fieldIdFrom_lt (hn : number < Word.limit)
    (h : t.fieldIdFrom number accesses = .ok (some n)) : n < Word.limit := by
  induction accesses generalizing t number with
  | nil =>
    cases h
    exact hn
  | cons a accesses ih =>
    obtain ⟨part, -, h⟩ := Checked.bind_eq_ok_iff.mp h
    cases part with
    | none => cases h
    | some part =>
      obtain ⟨next, hnext, h⟩ := Checked.bind_eq_ok_iff.mp h
      obtain ⟨rfl, hlt⟩ := Word.add_eq_ok_iff.mp hnext
      exact ih hlt h

/-- The number of a part is a word. -/
theorem fieldId?_lt (h : t.fieldId? accesses = .ok (some n)) : n < Word.limit :=
  fieldIdFrom_lt (by decide) h

end SignalType

theorem Hierarchy.mem_ids_of_named {h : Hierarchy} {name : String} {m : ModuleId}
    (hm : h.named name = .ok m) : m ∈ h.ids := by
  unfold named at hm
  split at hm
  · rename_i found
    cases hm
    exact List.mem_map_of_mem (List.mem_reverse.mp (List.mem_of_find?_eq_some found))
  · cases hm

structure Target.Writable (t : Target) : Prop where
  entity : t.entity.Writable
  fieldId : t.fieldId < Word.limit

namespace Design

variable {d : Design} {h : Hierarchy} {m : ModuleId} {o : OpId} {e e' : Entity}
  {accesses accesses' : List Access} {n : Note} {t : Target}

section

variable (R : d.Room) (H : d.Coherent)
include R H

theorem Room.port_lt {x : Module} {i : Nat} (hx : d.module? m = some x) (hi : i < x.ports.length) :
    i < Word.limit * Word.limit :=
  R.place_lt hi (H.length_ports_le hx)

/-- A name stands for an entity of the tables. -/
theorem Denotes.writable {name : String} (D : d.Denotes m name e) : e.Writable := by
  obtain ⟨x, hx, port | ⟨-, declared⟩⟩ := denotes_iff.mp D
  · obtain ⟨i, hi, he⟩ := List.mem_mapIdx.mp (OrderedMap.mem_of_lookup port)
    cases he
    exact ⟨R.module_lt hx, R.port_lt H hx hi⟩
  · obtain ⟨o, -, he⟩ := List.mem_filterMap.mp (OrderedMap.mem_of_lookup declared)
    obtain ⟨op, ho, he⟩ := Option.bind_eq_some_iff.mp he
    obtain ⟨_, -, he⟩ := Option.map_eq_some_iff.mp he
    cases he
    exact H.op_id ho ▸ R.op_lt ho

theorem writable_of_selects (S : Selects d e accesses e' accesses') (W : e.Writable) :
    e'.Writable := by
  cases S with
  | port live child found port =>
    exact ⟨R.op_lt live, R.port_lt H found (List.findIdx?_eq_some_iff_getElem.mp port).1⟩
  | whole live => exact W
  | other => exact W

/-- A path resolves to an entity of the tables and to a part with a number that fits. -/
theorem writable_of_resolves (hh : h.ids = d.hierarchy.ids) {p : TargetPath}
    (P : p.Resolves d h t) : t.Writable := by
  cases P with
  | circuit => exact ⟨trivial, by decide⟩
  | @entity _ _ _ m named entity accesses k _ _ _ found _ denoted selected part =>
    have W : named.Writable := by
      cases hname : p.name with
      | none =>
        rw [hname] at denoted
        obtain ⟨x, hx⟩ := (mem_ids_hierarchy H).mp (hh ▸ Hierarchy.mem_ids_of_named found)
        cases denoted
        exact R.module_lt hx
      | some name =>
        rw [hname] at denoted
        exact Denotes.writable R H denoted
    refine ⟨writable_of_selects R H selected W, ?_⟩
    cases accesses with
    | nil =>
      cases part
      exact Nat.zero_lt_succ _
    | cons =>
      obtain ⟨type, -, hk⟩ := part
      exact SignalType.fieldId?_lt hk

theorem writable_target (hh : h.ids = d.hierarchy.ids) {scope : Scope}
    (ht : d.target? h n scope = some t) : t.Writable := by
  have named : d.named? h n = some t → t.Writable := by
    intro ht
    obtain ⟨path, -, ht⟩ := Option.bind_eq_some_iff.mp ht
    obtain ⟨p, -, P⟩ := locate?_eq_some_iff.mp ht
    exact writable_of_resolves R H hh P
  have circuit : some Target.circuit = some t → t.Writable := by
    rintro ⟨⟩
    exact ⟨trivial, by decide⟩
  cases scope with
  | named => exact named ht
  | circuit => exact circuit ht
  | namedOrCircuit =>
    rw [target?] at ht
    split at ht
    · exact named ht
    · exact circuit ht

end

end Design

/-! ### Attached forms -/

namespace Note

variable {n kept : Note} {t : Target} {anchor : Option String}

theorem Plain.insert {key : String} {value : Json} (P : n.Plain) (hv : value.Plain) :
    (n.insert key value).Plain := by
  intro m hm
  rcases OrderedMap.mem_entries_insert hm with rfl | hm
  · exact hv
  · exact P _ hm

theorem Plain.keep (P : kept.Plain) {field : String × Json} (hf : field.2.Plain) :
    (Note.keep anchor kept field).Plain := by
  obtain ⟨key, value⟩ := field
  by_cases hkey : key = targetField
  · cases anchor with
    | none => rwa [Note.keep, if_neg (not_not_intro hkey)]
    | some name =>
      rw [Note.keep, if_neg (not_not_intro hkey)]
      exact P.insert trivial
  · have kept' : Note.keep anchor kept (key, value) = kept.insert key value := by
      cases anchor <;> exact if_pos hkey
    exact kept' ▸ P.insert hf

/-- The form of a plain note is plain. -/
theorem Plain.attachedForm (P : n.Plain) (ht : t.fieldId < Word.limit) (anchor : Option String) :
    (n.attachedForm t anchor).Plain := by
  have kept : (n.fields.entries.foldl (Note.keep anchor) .empty).Plain :=
    List.foldlRecOn n.fields.entries (Note.keep anchor) (motive := Note.Plain)
      (fun _ h => absurd h List.not_mem_nil) fun _ K field hf => K.keep (P field hf)
  unfold Note.attachedForm
  extract_lets
  split
  · exact kept
  · exact kept.insert (Json.plain_word ht)

end Note

/-! ### Lowering -/

namespace Lowering

variable {d d' : Design} {h : Hierarchy} {options : LowerOptions} {s : LowerState}
  {cs : List Settlement} {raw : Nat} {ds : List Diagnostic} {report : Report}

/-- Before the wiring, notes and anchors are all that has changed. -/
theorem Accounted.stored (A : Accounted d h cs (.start { d with pending := [] } h) s)
    (W : d.Stored) (plain : ∀ c ∈ cs, c.note.Plain)
    (targets : ∀ c ∈ cs, ∀ t, c.result = .ok (.attach t) → t.Writable) : s.design.Stored := by
  obtain ⟨_, _, _, _, _, _, _, frame⟩ := A.frame
  have attached := A.attached
  have entities := A.entities
  generalize s.anchorOf? = anchor at attached
  rw [frame] at attached entities ⊢
  refine ⟨W.types, W.declared, W.places, fun room e he => ?_, fun e n hn => ?_⟩
  · rcases entities e he with he | ⟨c, hc, t, ht, rfl⟩
    · exact W.entities room e he
    · exact (targets c hc t ht).entity
  · rw [attached] at hn
    rcases List.mem_append.mp hn with hn | hn
    · exact W.notes e n hn
    · obtain ⟨c, hc, hform⟩ := List.mem_filterMap.mp hn
      obtain ⟨t, ht, -, rfl⟩ := Settlement.formOn?_eq_some_iff.mp hform
      exact (plain c hc).attachedForm (targets c hc t ht).fieldId _

/-- The wiring keeps what can be written down. -/
theorem stored_finish (S : s.design.Sound fun _ => 0)
    (hh : s.table.hierarchy = s.design.hierarchy) (T : s.table.Right) (W : s.design.Stored)
    (hf : finish raw s ds = .ok (report, d')) : d'.Stored := by
  obtain ⟨p, errors, hplan, rfl⟩ := exists_plan_of_finish hf
  rcases Wiring.plan_cases S hh T (s.requests ++ s.pins.entries.flatMap requestsOfPin) with
    ⟨p', _, hplan', P, -⟩ | ⟨o, hplan', -⟩
  · cases hplan.symm.trans hplan'
    exact Wiring.realize_stored S P.hierarchy P.table (Wiring.plan_typed W hplan) W
  · cases hplan.symm.trans hplan'

end Lowering

open Lowering in
/-- What a lowering makes of a sound design can be written down if the design can, and if its tables
do not grow beyond what their indices reach. -/
theorem Design.writable_lower {d d' : Design} {options : LowerOptions} {report : Report}
    (S : d.Sound fun _ => 0) (W : d.Writable) (N : d.PlainNotes)
    (hl : d.lower options = .ok (report, d')) (R : d'.Room)
    (few : d'.anchors.length ≤ Word.limit) : d'.Writable ∧ d'.PlainNotes := by
  rcases lower_outcome hl with rfl | ⟨h, s, hh, A, hf⟩
  · exact ⟨⟨W.top, W.modules, W.ops, W.values, W.attachments, W.anchors, W.symbols⟩, nofun,
      N.attached⟩
  · obtain ⟨S', ht, T⟩ := A.ready S hh
    have frame := (finish_reports hf).1
    obtain ⟨-, -, hids⟩ := (Hierarchy.ofDesign_eq_ok_iff S.coherent).mp hh
    have tables : d.Room := by
      obtain ⟨_, _, _, _, _, _, _, e⟩ := A.frame
      rw [e] at frame
      exact ⟨frame.modules.symm.le.trans R.modules, frame.ops.trans R.ops, frame.values.trans R.values⟩
    have stored : s.design.Stored := by
      refine A.stored (W.stored N) (fun c hc => ?_) fun c hc t ht => ?_
      · refine N.pending _ ?_
        rw [← map_note_settlements d h options .empty d.pending]
        exact List.mem_map_of_mem hc
      · obtain ⟨pins, hv⟩ := settlement_eq_verdict hc
        obtain ⟨r, t', -, htarget, rfl⟩ := fits_of_verdict (hv.symm.trans ht)
        exact writable_target tables S.coherent (congrArg Hierarchy.ids hids) htarget
    have numbered := A.numbered ⟨fun _ => W.anchors, W.symbols⟩
    have W' := stored_finish S' ht T stored hf
    refine ⟨(sound_lower S hl).writable R W' ⟨?_, ?_⟩ few, fun n hn => ?_, W'.notes⟩
    · rw [frame.anchors]
      exact numbered.anchors
    · rw [frame.symbols]
      exact numbered.symbols
    · rw [frame.pending] at hn
      obtain ⟨_, _, _, _, _, _, _, e⟩ := A.frame
      rw [e] at hn
      cases hn

end AnnotatedCircuit
