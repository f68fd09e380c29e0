import AnnotatedCircuit.Proofs.Design.Json
import AnnotatedCircuit.Proofs.Json.Rereading
import AnnotatedCircuit.Proofs.Note.Moving

/-!
# Designs as texts

The numbers of a design that has a written form can be read from its text (`Design.plain_toJson`),
provided that those in its notes can. The text of such a design is decoded as the design
(`Design.ofInput?_reread`).
-/

namespace AnnotatedCircuit

open Json

namespace Json

theorem plain_nat {n : Nat} (h : n < Word.limit * Word.limit) : (Json.nat n).Plain := by
  rw [Word.limit] at h
  rw [Json.nat, Plain]
  omega

theorem plain_word {n : Nat} (h : n < Word.limit) : (Json.nat n).Plain :=
  plain_nat (Nat.lt_of_lt_of_le h (Nat.le_mul_of_pos_left _ (by decide)))

theorem plain_list {α : Type} {toJson : α → Json} {as : List α} (h : ∀ a ∈ as, (toJson a).Plain) :
    (Json.list toJson as).Plain := by
  refine plainItems_iff.mpr fun v hv => ?_
  obtain ⟨a, ha, rfl⟩ := List.mem_map.mp hv
  exact h a ha

theorem plain_ofOption {α : Type} {toJson : α → Json} {a : Option α}
    (h : ∀ b, a = some b → (toJson b).Plain) : (Json.ofOption toJson a).Plain := by
  cases a with
  | none => trivial
  | some b => exact h b rfl

theorem plain_tagged {tag : String} {v : Json} (h : v.Plain) : (tagged tag v).Plain := ⟨h, trivial⟩

end Json

mutual

theorem SignalType.plain_toJson : (t : SignalType) → t.Writable → t.toJson.Plain
  | .uint _, h | .sint _, h =>
    plain_tagged ⟨plain_ofOption fun n hn => plain_word (h n hn), trivial⟩
  | .clock, _ | .reset, _ | .asyncReset, _ => trivial
  | .bundle fs, h => plain_tagged (fs.plain_toJsonItems h)
  | .vector element _, h =>
    plain_tagged ⟨element.plain_toJson h.1, plain_word h.2, trivial⟩
  | .ref target, h => plain_tagged (target.plain_toJson h)

theorem Fields.plain_toJsonItems : (fs : Fields) → fs.Writable → PlainItems fs.toJsonItems
  | .nil, _ => trivial
  | .cons _ _ type rest, h =>
    ⟨⟨trivial, trivial, type.plain_toJson h.1, trivial⟩, rest.plain_toJsonItems h.2⟩

end

theorem OpKind.plain_toJson {k : OpKind} (h : k.Writable) : k.toJson.Plain := by
  cases k with
  | inst => exact plain_tagged ⟨trivial, plain_word h, trivial⟩
  | wire _ type => exact plain_tagged ⟨trivial, type.plain_toJson h, trivial⟩
  | reg _ type => exact plain_tagged ⟨trivial, type.plain_toJson h, trivial⟩
  | node => exact plain_tagged ⟨trivial, plain_word h, trivial⟩
  | connect => exact plain_tagged ⟨plain_word h.1, plain_word h.2, trivial⟩
  | refSend => exact plain_tagged ⟨plain_word h, trivial⟩
  | refResolve => exact plain_tagged ⟨plain_word h, trivial⟩

theorem Op.plain_toJson {op : Op} (h : op.Writable) : op.toJson.Plain :=
  ⟨plain_word h.id, plain_word h.parent, OpKind.plain_toJson h.kind,
    plain_list fun v hv => plain_word (h.results v hv), trivial⟩

theorem Port.plain_toJson {p : Port} (h : p.Writable) : p.toJson.Plain := by
  refine ⟨trivial, p.type.plain_toJson h.type, ?_, plain_word h.value, trivial⟩
  cases p.direction <;> trivial

theorem Module.plain_toJson {x : Module} (h : x.Writable) : x.toJson.Plain := by
  refine ⟨plain_word h.id, trivial, ?_, plain_list fun p hp => Port.plain_toJson (h.ports p hp),
    plain_list fun o ho => plain_word (h.body o ho), trivial⟩
  cases x.kind <;> trivial

theorem Value.plain_toJson {x : Value} (h : x.Writable) : x.toJson.Plain := by
  obtain ⟨type, origin⟩ := x
  refine ⟨type.plain_toJson h.type, ?_, trivial⟩
  have fits := h.origin
  cases origin with
  | port => exact plain_tagged ⟨plain_word fits.1, plain_nat fits.2, trivial⟩
  | result => exact plain_tagged ⟨plain_word fits.1, plain_nat fits.2, trivial⟩

theorem Entity.plain_toJson {e : Entity} (h : e.Writable) : e.toJson.Plain := by
  cases e with
  | circuit => trivial
  | module => exact plain_tagged (plain_word h)
  | op => exact plain_tagged (plain_word h)
  | port owner index =>
    refine plain_tagged ⟨?_, plain_nat h.2, trivial⟩
    have fits := h.1
    cases owner with
    | module => exact plain_tagged (plain_word fits)
    | inst => exact plain_tagged (plain_word fits)

theorem Anchor.plain_toJson {a : Anchor} (h : a.id.index < Word.limit) : a.toJson.Plain :=
  ⟨plain_word h, trivial, plain_list fun _ _ => ⟨trivial, trivial, trivial⟩, trivial, trivial⟩

theorem NameSupply.plain_toJson {s : NameSupply} (h : s.Writable) : s.toJson.Plain := by
  refine ⟨plain_list fun _ _ => trivial, plainMembers_iff.mpr fun m hm => ?_, trivial⟩
  obtain ⟨hint, -, rfl⟩ := List.mem_map.mp hm
  refine plain_word ?_
  cases hk : s.nextSuffix.find? hint with
  | none => decide
  | some k => exact h hint k hk

/-- The numbers in a note can be read from its text. -/
def Note.Plain (n : Note) : Prop := ∀ m ∈ n.fields.entries, m.2.Plain

theorem Note.plain_toJson {n : Note} (h : n.Plain) : n.toJson.Plain := plainMembers_iff.mpr h

namespace Design

variable {d : Design}

/-- The numbers in the notes of a design can be read from its text. -/
structure PlainNotes (d : Design) : Prop where
  pending : ∀ n ∈ d.pending, n.Plain
  attached : ∀ e, ∀ n ∈ d.attachments.attached e, n.Plain

theorem plain_toJson (W : d.Writable) (N : d.PlainNotes) : d.toJson.Plain :=
  ⟨trivial, plain_word W.top, plain_list fun x hx => Module.plain_toJson (W.modules x hx),
    plain_list fun _ ho => plain_ofOption fun op e => Op.plain_toJson (W.ops op (e ▸ ho)),
    plain_list fun x hx => Value.plain_toJson (W.values x hx),
    plain_list fun n hn => Note.plain_toJson (N.pending n hn),
    plain_list fun e he => ⟨Entity.plain_toJson (W.attachments e.1 (List.mem_map_of_mem he)),
      plain_list fun n hn => Note.plain_toJson
        (N.attached e.1 n (Attachments.attached_of_mem he ▸ hn)), trivial⟩,
    plain_list fun a ha => Anchor.plain_toJson (W.anchors a ha), NameSupply.plain_toJson W.symbols,
    trivial⟩

/-- The same design, as far as notes and the names in use do not matter. -/
structure SameTables (d d' : Design) : Prop where
  name : d'.name = d.name
  top : d'.top = d.top
  modules : d'.modules = d.modules
  ops : d'.ops = d.ops
  values : d'.values = d.values
  anchors : d'.anchors = d.anchors

/-- What is decoded of the text of a design: the same tables, with notes that are read from their
text. -/
theorem ofInput?_reread (W : d.Writable) (N : d.PlainNotes) :
    ∃ d', ofInput? d.toJson.reread = some d' ∧ d.SameTables d' :=
  let ⟨_, _, _, h, _⟩ := ofInput?_of_reading Reading.text W ⟨plain_toJson W N, rfl⟩
  ⟨_, h, rfl, rfl, rfl, rfl, rfl, rfl⟩

end Design

end AnnotatedCircuit
