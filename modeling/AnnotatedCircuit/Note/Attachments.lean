import AnnotatedCircuit.Note.Basic
import AnnotatedCircuit.Design.Entity

/-!
Which notes are attached to which entity, in order of attachment.

`attached_append` and `attached_forgetOp` describe the operations through `attached`, the list of
one entity.
-/

namespace AnnotatedCircuit

structure Attachments where
  table : OrderedMap Entity (List Note)
deriving Inhabited

namespace Attachments

def empty : Attachments := ⟨.empty⟩

/-- The notes of an entity, first attached first. -/
def attached (t : Attachments) (e : Entity) : List Note := (t.table.find? e).getD []

/-- Attach further notes to an entity. -/
def append (t : Attachments) (e : Entity) (as : List Note) : Attachments :=
  ⟨t.table.update e fun old => old.getD [] ++ as⟩

/-- Move the notes of one entity to another. -/
def move (t : Attachments) (source dest : Entity) : Attachments :=
  match t.table.find? source with
  | none => t
  | some as => append ⟨t.table.erase source⟩ dest as

/-- Move the notes of an instance and of its ports to another instance. -/
def moveOp (t : Attachments) (old new : OpId) : Attachments :=
  (t.table.keys.filter fun e => e.op? == some old).foldl (fun t e => t.move e (e.withOp new)) t

/-- Drop the notes of an operation and of its ports. -/
def forgetOp (t : Attachments) (o : OpId) : Attachments :=
  ⟨t.table.filterKeys fun e => e.op? != some o⟩

/-- The number of attached notes. -/
def size (t : Attachments) : Nat := t.table.values.flatten.length

@[simp] theorem attached_append (t : Attachments) (e e' : Entity) (as : List Note) :
    (t.append e as).attached e' = if e = e' then t.attached e ++ as else t.attached e' := by
  unfold attached append
  rw [OrderedMap.find?_update]
  split <;> rfl

@[simp] theorem attached_forgetOp (t : Attachments) (o : OpId) (e : Entity) :
    (t.forgetOp o).attached e = if e.op? = some o then [] else t.attached e := by
  unfold attached forgetOp
  rw [OrderedMap.find?_filterKeys]
  by_cases h : e.op? = some o <;> simp [h]

/-- One entry of the written form. -/
def entryToJson (entry : Entity × List Note) : Json :=
  .obj [("target", entry.1.toJson), ("annotations", Json.list Note.toJson entry.2)]

def toJson (t : Attachments) : Json := Json.list entryToJson t.table.entries

def entryOfInput? (i : Json.Input) : Option (Entity × List Note) :=
  match i.allFields? ["target", "annotations"] with
  | some [target, notes] => do
    return (← Entity.ofInput? target, ← notes.list? Note.ofInput?)
  | _ => none

/-- Read the table. An entity listed twice keeps its first place and its last list. -/
def ofInput? (i : Json.Input) : Option Attachments :=
  (i.list? entryOfInput?).map fun entries => ⟨.ofList entries⟩

end Attachments

end AnnotatedCircuit
