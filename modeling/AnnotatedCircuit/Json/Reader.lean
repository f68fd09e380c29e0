import AnnotatedCircuit.Json.Token

/-!
JSON read from text, by a machine that keeps the arrays and objects still open on a stack.

`Input.parse?` refuses a text that is not well formed, or has anything but blanks behind the value.
Brackets with more than `maxNesting` of them open at once are unreadable. `Json.parse?` reads a text
of which every part is a value.
-/

namespace AnnotatedCircuit.Json

/-- How many arrays and objects may be nested in each other. -/
def maxNesting : Nat := 127

/-- An array or object under way, its content last one first. An object with an unreadable key has
no members. -/
inductive Frame where
  | array (items : List Input)
  | object (members : Option (List (String × Input)))
  /-- An object that waits for the value of `key`. -/
  | entry (members : Option (List (String × Input))) (key : Option String)

/-- What may come next. -/
inductive Phase where
  | value
  | itemOrClose
  | keyOrClose
  | key
  | colon
  | commaOrClose
  | finished (value : Input)

structure Reader where
  stack : List Frame
  phase : Phase

/-- Hand a complete value to the innermost open bracket. -/
def Reader.accept? (i : Input) : List Frame → Option Reader
  | [] => some ⟨[], .finished i⟩
  | .array items :: stack => some ⟨.array (i :: items) :: stack, .commaOrClose⟩
  | .entry members key :: stack =>
    let members := do return (← key, i) :: (← members)
    some ⟨.object members :: stack, .commaOrClose⟩
  | .object _ :: _ => none

/-- A token where a value is due. -/
def Reader.value? (stack : List Frame) : Token → Option Reader
  | .str (some s) => accept? (.value (.str s)) stack
  | .str none => accept? .unreadable stack
  | .atom i => accept? i stack
  | .openArray => some ⟨.array [] :: stack, .itemOrClose⟩
  | .openObject => some ⟨.object (some []) :: stack, .keyOrClose⟩
  | _ => none

/-- Brackets inside of those on the stack, unless they are nested too deep. -/
def Reader.nested (stack : List Frame) (i : Input) : Input :=
  if (stack.drop (maxNesting - 1)).isEmpty then i else .unreadable

def Reader.close? : List Frame → Token → Option Reader
  | .array items :: stack, .closeArray => accept? (nested stack (.arr items.reverse)) stack
  | .object (some members) :: stack, .closeObject =>
    accept? (nested stack (.obj members.reverse)) stack
  | .object none :: stack, .closeObject => accept? .unreadable stack
  | _, _ => none

def Reader.key? : List Frame → Token → Option Reader
  | .object members :: stack, .str k => some ⟨.entry members k :: stack, .colon⟩
  | _, _ => none

def Reader.step? (r : Reader) (t : Token) : Option Reader :=
  match r.phase, t with
  | .value, t => value? r.stack t
  | .itemOrClose, .closeArray => close? r.stack .closeArray
  | .itemOrClose, t => value? r.stack t
  | .keyOrClose, .closeObject => close? r.stack .closeObject
  | .keyOrClose, t => key? r.stack t
  | .key, t => key? r.stack t
  | .colon, .colon => some { r with phase := .value }
  | .colon, _ => none
  | .commaOrClose, .comma =>
    match r.stack with
    | .array _ :: _ => some { r with phase := .value }
    | .object _ :: _ => some { r with phase := .key }
    | _ => none
  | .commaOrClose, t => close? r.stack t
  | .finished _, _ => none

def Reader.finish? (r : Reader) : Option Input :=
  match r.phase with
  | .finished v => some v
  | _ => none

/-- What a list of tokens spells. -/
def Input.ofTokens? (ts : List Token) : Option Input :=
  (ts.foldlM Reader.step? ⟨[], .value⟩).bind Reader.finish?

/-- Read a text as far as it is well formed. -/
def Input.parse? (text : String) : Option Input := (Token.scan? text.toList).bind ofTokens?

/-- Read a text that spells a value. -/
def parse? (text : String) : Option Json := (Input.parse? text).bind Input.value?

end AnnotatedCircuit.Json
