import AnnotatedCircuit.Json.Number

/-!
The tokens of a JSON text, found by an automaton that takes one character at a time.

`Token.scan?` refuses a raw control character in a string, an unknown escape, and a word that is
neither a literal nor a number. A string with half a surrogate pair is a token without value.
-/

namespace AnnotatedCircuit.Json

inductive Token where
  | openArray
  | closeArray
  | openObject
  | closeObject
  | comma
  | colon
  /-- A string; one that spells no text has no value. -/
  | str (value : Option String)
  /-- A literal or a number. -/
  | atom (value : Input)

/-- A literal or a number. -/
def atom? (cs : List Char) : Option Input :=
  match cs with
  | ['n', 'u', 'l', 'l'] => some (.value .null)
  | ['t', 'r', 'u', 'e'] => some (.value (.bool true))
  | ['f', 'a', 'l', 's', 'e'] => some (.value (.bool false))
  | '-' :: ds => unsigned? true ds
  | ds => unsigned? false ds

/-- A text under way, last character first, and the high surrogate that waits for its low one. -/
structure Spelling where
  chars : List Char
  high : Option Nat

def isHighSurrogate (unit : Nat) : Bool := 0xD800 ≤ unit && unit < 0xDC00

def isLowSurrogate (unit : Nat) : Bool := 0xDC00 ≤ unit && unit < 0xE000

/-- Append a code unit. A high surrogate and the low one behind it make one character; half a pair
makes none. -/
def Spelling.push? (s : Spelling) (unit : Nat) : Option Spelling :=
  match s.high with
  | some high =>
    if isLowSurrogate unit then
      some ⟨Char.ofNat (0x10000 + (high - 0xD800) * 0x400 + (unit - 0xDC00)) :: s.chars, none⟩
    else none
  | none =>
    if isLowSurrogate unit then none
    else if isHighSurrogate unit then some { s with high := some unit }
    else some { s with chars := Char.ofNat unit :: s.chars }

/-- The text that characters and 16-bit code units spell. -/
def textOfUnits? (units : List Nat) : Option String :=
  match units.foldlM Spelling.push? ⟨[], none⟩ with
  | some ⟨chars, none⟩ => some (String.ofList chars.reverse)
  | _ => none

/-- Where the automaton stands. The characters of a word, and the code points and code units of a
string, are kept last one first. -/
inductive Mode where
  | between
  | word (chars : List Char)
  | text (units : List Nat)
  /-- Behind a backslash. -/
  | escape (units : List Nat)
  /-- Reading the four digits of an escape. -/
  | hex (units : List Nat) (left value : Nat)

def isBlank (c : Char) : Bool := c == ' ' || c == '\t' || c == '\n' || c == '\r'

def isWordChar (c : Char) : Bool := c.isAlphanum || c == '+' || c == '-' || c == '.'

def hexValue? (c : Char) : Option Nat :=
  if c.isDigit then some (c.toNat - '0'.toNat)
  else if 'a' ≤ c ∧ c ≤ 'f' then some (c.toNat - 'a'.toNat + 10)
  else if 'A' ≤ c ∧ c ≤ 'F' then some (c.toNat - 'A'.toNat + 10)
  else none

/-- The code point that a one-letter escape stands for. -/
def escaped? (c : Char) : Option Nat :=
  if c = '"' ∨ c = '\\' ∨ c = '/' then some c.toNat
  else if c = 'b' then some 8
  else if c = 'f' then some 12
  else if c = 'n' then some 10
  else if c = 'r' then some 13
  else if c = 't' then some 9
  else none

/-- The automaton between two characters: its mode and the tokens found, last one first. -/
structure Scan where
  mode : Mode
  tokens : List Token

/-- The next character where no token is under way. -/
def Scan.start? (tokens : List Token) (c : Char) : Option Scan :=
  if isBlank c then some ⟨.between, tokens⟩
  else if c = '"' then some ⟨.text [], tokens⟩
  else if c = '[' then some ⟨.between, .openArray :: tokens⟩
  else if c = ']' then some ⟨.between, .closeArray :: tokens⟩
  else if c = '\x7b' then some ⟨.between, .openObject :: tokens⟩
  else if c = '\x7d' then some ⟨.between, .closeObject :: tokens⟩
  else if c = ',' then some ⟨.between, .comma :: tokens⟩
  else if c = ':' then some ⟨.between, .colon :: tokens⟩
  else if isWordChar c then some ⟨.word [c], tokens⟩
  else none

def Scan.step? (s : Scan) (c : Char) : Option Scan :=
  match s.mode with
  | .between => Scan.start? s.tokens c
  | .word cs =>
    if isWordChar c then some { s with mode := .word (c :: cs) }
    else do
      let v ← atom? cs.reverse
      Scan.start? (.atom v :: s.tokens) c
  | .text units =>
    if c = '"' then some ⟨.between, .str (textOfUnits? units.reverse) :: s.tokens⟩
    else if c = '\\' then some { s with mode := .escape units }
    else if c.toNat < 32 then none
    else some { s with mode := .text (c.toNat :: units) }
  | .escape units =>
    if c = 'u' then some { s with mode := .hex units 4 0 }
    else (escaped? c).map fun unit => { s with mode := .text (unit :: units) }
  | .hex units left value =>
    (hexValue? c).map fun digit =>
      let value := value * 16 + digit
      { s with mode := if left ≤ 1 then .text (value :: units) else .hex units (left - 1) value }

/-- The tokens at the end of the text, first one first; a string has to be closed by then. -/
def Scan.finish? (s : Scan) : Option (List Token) :=
  match s.mode with
  | .between => some s.tokens.reverse
  | .word cs => (atom? cs.reverse).map fun v => (.atom v :: s.tokens).reverse
  | _ => none

/-- The tokens of a text. -/
def Token.scan? (cs : List Char) : Option (List Token) :=
  (cs.foldlM Scan.step? ⟨.between, []⟩).bind Scan.finish?

end AnnotatedCircuit.Json
