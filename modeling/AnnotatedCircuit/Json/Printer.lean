import AnnotatedCircuit.Json.Basic
import AnnotatedCircuit.Binary64.Shortest

/-!
The text of a JSON value: on one line without blanks, or with one member a line.

Inside a string only the quote, the backslash and the controls below the blank are escaped; every
other character stands for itself.
-/

namespace AnnotatedCircuit.Json

/-- The escape of a character inside a string, or the character itself. -/
def escapeChar (c : Char) : List Char :=
  if c = '"' then ['\\', '"']
  else if c = '\\' then ['\\', '\\']
  else if c = '\n' then ['\\', 'n']
  else if c = '\r' then ['\\', 'r']
  else if c = '\t' then ['\\', 't']
  else if c.toNat = 8 then ['\\', 'b']
  else if c.toNat = 12 then ['\\', 'f']
  else if c.toNat < 32 then
    ['\\', 'u', '0', '0', Nat.digitChar (c.toNat / 16), Nat.digitChar (c.toNat % 16)]
  else [c]

/-- A string between quotes. -/
def quote (s : String) : List Char := '"' :: (s.toList.flatMap escapeChar ++ ['"'])

/-- The text of a value that is neither an array nor an object. -/
def leaf : Json → List Char
  | .null => "null".toList
  | .bool true => "true".toList
  | .bool false => "false".toList
  | .int n => (toString n).toList
  | .double x => x.text
  | .str s => quote s
  | .arr _ => []
  | .obj _ => []

mutual

/-- The text without blanks. -/
def chars : Json → List Char
  | .arr items => '[' :: (charsItems items ++ [']'])
  | .obj members => '\x7b' :: (charsMembers members ++ ['\x7d'])
  | v => v.leaf

def charsItems : List Json → List Char
  | [] => []
  | [v] => v.chars
  | v :: vs => v.chars ++ ',' :: charsItems vs

def charsMembers : List (String × Json) → List Char
  | [] => []
  | [(k, v)] => quote k ++ ':' :: v.chars
  | (k, v) :: ms => quote k ++ ':' :: (v.chars ++ ',' :: charsMembers ms)

end

/-- The text without blanks. -/
def compress (v : Json) : String := String.ofList v.chars

/-- A new line that starts with `level` steps of two blanks. -/
def newline (level : Nat) : List Char := '\n' :: List.replicate (2 * level) ' '

mutual

/-- The text with every item and member on a line of its own; empty brackets stay together. -/
def lines (level : Nat) : Json → List Char
  | .arr [] => ['[', ']']
  | .arr (v :: vs) =>
    '[' :: (newline (level + 1) ++ v.lines (level + 1) ++ linesItems (level + 1) vs
      ++ newline level ++ [']'])
  | .obj [] => ['\x7b', '\x7d']
  | .obj ((k, v) :: ms) =>
    '\x7b' :: (newline (level + 1) ++ quote k ++ ':' :: ' ' :: v.lines (level + 1)
      ++ linesMembers (level + 1) ms ++ newline level ++ ['\x7d'])
  | v => v.leaf

def linesItems (level : Nat) : List Json → List Char
  | [] => []
  | v :: vs => ',' :: (newline level ++ v.lines level ++ linesItems level vs)

def linesMembers (level : Nat) : List (String × Json) → List Char
  | [] => []
  | (k, v) :: ms =>
    ',' :: (newline level ++ quote k ++ ':' :: ' ' :: v.lines level ++ linesMembers level ms)

end

/-- The text with every item and member on a line of its own. -/
def pretty (v : Json) : String := String.ofList (v.lines 0)

end AnnotatedCircuit.Json
