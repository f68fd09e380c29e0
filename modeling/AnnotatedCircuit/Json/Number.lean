import AnnotatedCircuit.Json.Input

/-!
Numbers in a JSON text.

`unsigned?` refuses what does not have the form of a number. A number of the right form beyond the
finite range is unreadable.
-/

namespace AnnotatedCircuit.Json

/-- The significands that are collected exactly; further digits are dropped. -/
def significandLimit : Nat := 0x10000000000000000

/-- A decimal under way: the digits so far, as a number that is to be multiplied by a power of
ten. -/
structure Decimal where
  significand : Nat
  exponent : Int

/-- Append a digit if the significand stays below the limit. -/
def Decimal.push? (d : Decimal) (c : Char) : Option Decimal :=
  let s := d.significand * 10 + (c.toNat - '0'.toNat)
  if s < significandLimit then some { d with significand := s } else none

/-- Read the digits before the point. From the first digit that does not fit on, a digit only raises
the exponent. -/
def Decimal.whole (cs : List Char) : Decimal × Bool :=
  cs.foldl (fun (d, exact) c =>
    match exact, d.push? c with
    | true, some e => (e, true)
    | _, _ => ({ d with exponent := d.exponent + 1 }, false)) (⟨0, 0⟩, true)

/-- Read the digits behind the point. From the first digit that does not fit on, they are
dropped. -/
def Decimal.places (d : Decimal) : List Char → Decimal
  | [] => d
  | c :: cs =>
    match d.push? c with
    | some e => places { e with exponent := e.exponent - 1 } cs
    | none => d

/-- The number that the digits spell. -/
def natOfDigits (cs : List Char) : Nat := cs.foldl (fun n c => n * 10 + (c.toNat - '0'.toNat)) 0

/-- Read `e` or `E`, a sign and at least one digit; nothing at all stands for the exponent zero. -/
def exponentPart? : List Char → Option Int
  | [] => some 0
  | c :: cs =>
    if c = 'e' ∨ c = 'E' then
      let (negative, ds) := match cs with
        | '-' :: ds => (true, ds)
        | '+' :: ds => (false, ds)
        | ds => (false, ds)
      if ds ≠ [] ∧ ds.all Char.isDigit then
        some (if negative then -(natOfDigits ds : Int) else natOfDigits ds)
      else none
    else none

/-- Whether digits may stand before the point: there is one, and no needless zero in front. -/
def isWholePart : List Char → Bool
  | [] => false
  | '0' :: _ :: _ => false
  | _ => true

/-- A number with point or exponent, of which the digits are read. -/
def real? (negative : Bool) (d : Decimal) (rest : List Char) : Option Input :=
  (exponentPart? rest).map fun e =>
    match Binary64.ofDecimal? d.significand (d.exponent + e) with
    | some x => .value (.double { x with negative })
    | none => .unreadable

/-- A number without its sign: digits without a needless zero in front, perhaps a point and digits,
perhaps an exponent. Without point and exponent it is an integer as far as 64 bits reach. -/
def unsigned? (negative : Bool) (cs : List Char) : Option Input :=
  let ds := cs.takeWhile Char.isDigit
  let rest := cs.dropWhile Char.isDigit
  if !isWholePart ds then none else
    let (d, exact) := Decimal.whole ds
    match rest with
    | [] =>
      if exact && !negative then some (.value (.int d.significand))
      else if exact && 0 < d.significand && 2 * d.significand ≤ significandLimit then
        some (.value (.int (-(d.significand : Int))))
      else real? negative d []
    | '.' :: tail =>
      let fs := tail.takeWhile Char.isDigit
      if fs.isEmpty then none
      else real? negative (d.places fs) (tail.dropWhile Char.isDigit)
    | rest => real? negative d rest

end AnnotatedCircuit.Json
