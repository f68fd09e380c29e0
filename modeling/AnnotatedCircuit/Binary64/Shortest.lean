import AnnotatedCircuit.Binary64.Basic

/-!
The text of a floating-point number: the fewest digits that identify it.

`Binary64.shortest` tries one digit, two digits, … and takes the first decimal that lies in the
interval of the real numbers which round to the given one; of two such decimals the nearer, of two
equally near the one with the even last digit. `Binary64.text` lays the digits out: positionally
from `10 ^ -5` up to `10 ^ 16`, with a signed exponent beyond.
-/

namespace AnnotatedCircuit.Binary64

/-- The decimal digits of a natural number, most significant first. -/
def digits (n : Nat) : List Char := Nat.toDigits 10 n

/-- The exponent of the leading digit of `num / den`. -/
def leadingPlace (num den : Nat) : Int :=
  if den ≤ num then
    (digits (num / den)).length - 1
  else
    match (List.range 400).find? fun j => den ≤ num * Nat.pow 10 (j + 1) with
    | some j => -(j + 1 : Nat)
    | none => 0

/-- The reals that round to a positive number: lower end, upper end, common denominator, and whether
the ends belong to them. -/
structure Interval where
  low : Nat
  high : Nat
  den : Nat
  closed : Bool

/-- The gap below a power of two is half as wide as the gap above it, except at the bottom. -/
def interval (x : Binary64) : Interval :=
  let m := x.significand
  let below := if m = leastFull ∧ minExponent < x.exponent then 4 * m - 1 else 4 * m - 2
  let (unit, den) := scale 1 4 x.exponent
  ⟨below * unit, (4 * m + 2) * unit, den, m % 2 == 0⟩

/-- Whether `t · 10 ^ place` lies in the interval. -/
def Interval.holds (i : Interval) (t : Nat) (place : Int) : Bool :=
  let num := t * Nat.pow 10 place.toNat * i.den
  let scaled := fun n => n * Nat.pow 10 (-place).toNat
  if i.closed then decide (scaled i.low ≤ num ∧ num ≤ scaled i.high)
  else decide (scaled i.low < num ∧ num < scaled i.high)

/-- The decimal `t · 10 ^ place` with `count` digits that identifies the number, if there is one. -/
def withDigits? (x : Binary64) (count : Nat) : Option (Nat × Int) :=
  let (num, den) := x.toQuotient
  let place := leadingPlace num den - (count - 1 : Nat)
  let n := num * Nat.pow 10 (-place).toNat
  let d := den * Nat.pow 10 place.toNat
  let t := n / d
  let i := x.interval
  match i.holds t place, i.holds (t + 1) place with
  | true, true => some (nearest n d, place)
  | true, false => some (t, place)
  | false, true => some (t + 1, place)
  | false, false => none

/-- Digits without the zeros at their end, of which the last stands at `10 ^ place`. -/
def dropZeros (ds : List Char) (place : Int) : List Char × Int :=
  let kept := (ds.reverse.dropWhile (· == '0')).reverse
  (kept, place + (ds.length - kept.length : Nat))

/-- The digits of the shortest decimal that identifies a positive number, and the place of the last
one. -/
def shortest (x : Binary64) : List Char × Int :=
  match (List.range 17).findSome? fun k => x.withDigits? (k + 1) with
  | some (t, place) => dropZeros (digits t) place
  | none => ([], 0)

/-- Digits `ds` of which the last stands at `10 ^ place`. -/
def layout (ds : List Char) (place : Int) : List Char :=
  let point : Int := ds.length + place
  if 0 ≤ place ∧ point ≤ 16 then
    ds ++ List.replicate place.toNat '0' ++ ['.', '0']
  else if 0 < point ∧ point ≤ 16 then
    ds.take point.toNat ++ '.' :: ds.drop point.toNat
  else if -5 < point ∧ point ≤ 0 then
    '0' :: '.' :: (List.replicate (-point).toNat '0' ++ ds)
  else
    let mantissa := match ds with
      | d :: e :: rest => d :: '.' :: e :: rest
      | short => short
    mantissa ++ 'e' :: (if point < 1 then '-' else '+') :: digits (point - 1).natAbs

/-- The text of a number: it always shows a point or an exponent. -/
def text (x : Binary64) : List Char :=
  let body := if x.significand = 0 then ['0', '.', '0'] else
    let (ds, place) := x.shortest
    layout ds place
  if x.negative then '-' :: body else body

end AnnotatedCircuit.Binary64
