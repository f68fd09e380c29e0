/-!
Finite binary floating-point numbers of 64 bits, in exact arithmetic on natural numbers.

A number is a sign, a significand below 2^53 and a power of two. `Binary64.ofQuotient?` rounds a
quotient of natural numbers to the nearest such number, halves to the even neighbour; products and
quotients of two numbers are formed exactly and rounded once.
-/

namespace AnnotatedCircuit

/-- The number `±significand · 2 ^ exponent`. The functions below produce the normal form: the
exponent is at least `-1074`, and the significand has 53 bits unless the exponent is `-1074`. -/
structure Binary64 where
  negative : Bool
  significand : Nat
  exponent : Int
deriving DecidableEq, Repr, Inhabited

namespace Binary64

/-- The least exponent, that of the subnormal numbers. -/
def minExponent : Int := -1074

/-- The greatest exponent of a finite number. -/
def maxExponent : Int := 971

/-- The least significand with 53 bits. -/
def leastFull : Nat := 0x10000000000000

def zero (negative : Bool) : Binary64 := ⟨negative, 0, minExponent⟩

/-- A quotient multiplied by `2 ^ e`, as numerator and denominator. -/
def scale (num den : Nat) (e : Int) : Nat × Nat :=
  (num * Nat.pow 2 e.toNat, den * Nat.pow 2 (-e).toNat)

/-- The absolute value as numerator and denominator. -/
def toQuotient (x : Binary64) : Nat × Nat := scale x.significand 1 x.exponent

/-- The integer nearest to `num / den`, the even one of two. -/
def nearest (num den : Nat) : Nat :=
  let q := num / den
  let r := num % den
  if den < 2 * r ∨ (2 * r = den ∧ q % 2 = 1) then q + 1 else q

/-- The exponent at which `num / den` has a significand of 53 bits, or the least exponent. -/
def exponentOf (num den : Nat) : Int :=
  let e : Int := (num.log2 : Int) - (den.log2 : Int) - 52
  let (n, d) := scale num den (-e)
  max (if n / d < leastFull then e - 1 else e) minExponent

/-- The number nearest to `num / den`, unless that lies beyond the greatest finite number. -/
def ofQuotient? (negative : Bool) (num den : Nat) : Option Binary64 :=
  if num = 0 then
    some (zero negative)
  else
    let e := exponentOf num den
    let (n, d) := scale num den (-e)
    let q := nearest n d
    let (q, e) := if q = 2 * leastFull then (leastFull, e + 1) else (q, e)
    if maxExponent < e then none else some ⟨negative, q, e⟩

/-- The number nearest to a natural number. -/
def ofNat? (n : Nat) : Option Binary64 := ofQuotient? false n 1

def mul? (x y : Binary64) : Option Binary64 :=
  let (a, b) := x.toQuotient
  let (c, d) := y.toQuotient
  ofQuotient? (x.negative != y.negative) (a * c) (b * d)

/-- The quotient of two numbers; there is none by zero. -/
def div? (x y : Binary64) : Option Binary64 :=
  let (a, b) := x.toQuotient
  let (c, d) := y.toQuotient
  if c = 0 then none else ofQuotient? (x.negative != y.negative) (a * d) (b * c)

/-- Equality as numbers: the two zeros are equal. -/
def same (x y : Binary64) : Bool :=
  x.significand == y.significand &&
    (x.significand == 0 || (x.exponent == y.exponent && x.negative == y.negative))

/-- The greatest power of ten that is a finite number. -/
def maxPower : Nat := 308

/-- The number nearest to a power of ten. -/
def powerOfTen? (n : Nat) : Option Binary64 := ofNat? (Nat.pow 10 n)

/-- The powers of ten by which a division by `10 ^ places` is carried out: the greatest one as often
as it fits, then what is left. A significand below `2 ^ 64` is zero after the first three, so no
more than four are taken. -/
def divisors (places : Nat) : List Nat :=
  let p := min places (4 * maxPower)
  let full := (p - 1) / maxPower
  List.replicate full maxPower ++ [p - full * maxPower]

/-- Divide by `10 ^ places`, rounding after each of the `divisors`. -/
def shrink (x : Binary64) (places : Nat) : Option Binary64 :=
  (divisors places).foldlM (fun y n => (powerOfTen? n).bind y.div?) x

/-- The number read from the decimal `significand · 10 ^ exponent`: the significand is rounded
first, then scaled by rounded powers of ten, each step rounding again. Nothing is read from a
decimal that leaves the finite range. -/
def ofDecimal? (significand : Nat) (exponent : Int) : Option Binary64 := do
  let x ← ofNat? significand
  if exponent < 0 then
    x.shrink (-exponent).toNat
  else if x.significand = 0 then
    some x
  else if maxPower < exponent then
    none
  else
    x.mul? (← powerOfTen? exponent.toNat)

end Binary64

end AnnotatedCircuit
