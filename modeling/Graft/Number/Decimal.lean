import Graft.Number.Binary64

/-! # Decimal text of binary64 numbers

A decimal is a natural number of digits times a power of ten. `shortest` finds the decimal with the
fewest digits that reads back as a given number, `positional` writes one without an exponent, and
`fixed` writes a number to a given count of places.
-/

set_option autoImplicit false

namespace Graft.Decimal

/-! ## Writing -/

/-- `digits / 10 ^ places`, with exactly `places` digits after the point. -/
def withPlaces (digits places : Nat) : String :=
  let fraction := toString (digits % pow10 places)
  toString (digits / pow10 places) ++ "." ++
    String.ofList (List.replicate (places - fraction.length) '0') ++ fraction

/-- `digits * 10 ^ exponent` without an exponent. -/
def positional (digits : Nat) (exponent : Int) : String :=
  if 0 ≤ exponent then toString (digits * pow10 exponent.toNat)
  else withPlaces digits (-exponent).toNat

/-- The magnitude of a finite number to `places` places; the middle goes to the even neighbour. -/
def fixed (places : Nat) (x : Binary64) : String :=
  withPlaces (Binary64.roundDiv (x.ratio.1 * pow10 places) x.ratio.2) places

/-! ## Fewest digits -/

/-- The reals that round to a number, as numerators over one denominator. -/
structure Interval where
  low : Nat
  value : Nat
  high : Nat
  den : Nat
  /-- Whether the two ends belong to it. -/
  closed : Bool

/-- The interval of a finite positive number. Below a power of two the numbers lie twice as close. -/
def Interval.of (x : Binary64) : Interval :=
  let unit := pow2 (x.scale - 2).toNat
  { low := (4 * x.mantissa - if x.mantissa = pow2 52 then 1 else 2) * unit
    value := 4 * x.mantissa * unit
    high := (4 * x.mantissa + 2) * unit
    den := pow2 (2 - x.scale).toNat
    closed := x.mantissa % 2 == 0 }

/-- Whether `digits * 10 ^ exponent` lies in the interval. -/
def Interval.holds (i : Interval) (digits : Nat) (exponent : Int) : Bool :=
  let point := digits * pow10 exponent.toNat * i.den
  let low := i.low * pow10 (-exponent).toNat
  let high := i.high * pow10 (-exponent).toNat
  if i.closed then low ≤ point && point ≤ high else low < point && point < high

/-- The multiple of `10 ^ exponent` in the interval that is nearest to the value. From the middle it
goes up. -/
def Interval.nearest? (i : Interval) (exponent : Int) : Option Nat :=
  let num := i.value * pow10 (-exponent).toNat
  let den := i.den * pow10 exponent.toNat
  let below := num / den
  match i.holds below exponent, i.holds (below + 1) exponent with
  | true, true => some (if den ≤ 2 * (num % den) then below + 1 else below)
  | true, false => some below
  | false, true => some (below + 1)
  | false, false => none

/-- The coarsest power of ten, at most `steps` below `exponent`, that has a multiple in the
interval. -/
def Interval.search (i : Interval) : Nat → Int → Nat × Int
  | 0, exponent => (i.value * pow10 (-exponent).toNat / (i.den * pow10 exponent.toNat), exponent)
  | steps + 1, exponent =>
    match i.nearest? exponent with
    | some digits => (digits, exponent)
    | none => i.search steps (exponent - 1)

/-- The decimal with the fewest digits that reads back as a finite positive number. The search starts
above the number, and seventeen digits always suffice. -/
def shortest (x : Binary64) : Nat × Int :=
  let i := Interval.of x
  let log := (i.value.log2 : Int) - i.den.log2 + 2
  i.search 64 (if 0 ≤ log then log * 31 / 100 + 1 else log * 30 / 100 + 1)

end Graft.Decimal
