import Graft.Number.Binary64

/-! # Numbers in JSON

A number written without a point and an exponent that fits 64 bits, signed or unsigned, is an
integer. Every other number, `-0` among them, is a real number and read as binary64. One that is too
large for binary64 is well formed and has no value; it is kept as `real none`, so that values nobody
reads need not be refused.
-/

set_option autoImplicit false

namespace Graft

inductive Json.Number where
  | integer (value : Int)
  | real (value : Option Binary64)
deriving DecidableEq, Repr

namespace Json.Number

/-- The number that decimal digits spell. -/
def ofDigits (digits : List Nat) : Nat := digits.foldl (fun n d => n * 10 + d) 0

/-! ## The binary64 number of a decimal

The digits are gathered into a significand of 64 bits. Digits before the point that no longer fit
raise the exponent instead, and digits after the point that no longer fit are dropped. The significand
is rounded to binary64 and then scaled by a power of ten, which rounds a second time. -/

/-- Gathers digits while they fit; the second part counts those that do not. -/
def gatherWhole (significand : Nat) : List Nat → Nat × Nat
  | [] => (significand, 0)
  | d :: ds =>
    if significand * 10 + d < pow2 64 then gatherWhole (significand * 10 + d) ds
    else (significand, ds.length + 1)

/-- Gathers digits while they fit; the second part counts those that do. -/
def gatherFraction (significand : Nat) : List Nat → Nat × Nat
  | [] => (significand, 0)
  | d :: ds =>
    if significand * 10 + d < pow2 64 then
      let (s, n) := gatherFraction (significand * 10 + d) ds
      (s, n + 1)
    else (significand, 0)

/-- The power of ten nearest to `10 ^ n`. -/
def powerOfTen (n : Nat) : Binary64 := Binary64.ofNat (pow10 n)

/-- `x / 10 ^ n` for a significand `x`. The largest power of ten is `10 ^ 308`, so a larger one is
divided by in two steps, and beyond its square nothing is left of 64 bits. -/
def scaleDown (x : Binary64) (n : Nat) : Binary64 :=
  if n ≤ 308 then x.div (powerOfTen n)
  else if n ≤ 616 then (x.div (powerOfTen 308)).div (powerOfTen (n - 308))
  else ⟨0⟩

/-- `x * 10 ^ exponent`, or nothing when that is beyond the largest finite number. -/
def scaleBy? (x : Binary64) (exponent : Int) : Option Binary64 :=
  if x.mantissa = 0 then some x
  else if 308 < exponent then none
  else if 0 ≤ exponent then
    let y := x.mul (powerOfTen exponent.toNat)
    if y.isInfinite then none else some y
  else some (scaleDown x (-exponent).toNat)

/-- The number with the given digits before and after the point and the given exponent. -/
def ofDecimal (negative : Bool) (whole fraction : List Nat) (exponent : Int) : Number :=
  let (s, raised) := gatherWhole 0 whole
  let (s, lowered) := gatherFraction s fraction
  .real ((scaleBy? (Binary64.ofNat s) (exponent + raised - lowered)).map fun x =>
    if negative then x.neg else x)

/-- The number with the given digits before the point and neither fraction nor exponent. -/
def ofWhole (negative : Bool) (whole : List Nat) : Number :=
  let magnitude := ofDigits whole
  if negative then
    if 0 < magnitude ∧ magnitude ≤ pow2 63 then .integer (-magnitude)
    else ofDecimal true whole [] 0
  else if magnitude < pow2 64 then .integer magnitude
  else ofDecimal false whole [] 0

/-- A number as a binary64 number, or nothing when it is too large for one. -/
def toBinary64? : Number → Option Binary64
  | .integer v => some (if v < 0 then (Binary64.ofNat v.natAbs).neg else Binary64.ofNat v.natAbs)
  | .real value => value

end Json.Number

end Graft
