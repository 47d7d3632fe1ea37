import Graft.Number.Power

/-! # Binary64 numbers

A binary64 number is kept as its bit pattern, so that the sign of a zero and the payload of a NaN are
never lost. The magnitude of a finite number is `mantissa * 2 ^ scale`, and every computation on it
is exact arithmetic on natural numbers followed by one rounding, to the nearest number and from the
middle to the even one.
-/

set_option autoImplicit false

namespace Graft

/-- A binary64 number. -/
structure Binary64 where
  bits : UInt64
deriving DecidableEq, Repr

namespace Binary64

/-! ## Fields -/

def negative (x : Binary64) : Bool := decide (pow2 63 ≤ x.bits.toNat)

def exponentField (x : Binary64) : Nat := x.bits.toNat / pow2 52 % pow2 11

def fractionField (x : Binary64) : Nat := x.bits.toNat % pow2 52

def isNaN (x : Binary64) : Bool := x.exponentField == 2047 && x.fractionField != 0

def isInfinite (x : Binary64) : Bool := x.exponentField == 2047 && x.fractionField == 0

def mantissa (x : Binary64) : Nat :=
  if x.exponentField = 0 then x.fractionField else pow2 52 + x.fractionField

def scale (x : Binary64) : Int :=
  if x.exponentField = 0 then -1074 else (x.exponentField : Int) - 1075

/-- Numerator and denominator of the magnitude of a finite number. -/
def ratio (x : Binary64) : Nat × Nat :=
  (x.mantissa * pow2 x.scale.toNat, pow2 (-x.scale).toNat)

/-- A finite number without a fractional part. -/
def isWhole (x : Binary64) : Bool := x.ratio.1 % x.ratio.2 == 0

/-! ## Rounding -/

/-- The natural number nearest to `num / den`; the middle goes to the even neighbour. -/
def roundDiv (num den : Nat) : Nat :=
  let q := num / den
  let r := num % den
  if 2 * r < den then q
  else if den < 2 * r then q + 1
  else q + q % 2

/-- The pattern of positive infinity. -/
def infinityPattern : Nat := 2047 * pow2 52

/-- The exponent of the last place of the number nearest to `num / den`: the quotient has 53 binary
digits down to it, or fewer where the exponent range ends. -/
def lastPlace (num den : Nat) : Int :=
  let e := (num.log2 : Int) - den.log2
  let floorLog := if den * pow2 e.toNat ≤ num * pow2 (-e).toNat then e else e - 1
  max (floorLog - 52) (-1074)

/-- The number nearest to `num / den`, infinite beyond the largest finite one. A mantissa that rounds
up to `2 ^ 53` carries into the exponent field by itself. -/
def ofRatio (num den : Nat) : Binary64 :=
  let q := lastPlace num den
  let m := roundDiv (num * pow2 (-q).toNat) (den * pow2 q.toNat)
  let pattern := if m = 0 then 0 else (q + 1074).toNat * pow2 52 + m
  ⟨UInt64.ofNat (min pattern infinityPattern)⟩

/-- The number nearest to a natural number. -/
def ofNat (n : Nat) : Binary64 := ofRatio n 1

/-- The same magnitude with a minus sign, for a number without a sign. -/
def neg (x : Binary64) : Binary64 := ⟨UInt64.ofNat (x.bits.toNat % pow2 63 + pow2 63)⟩

/-- The sum of two magnitudes. -/
def add (x y : Binary64) : Binary64 :=
  ofRatio (x.ratio.1 * y.ratio.2 + y.ratio.1 * x.ratio.2) (x.ratio.2 * y.ratio.2)

/-- The product of two magnitudes. -/
def mul (x y : Binary64) : Binary64 := ofRatio (x.ratio.1 * y.ratio.1) (x.ratio.2 * y.ratio.2)

/-- The quotient of two magnitudes. -/
def div (x y : Binary64) : Binary64 := ofRatio (x.ratio.1 * y.ratio.2) (x.ratio.2 * y.ratio.1)

/-! ## Patterns as text -/

def hexDigit (n : Nat) : Char := if n < 10 then Char.ofNat (48 + n) else Char.ofNat (87 + n)

def hexValue? (c : Char) : Option Nat :=
  if '0' ≤ c ∧ c ≤ '9' then some (c.toNat - 48)
  else if 'a' ≤ c ∧ c ≤ 'f' then some (c.toNat - 87)
  else none

/-- The pattern in sixteen lower-case hexadecimal digits. -/
def hex (x : Binary64) : String :=
  String.ofList ((List.range 16).map fun i => hexDigit (x.bits.toNat / pow2 (60 - 4 * i) % 16))

/-- Reads a pattern; anything but sixteen lower-case hexadecimal digits is refused. -/
def ofHex? (text : String) : Option Binary64 :=
  if text.toList.length = 16 then
    (text.toList.foldlM (fun n c => (hexValue? c).map (n * 16 + ·)) 0).map (⟨UInt64.ofNat ·⟩)
  else none

end Binary64

end Graft
