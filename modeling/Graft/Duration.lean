import Graft.Number.Decimal

/-! # Durations

A duration is a count of whole seconds below `2 ^ 64` and a count of nanoseconds below a second.
Addition carries nanoseconds into seconds and fails past the largest duration; division by a count
works on seconds and nanoseconds apart, hands the remaining seconds down, and truncates.
-/

set_option autoImplicit false

namespace Graft

/-- Nanoseconds in a second. -/
def nanosPerSecond : Nat := 1000000000

structure Duration where
  secs : Nat
  nanos : Nat
  secs_lt : secs < pow2 64
  nanos_lt : nanos < nanosPerSecond
deriving DecidableEq, Repr

namespace Duration

def zero : Duration := ⟨0, 0, by decide, by decide⟩

/-- The duration of the given parts, if both are in range. -/
def ofParts? (secs nanos : Nat) : Option Duration :=
  if h : secs < pow2 64 ∧ nanos < nanosPerSecond then some ⟨secs, nanos, h.1, h.2⟩ else none

/-- The duration in nanoseconds. -/
def toNanos (d : Duration) : Nat := d.secs * nanosPerSecond + d.nanos

/-! ## Order -/

def le (a b : Duration) : Bool :=
  decide (a.secs < b.secs) || (a.secs == b.secs && decide (a.nanos ≤ b.nanos))

/-! ## Arithmetic -/

/-- The sum, or nothing past the largest duration. -/
def add? (a b : Duration) : Option Duration :=
  if a.nanos + b.nanos < nanosPerSecond then ofParts? (a.secs + b.secs) (a.nanos + b.nanos)
  else ofParts? (a.secs + b.secs + 1) (a.nanos + b.nanos - nanosPerSecond)

/-- The time from `b` to `a`, zero when `b` is later. -/
def sub (a b : Duration) : Duration :=
  if h : b.nanos ≤ a.nanos then
    if b.secs ≤ a.secs then
      ⟨a.secs - b.secs, a.nanos - b.nanos, by have := a.secs_lt; omega, by have := a.nanos_lt; omega⟩
    else zero
  else if b.secs < a.secs then
    ⟨a.secs - b.secs - 1, a.nanos + nanosPerSecond - b.nanos, by have := a.secs_lt; omega, by
      have := b.nanos_lt
      omega⟩
  else zero

theorem divided_nanos_lt (d : Duration) (n : Nat) (h : 0 < n) :
    d.nanos / n + (d.secs % n * nanosPerSecond + d.nanos % n) / n < nanosPerSecond := by
  have hr : d.secs % n < n := Nat.mod_lt _ h
  have hd := d.nanos_lt
  have split : d.nanos / n + (d.secs % n * nanosPerSecond + d.nanos % n) / n =
      (d.secs % n * nanosPerSecond + d.nanos) / n := by
    have e : d.secs % n * nanosPerSecond + d.nanos =
        (d.secs % n * nanosPerSecond + d.nanos % n) + n * (d.nanos / n) := by
      have := Nat.mod_add_div d.nanos n
      omega
    rw [e, Nat.add_mul_div_left _ _ h, Nat.add_comm]
  rw [split, Nat.div_lt_iff_lt_mul h]
  have : (d.secs % n + 1) * nanosPerSecond ≤ n * nanosPerSecond := Nat.mul_le_mul_right _ hr
  rw [Nat.mul_comm nanosPerSecond n]
  rw [Nat.add_mul] at this
  omega

/-- The duration over a count, truncated to nanoseconds; nothing for the count zero. -/
def div? (d : Duration) (n : Nat) : Option Duration :=
  if h : 0 < n then
    some ⟨d.secs / n, d.nanos / n + (d.secs % n * nanosPerSecond + d.nanos % n) / n,
      Nat.lt_of_le_of_lt (Nat.div_le_self _ _) d.secs_lt, d.divided_nanos_lt n h⟩
  else none

/-! ## Text -/

/-- The seconds as a binary64 number: whole seconds and the fraction are rounded on their own, and
so is their sum. -/
def toBinary64 (d : Duration) : Binary64 :=
  (Binary64.ofNat d.secs).add (Binary64.ofRatio d.nanos nanosPerSecond)

/-- The seconds to six places. -/
def text (d : Duration) : String := Decimal.fixed 6 d.toBinary64

end Duration

end Graft
