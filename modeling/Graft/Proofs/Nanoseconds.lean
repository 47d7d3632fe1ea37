import Graft.Duration

/-! # Durations in nanoseconds

Every number of nanoseconds below `Duration.limit` is that of a duration (`exists_ofNanos?`), and of one
only (`toNanos_inj`). Comparing, adding and dividing durations part by part is comparing, adding and
dividing these numbers: a sum is the duration of the sum, if there is one (`add?_eq`), and a quotient is
that of the whole quotient (`div?_eq`).
-/

set_option autoImplicit false

namespace Graft.Duration

/-- The first number of nanoseconds that is too large for a duration. -/
def limit : Nat := pow2 64 * nanosPerSecond

/-- The duration of so many nanoseconds, if there is one. -/
def ofNanos? (n : Nat) : Option Duration := ofParts? (n / nanosPerSecond) (n % nanosPerSecond)

/-! ## Durations and their numbers -/

theorem ofParts?_eq (secs : Nat) {nanos : Nat} (h : nanos < nanosPerSecond) :
    ofParts? secs nanos = ofNanos? (secs * nanosPerSecond + nanos) := by
  have hpos : 0 < nanosPerSecond := by decide
  have hsecs : (secs * nanosPerSecond + nanos) / nanosPerSecond = secs := by
    rw [Nat.add_comm, Nat.add_mul_div_right _ _ hpos, Nat.div_eq_of_lt h, Nat.zero_add]
  have hnanos : (secs * nanosPerSecond + nanos) % nanosPerSecond = nanos := by
    rw [Nat.add_comm, Nat.add_mul_mod_self_right, Nat.mod_eq_of_lt h]
  rw [ofNanos?, hsecs, hnanos]

theorem ofNanos?_toNanos (d : Duration) : ofNanos? d.toNanos = some d := by
  rw [toNanos, ← ofParts?_eq d.secs d.nanos_lt, ofParts?, dif_pos ⟨d.secs_lt, d.nanos_lt⟩]

theorem ofNanos?_eq_some_iff {n : Nat} {d : Duration} : ofNanos? n = some d ↔ d.toNanos = n := by
  constructor
  · intro h
    rw [ofNanos?, ofParts?] at h
    split at h
    · cases h
      exact Nat.div_add_mod' n nanosPerSecond
    · contradiction
  · rintro rfl
    exact d.ofNanos?_toNanos

theorem ofNanos?_eq_none_iff {n : Nat} : ofNanos? n = none ↔ limit ≤ n := by
  have hpos : 0 < nanosPerSecond := by decide
  have hsecs : n / nanosPerSecond < pow2 64 ↔ n < limit := Nat.div_lt_iff_lt_mul hpos
  rw [ofNanos?, ofParts?, dite_eq_right_iff, ← Nat.not_lt, ← hsecs]
  constructor
  · intro h hlt
    exact Option.some_ne_none _ (h ⟨hlt, Nat.mod_lt n hpos⟩)
  · intro h hparts
    exact absurd hparts.1 h

theorem exists_ofNanos? {n : Nat} (h : n < limit) : ∃ d, ofNanos? n = some d ∧ d.toNanos = n := by
  cases hd : ofNanos? n with
  | none => exact absurd h (Nat.not_lt.mpr (ofNanos?_eq_none_iff.mp hd))
  | some d => exact ⟨d, rfl, ofNanos?_eq_some_iff.mp hd⟩

theorem toNanos_inj {a b : Duration} : a.toNanos = b.toNanos ↔ a = b := by
  constructor
  · intro h
    rw [← Option.some_inj, ← ofNanos?_toNanos a, h, ofNanos?_toNanos]
  · exact congrArg toNanos

/-! ## Order -/

theorem le_iff (a b : Duration) : a.le b = true ↔ a.toNanos ≤ b.toNanos := by
  have ha := a.nanos_lt
  have hb := b.nanos_lt
  simp only [le, Bool.or_eq_true, Bool.and_eq_true, decide_eq_true_eq, beq_iff_eq, toNanos,
    nanosPerSecond] at ha hb ⊢
  omega

theorem le_total (a b : Duration) : (a.le b || b.le a) = true := by
  rw [Bool.or_eq_true, le_iff, le_iff]
  exact Nat.le_total _ _

theorem le_trans (a b c : Duration) (hab : a.le b = true) (hbc : b.le c = true) : a.le c = true := by
  rw [le_iff] at hab hbc ⊢
  exact Nat.le_trans hab hbc

/-! ## Arithmetic -/

theorem add?_eq (a b : Duration) : a.add? b = ofNanos? (a.toNanos + b.toNanos) := by
  have ha := a.nanos_lt
  have hb := b.nanos_lt
  rw [add?]
  split
  · next hcarry =>
    have hsum : (a.secs + b.secs) * nanosPerSecond + (a.nanos + b.nanos) = a.toNanos + b.toNanos := by
      rw [toNanos, toNanos, Nat.add_mul]
      omega
    rw [ofParts?_eq _ hcarry, hsum]
  · next hcarry =>
    have hnanos : a.nanos + b.nanos - nanosPerSecond < nanosPerSecond := by omega
    have hsum : (a.secs + b.secs + 1) * nanosPerSecond + (a.nanos + b.nanos - nanosPerSecond) =
        a.toNanos + b.toNanos := by
      rw [toNanos, toNanos, Nat.add_mul, Nat.add_mul, Nat.one_mul]
      omega
    rw [ofParts?_eq _ hnanos, hsum]

/-- The seconds that are left over go down to the nanoseconds, so nothing but the last remainder is
dropped. -/
theorem div?_eq (d : Duration) {n : Nat} (hn : 0 < n) : d.div? n = ofNanos? (d.toNanos / n) := by
  rw [div?, dif_pos hn, eq_comm, ofNanos?_eq_some_iff]
  have hsecs := Nat.div_add_mod d.secs n
  have hnanos := Nat.div_add_mod d.nanos n
  have hsplit : d.toNanos = d.secs % n * nanosPerSecond + d.nanos % n +
      n * (d.secs / n * nanosPerSecond + d.nanos / n) := by
    calc d.toNanos = (n * (d.secs / n) + d.secs % n) * nanosPerSecond +
          (n * (d.nanos / n) + d.nanos % n) := by rw [hsecs, hnanos, toNanos]
      _ = _ := by
        rw [Nat.add_mul, Nat.mul_add, Nat.mul_assoc]
        omega
  rw [hsplit, Nat.add_mul_div_left _ _ hn]
  simp only [toNanos]
  omega

theorem div?_zero (d : Duration) : d.div? 0 = none := rfl

end Graft.Duration
