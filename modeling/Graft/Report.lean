import Graft.Duration

/-! # Reports

A report keeps the samples of one or more timed runs in order and gives their total, average and
median. What would pass the largest duration is missing.
-/

set_option autoImplicit false

namespace Graft

structure Report where
  samples : List Duration

namespace Report

/-- The report of some samples; without any there is none. -/
def ofSamples? : List Duration → Option Report
  | [] => none
  | samples => some ⟨samples.mergeSort Duration.le⟩

def runs (r : Report) : Nat := r.samples.length

def total? (r : Report) : Option Duration := r.samples.foldlM Duration.add? .zero

/-- The total over the number of runs; the divisor is a word of 32 bits. -/
def average? (r : Report) : Option Duration := do (← r.total?).div? (r.runs % pow2 32)

/-- The middle sample, or the mean of the two middle samples. -/
def median? (r : Report) : Option Duration :=
  let middle := r.runs / 2
  if r.runs % 2 = 0 then do
    let sum ← (← r.samples[middle - 1]?).add? (← r.samples[middle]?)
    sum.div? 2
  else r.samples[middle]?

/-- The report in words. -/
def text? (r : Report) : Option String :=
  if r.runs = 1 then do
    some ("Command took " ++ (← r.total?).text ++ " seconds to complete.")
  else do
    some ("Command took " ++ (← r.average?).text ++ " seconds on average (" ++ (← r.median?).text ++
      " median; " ++ (← r.total?).text ++ " total) to complete.")

end Report

end Graft
