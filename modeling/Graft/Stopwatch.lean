import Graft.Report

/-! # Stopwatches

A stopwatch runs or rests. Stopping a running one takes a sample, and samples add up until they are
drained. The time comes from outside, as the time since some origin.
-/

set_option autoImplicit false

namespace Graft

structure Stopwatch where
  started : Option Duration := none
  /-- The samples, oldest first. -/
  samples : List Duration := []

namespace Stopwatch

/-- Whether it runs. -/
def isRunning (w : Stopwatch) : Bool := w.started.isSome

/-- Starts it, anew if it runs already. -/
def start (w : Stopwatch) (now : Duration) : Stopwatch := { w with started := some now }

/-- Stops it and takes a sample, if it runs. -/
def halt (w : Stopwatch) (now : Duration) : Stopwatch :=
  match w.started with
  | some begun => ⟨none, w.samples ++ [now.sub begun]⟩
  | none => w

/-- Stops it and hands a value through. -/
def stop {α : Type} (w : Stopwatch) (now : Duration) (value : α) : Stopwatch × α := (w.halt now, value)

/-- Stops it if it was left running, and says whether it was. -/
def ensureStopped (w : Stopwatch) (now : Duration) : Stopwatch × Bool :=
  if w.isRunning then (w.halt now, true) else (w, false)

/-- Hands out the samples and keeps none. -/
def drain (w : Stopwatch) : Stopwatch × List Duration := ({ w with samples := [] }, w.samples)

/-- Hands out the samples as a report. -/
def report (w : Stopwatch) : Stopwatch × Option Report :=
  let (w, samples) := w.drain
  (w, Report.ofSamples? samples)

/-- A stopwatch at rest without samples. -/
def reset : Stopwatch := {}

end Stopwatch

end Graft
