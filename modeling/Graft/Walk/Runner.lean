import Graft.Walk.Visit

/-! # Runs

A run gives a forest to the passes before the walk, walks it, and gives what comes out to the passes
after the walk. A runner keeps its passes from run to run, with the tally of the last run that
succeeded.
-/

set_option autoImplicit false

namespace Graft

/-! ## Before and after -/

/-- A forest as the passes hand it on, outside the walk. -/
structure Handed where
  trees : Forest
  passes : List Pass
  events : List Event

/-- Every pass receives the forest before the walk, counted from position `i`. -/
def beforeAll (i : Nat) : List Pass → Forest → Handed
  | [], ts => ⟨ts, [], []⟩
  | p :: rest, ts =>
    let (p, us) := p.doBefore ts
    let h := beforeAll (i + 1) rest us
    ⟨h.trees, p :: h.passes, .before i ts :: h.events⟩

/-- Every pass receives the forest after the walk, counted from position `i`. -/
def afterAll (i : Nat) : List Pass → Forest → Handed
  | [], ts => ⟨ts, [], []⟩
  | p :: rest, ts =>
    let (p, us) := p.doAfter ts
    let h := afterAll (i + 1) rest us
    ⟨h.trees, p :: h.passes, .after i ts :: h.events⟩

/-! ## Runs -/

/-- What a run gives. -/
structure Run where
  result : Except Failure (Forest × Tally)
  passes : List Pass
  journal : List Event

/-- A run with visits nested at most `limit` deep. -/
def runWithin (limit : Nat) (passes : List Pass) (ts : Forest) : Run :=
  let b := beforeAll 0 passes ts
  match walk limit b.trees b.passes with
  | .failed why passes account => ⟨.error why, passes, b.events ++ account.journal⟩
  | .done ts passes account =>
    let a := afterAll 0 passes ts
    ⟨.ok (a.trees, account.tally), a.passes, b.events ++ account.journal ++ a.events⟩

/-- How deeply visits may be nested: one level per pass for each level of the forest suffices for
passes that wrap trees, and a reserve is for those that put deeper trees in their place. -/
def depthLimit (passes : List Pass) (ts : Forest) : Nat :=
  (passes.length + 3) * (ts.height + 3) + 4096

/-- Runs passes over a forest. -/
def run (passes : List Pass) (ts : Forest) : Run :=
  runWithin (depthLimit passes (beforeAll 0 passes ts).trees) passes ts

/-! ## Runners -/

structure Runner where
  passes : List Pass
  last : Option Tally := none

namespace Runner

/-- The tally of the last run that succeeded, after one more run. -/
def latest (last : Option Tally) : Except Failure (Forest × Tally) → Option Tally
  | .ok (_, tally) => some tally
  | .error _ => last

def run (r : Runner) (ts : Forest) : Runner × Run :=
  let outcome := Graft.run r.passes ts
  (⟨outcome.passes, latest r.last outcome.result⟩, outcome)

end Runner

end Graft
