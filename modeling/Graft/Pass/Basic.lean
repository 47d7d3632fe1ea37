import Graft.Tree.Basic

/-! # Passes

A pass takes part in a walk through four hooks: before the walk and after it with the whole forest,
and for each tree on entering it and on leaving it. The state of a pass is its own affair; it goes
from hook to hook and stays when a walk fails.
-/

set_option autoImplicit false

namespace Graft

/-- What a pass wants for a tree that it enters. -/
inductive Entering where
  | keep (tree : Tree)
  /-- Another tree, whose children are walked but which the pass does not enter. -/
  | replace (tree : Tree)
  /-- The tree without a walk through its children. -/
  | skip (tree : Tree)

/-- What a pass wants for a tree that it leaves. -/
inductive Leaving where
  | keep (tree : Tree)
  | replace (tree : Tree)
  | remove

structure Pass where
  State : Type
  name : String
  state : State
  before : State → Forest → State × Forest := fun s ts => (s, ts)
  enter : State → Tree → State × Entering := fun s t => (s, .keep t)
  /-- No answer when the pass finds that it never entered the tree. -/
  leave : State → Tree → Option (State × Leaving) := fun s t => some (s, .keep t)
  after : State → Forest → State × Forest := fun s ts => (s, ts)
  /-- A number that the pass shows of its state. -/
  gauge : State → Option Nat := fun _ => none

namespace Pass

/-- The pass that leaves everything as it is. -/
def idle : Pass where
  State := Unit
  name := "noop"
  state := ()

/-- What the pass shows of its state. -/
def reading (p : Pass) : Option Nat := p.gauge p.state

def doBefore (p : Pass) (ts : Forest) : Pass × Forest :=
  let (s, ts) := p.before p.state ts
  ({ p with state := s }, ts)

def doEnter (p : Pass) (t : Tree) : Pass × Entering :=
  let (s, answer) := p.enter p.state t
  ({ p with state := s }, answer)

def doLeave (p : Pass) (t : Tree) : Option (Pass × Leaving) :=
  match p.leave p.state t with
  | some (s, answer) => some ({ p with state := s }, answer)
  | none => none

def doAfter (p : Pass) (ts : Forest) : Pass × Forest :=
  let (s, ts) := p.after p.state ts
  ({ p with state := s }, ts)

end Pass

end Graft
