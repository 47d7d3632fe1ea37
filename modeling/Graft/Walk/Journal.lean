import Graft.Pass.Basic

/-! # The account of a walk

A tally counts what happened in a walk, and a journal lists the calls of hooks in order, each with the
position of its pass.
-/

set_option autoImplicit false

namespace Graft

/-! ## Tallies -/

structure Tally where
  visited : Nat := 0
  replaced : Nat := 0
  removed : Nat := 0
  /-- Trees whose children were not walked. -/
  skipped : Nat := 0
deriving DecidableEq, Repr

namespace Tally

def changed (t : Tally) : Bool := decide (0 < t.replaced) || decide (0 < t.removed)

def add (a b : Tally) : Tally :=
  ⟨a.visited + b.visited, a.replaced + b.replaced, a.removed + b.removed, a.skipped + b.skipped⟩

instance : Add Tally := ⟨add⟩

end Tally

/-! ## Journals -/

/-- A call of a hook: the pass, what it received and, inside the walk, what it answered. -/
inductive Event where
  | before (pass : Nat) (received : Forest)
  | enter (pass : Nat) (received : Tree) (answer : Entering)
  | leave (pass : Nat) (received : Tree) (answer : Leaving)
  | after (pass : Nat) (received : Forest)

namespace Event

/-- The position of the pass that was called. -/
def pass : Event → Nat
  | before i _ | enter i _ _ | leave i _ _ | after i _ => i

/-- The event in words: the hook, and the size of the forest or the kind of the tree. -/
def text : Event → String
  | before _ ts => "before " ++ toString ts.length
  | enter _ t _ => "enter " ++ t.kind.label
  | leave _ t _ => "leave " ++ t.kind.label
  | after _ ts => "after " ++ toString ts.length

end Event

/-- What a part of a walk did. -/
structure Account where
  tally : Tally := {}
  journal : List Event := []

namespace Account

def append (a b : Account) : Account := ⟨a.tally + b.tally, a.journal ++ b.journal⟩

instance : Append Account := ⟨append⟩

end Account

end Graft
