import Graft.Pass.Basic
import Graft.Tree.Make
import Graft.Tree.Source

/-! # Scripted passes

A scripted pass acts by rules and edits that are plain data. On entering and on leaving a tree the
first rule that applies decides; without one the tree is kept. Before and after the walk the forest is
edited.
-/

set_option autoImplicit false

namespace Graft

/-! ## Rules -/

/-- A rule for the trees of a kind, or of a source, or both. -/
structure Rule (α : Type) where
  kind : Option String
  source : Option String
  action : α

namespace Rule

def applies {α : Type} (r : Rule α) (t : Tree) : Bool :=
  r.kind.all (· = t.kind.label) && r.source.all (· = t.source)

/-- The action of the first rule that applies. -/
def first? {α : Type} (rules : List (Rule α)) (t : Tree) : Option α :=
  (rules.find? (·.applies t)).map (·.action)

end Rule

inductive OnEnter where
  | keep
  | skip
  | replace (tree : Tree)
  /-- A call to another function with the same arguments; other trees are kept. -/
  | rename (name : String)

inductive OnLeave where
  | keep
  | remove
  | replace (tree : Tree)
  /-- A call of a function on the tree. -/
  | wrap (name : String)

def OnEnter.answer (t : Tree) : OnEnter → Entering
  | keep => .keep t
  | skip => .skip t
  | replace u => .replace u
  | rename name =>
    match t.form with
    | .call _ args => .replace (.bare (.call (.named (.read name)) args))
    | _ => .keep t

def OnLeave.answer (t : Tree) : OnLeave → Leaving
  | keep => .keep t
  | remove => .remove
  | replace u => .replace u
  | wrap name => .replace (Make.call name [t])

/-! ## Edits -/

/-- A change to a forest, in this order. -/
structure Edit where
  /-- The kind of the top-level trees to drop. -/
  drop : Option String := none
  reverse : Bool := false
  front : Forest := []
  back : Forest := []

def Edit.apply (e : Edit) (ts : Forest) : Forest :=
  let kept := match e.drop with
    | some kind => ts.filter (·.kind.label ≠ kind)
    | none => ts
  e.front ++ (if e.reverse then kept.reverse else kept) ++ e.back

/-! ## The pass -/

structure Script where
  label : String
  /-- Whether the calls of its hooks are reported. -/
  reports : Bool
  enter : List (Rule OnEnter)
  leave : List (Rule OnLeave)
  before : Edit
  after : Edit

namespace Script

def entering (s : Script) (t : Tree) : Entering :=
  ((Rule.first? s.enter t).getD .keep).answer t

def leaving (s : Script) (t : Tree) : Leaving :=
  ((Rule.first? s.leave t).getD .keep).answer t

/-- The scripted pass; it has no state beside its script. -/
def pass (s : Script) : Pass where
  State := Unit
  name := s.label
  state := ()
  before := fun _ ts => ((), s.before.apply ts)
  enter := fun _ t => ((), s.entering t)
  leave := fun _ t => some ((), s.leaving t)
  after := fun _ ts => ((), s.after.apply ts)

end Script

end Graft
