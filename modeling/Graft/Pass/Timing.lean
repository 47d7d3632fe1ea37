import Graft.Pass.Basic
import Graft.RuntimeCall
import Graft.Settings

/-! # Timing

The timing pass brackets a fragment with two marks, so that every way through its top level starts
with one start mark and ends with one end mark. A top-level return gives its value to the end mark on
the way out; the end of the fragment is closed according to its last statement. Returns inside
functions, methods and closures are theirs, and the pass counts how deeply it is nested in such
bodies to tell them apart.
-/

set_option autoImplicit false

namespace Graft

structure Timing where
  timer : Name
  noValue : Name
  /-- How many function-like trees have been entered and not yet left. -/
  depth : Nat := 0

namespace Timing

def ofSettings (s : Settings) : Timing := { timer := s.timerName, noValue := s.noValueName }

/-! ## Marks -/

def startMark (t : Timing) : Tree := (RuntimeCall.bare t.timer "markStart").tree .empty

/-- The end mark around a value, with the attributes of the value. -/
def endMark (t : Timing) (value : Tree) : Tree :=
  ((RuntimeCall.bare t.timer "markEnd").pass value).tree value.attrs

/-- The end mark where there is no value. -/
def endMarkAlone (t : Timing) : Tree :=
  ((RuntimeCall.bare t.timer "markEnd").pass (.marker t.noValue)).tree .empty

/-- The end mark for a value that may be missing. -/
def endMarkFor (t : Timing) : Option Tree → Tree
  | some value => t.endMark value
  | none => t.endMarkAlone

/-! ## The end of a fragment -/

/-- Closes a fragment at its last statement: a bare expression or an expression statement gives its
value to the end mark, a return has done so already, and after anything else the end mark stands
alone. -/
def finish (t : Timing) (last : Tree) : Forest :=
  if last.isExpression then [t.endMark last]
  else
    match last.form with
    | .expression expr => [⟨.expression (t.endMark expr), last.attrs⟩]
    | .ret _ => [last]
    | _ => [last, t.endMarkAlone.asStatement]

/-- Brackets a fragment. An empty fragment becomes a single statement, the end mark around the start
mark. -/
def bracket (t : Timing) (ts : Forest) : Forest :=
  let opened := t.startMark.asStatement :: ts
  match opened.getLast? with
  | some last => opened.dropLast ++ t.finish last
  | none => opened

/-! ## Hooks -/

def before (t : Timing) (ts : Forest) : Timing × Forest := ({ t with depth := 0 }, ts)

def enter (t : Timing) (tree : Tree) : Timing × Entering :=
  if tree.isFunctionLike then ({ t with depth := t.depth + 1 }, .keep tree)
  else
    match tree.form, t.depth with
    | .ret value, 0 => (t, .replace ⟨.ret (some (t.endMarkFor value)), tree.attrs⟩)
    | _, _ => (t, .keep tree)

/-- A function-like tree cannot be left where none was entered. -/
def leave (t : Timing) (tree : Tree) : Option (Timing × Leaving) :=
  if tree.isFunctionLike then
    match t.depth with
    | 0 => none
    | depth + 1 => some ({ t with depth := depth }, .keep tree)
  else some (t, .keep tree)

def after (t : Timing) (ts : Forest) : Timing × Forest := (t, t.bracket ts)

/-- The timing pass; it shows its depth. -/
def pass (t : Timing) : Pass where
  State := Timing
  name := "timing"
  state := t
  before := before
  enter := enter
  leave := leave
  after := after
  gauge := fun t => some t.depth

end Timing

end Graft
