/-! # Attributes

What a tree carries beside its form: the region of text it came from and the comments before it.
-/

set_option autoImplicit false

namespace Graft

/-- A region of text; lines count from one, columns from zero. -/
structure Span where
  startLine : UInt64
  startColumn : UInt64
  endLine : UInt64
  endColumn : UInt64
deriving DecidableEq, Repr

/-- The empty region at one position. -/
def Span.point (line column : UInt64) : Span := ⟨line, column, line, column⟩

structure Attributes where
  span : Option Span
  /-- The comments before the tree, without their markers. -/
  comments : List String
deriving DecidableEq, Repr

namespace Attributes

/-- No position and no comments. -/
def empty : Attributes := ⟨none, []⟩

def isEmpty (a : Attributes) : Bool := a.span.isNone && a.comments.isEmpty

/-- The position alone. -/
def place (a : Attributes) : Attributes := { a with comments := [] }

/-- `a`, unless it is empty and `b` takes its place. -/
def orElse (a b : Attributes) : Attributes := if a.isEmpty then b else a

end Attributes

end Graft
