import Graft.Tree.Basic

/-! # Calls on runtime classes

Everything that instrumentation puts into a tree is a static call on a fully qualified class, or the
construction of a marker. Arguments are taken over as they are.
-/

set_option autoImplicit false

namespace Graft

/-! ## Calls -/

structure RuntimeCall where
  target : Name
  method : String
  args : List (Arg Tree)

namespace RuntimeCall

/-- A call without arguments; the target becomes fully qualified. -/
def bare (target : Name) (method : String) : RuntimeCall := ⟨target.qualify, method, []⟩

/-- The call with one more plain argument. -/
def pass (c : RuntimeCall) (value : Tree) : RuntimeCall := { c with args := c.args ++ [.plain value] }

/-- The call with more arguments. -/
def passAll (c : RuntimeCall) (args : List (Arg Tree)) : RuntimeCall := { c with args := c.args ++ args }

/-- The call as a tree. -/
def tree (c : RuntimeCall) (attrs : Attributes) : Tree :=
  ⟨.staticCall (.named c.target) (.named c.method) c.args, attrs⟩

/-- The call as a tree at the position of another tree. -/
def treeAt (c : RuntimeCall) (reference : Tree) : Tree := c.tree reference.attrs.place

end RuntimeCall

/-! ## Arguments -/

/-- A text as a literal without attributes. -/
def Tree.text (s : String) : Tree := .bare (.literal (.str s))

/-- A member name as an argument: an identifier as a literal, an expression as it is. -/
def Member.argument : Member Tree → Tree
  | .named text => .text text
  | .computed expr => expr

/-- A class as an argument: a name as a literal without leading backslash, an expression as it is. -/
def Reference.argument : Reference Tree → Tree
  | .named name => .text name.text
  | .computed expr => expr

def Member.isComputed {α : Type} : Member α → Bool
  | .named _ => false
  | .computed _ => true

def Reference.isComputed {α : Type} : Reference α → Bool
  | .named _ => false
  | .computed _ => true

/-- The member name that a form accesses. -/
def Form.member? {α : Type} : Form α → Option (Member α)
  | .property _ name | .methodCall _ name _ | .staticProperty _ name => some name
  | .staticCall _ name _ | .classConstant _ name => some name
  | _ => none

/-- The class or function that a form refers to. -/
def Form.reference? {α : Type} : Form α → Option (Reference α)
  | .call callee _ => some callee
  | .staticProperty owner _ | .staticCall owner _ _ | .classConstant owner _ => some owner
  | .construct owner _ => some owner
  | _ => none

/-! ## Markers -/

/-- The construction of a marker, which stands for a missing value. -/
def Tree.marker (name : Name) : Tree := .bare (.construct (.named name.qualify) [])

end Graft
