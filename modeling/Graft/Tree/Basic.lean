import Graft.Tree.Kind

/-! # Trees

A tree is a form whose children are trees, with attributes. `Tree.recurse` is the one recursion over
trees: it gives each child together with the value already computed for it. Its defining equation is
`recurse_mk`, so a function defined by it is described by what it does to one form.
-/

set_option autoImplicit false

namespace Graft

structure Tree where
  form : Form Tree
  attrs : Attributes

/-- A sequence of trees, such as the top-level statements of a fragment. -/
abbrev Forest := List Tree

namespace Tree

/-! ## Recursion -/

section
variable {β : Type}

mutual

/-- The value of a tree, from its children and their values. -/
def recurse (step : Form (Tree × β) → Attributes → β) : Tree → β
  | ⟨form, attrs⟩ => step (recurseForm step form) attrs

def recurseForm (step : Form (Tree × β) → Attributes → β) : Form Tree → Form (Tree × β)
  | .literal value => .literal value
  | .var name => .var name
  | .constant name => .constant name
  | .array items => .array (recurseList step items)
  | .binary op left right => .binary op (left, recurse step left) (right, recurse step right)
  | .unary op operand => .unary op (operand, recurse step operand)
  | .assign target value => .assign (target, recurse step target) (value, recurse step value)
  | .call callee args => .call (recurseReference step callee) (recurseArgs step args)
  | .property object name => .property (object, recurse step object) (recurseMember step name)
  | .methodCall object name args =>
    .methodCall (object, recurse step object) (recurseMember step name) (recurseArgs step args)
  | .staticProperty owner name =>
    .staticProperty (recurseReference step owner) (recurseMember step name)
  | .staticCall owner name args =>
    .staticCall (recurseReference step owner) (recurseMember step name) (recurseArgs step args)
  | .classConstant owner name =>
    .classConstant (recurseReference step owner) (recurseMember step name)
  | .construct owner args => .construct (recurseReference step owner) (recurseArgs step args)
  | .closure params captures isStatic body =>
    .closure (recurseParams step params) captures isStatic (recurseList step body)
  | .arrow params body => .arrow (recurseParams step params) (body, recurse step body)
  | .expression expr => .expression (expr, recurse step expr)
  | .ret value => .ret (recurseOption step value)
  | .echo values => .echo (recurseList step values)
  | .branch condition yes no =>
    .branch (condition, recurse step condition) (recurseList step yes) (recurseOptionList step no)
  | .loop condition body => .loop (condition, recurse step condition) (recurseList step body)
  | .block statements => .block (recurseList step statements)
  | .function name params body => .function name (recurseParams step params) (recurseList step body)
  | .classDecl name parent members => .classDecl name parent (recurseList step members)
  | .method name visibility isStatic params body =>
    .method name visibility isStatic (recurseParams step params) (recurseList step body)
  | .propertyDecl name visibility isStatic default =>
    .propertyDecl name visibility isStatic (recurseOption step default)
  | .constantDecl name visibility value => .constantDecl name visibility (value, recurse step value)

def recurseList (step : Form (Tree × β) → Attributes → β) : List Tree → List (Tree × β)
  | [] => []
  | t :: rest => (t, recurse step t) :: recurseList step rest

def recurseOption (step : Form (Tree × β) → Attributes → β) : Option Tree → Option (Tree × β)
  | none => none
  | some t => some (t, recurse step t)

def recurseOptionList (step : Form (Tree × β) → Attributes → β) :
    Option (List Tree) → Option (List (Tree × β))
  | none => none
  | some ts => some (recurseList step ts)

def recurseReference (step : Form (Tree × β) → Attributes → β) :
    Reference Tree → Reference (Tree × β)
  | .named name => .named name
  | .computed t => .computed (t, recurse step t)

def recurseMember (step : Form (Tree × β) → Attributes → β) : Member Tree → Member (Tree × β)
  | .named text => .named text
  | .computed t => .computed (t, recurse step t)

def recurseArgs (step : Form (Tree × β) → Attributes → β) : List (Arg Tree) → List (Arg (Tree × β))
  | [] => []
  | ⟨t, byRef, unpack⟩ :: rest => ⟨(t, recurse step t), byRef, unpack⟩ :: recurseArgs step rest

def recurseParams (step : Form (Tree × β) → Attributes → β) :
    List (Param Tree) → List (Param (Tree × β))
  | [] => []
  | ⟨name, default, byRef, variadic⟩ :: rest =>
    ⟨name, recurseOption step default, byRef, variadic⟩ :: recurseParams step rest

end

variable (step : Form (Tree × β) → Attributes → β)

theorem recurseList_eq (ts : List Tree) :
    recurseList step ts = ts.map fun t => (t, recurse step t) := by
  induction ts with
  | nil => rfl
  | cons t ts ih => rw [recurseList, ih, List.map_cons]

theorem recurseOption_eq (t : Option Tree) :
    recurseOption step t = t.map fun t => (t, recurse step t) := by
  cases t <;> rfl

theorem recurseOptionList_eq (ts : Option (List Tree)) :
    recurseOptionList step ts = ts.map (·.map fun t => (t, recurse step t)) := by
  cases ts with
  | none => rfl
  | some ts => rw [recurseOptionList, recurseList_eq, Option.map_some]

theorem recurseReference_eq (r : Reference Tree) :
    recurseReference step r = r.map fun t => (t, recurse step t) := by
  cases r <;> rfl

theorem recurseMember_eq (m : Member Tree) :
    recurseMember step m = m.map fun t => (t, recurse step t) := by
  cases m <;> rfl

theorem recurseArgs_eq (args : List (Arg Tree)) :
    recurseArgs step args = args.map (·.map fun t => (t, recurse step t)) := by
  induction args with
  | nil => rfl
  | cons a args ih => rw [recurseArgs, ih, List.map_cons]; rfl

theorem recurseParams_eq (params : List (Param Tree)) :
    recurseParams step params = params.map (·.map fun t => (t, recurse step t)) := by
  induction params with
  | nil => rfl
  | cons p params ih => rw [recurseParams, ih, List.map_cons, recurseOption_eq]; rfl

theorem recurseForm_eq (form : Form Tree) :
    recurseForm step form = form.map fun t => (t, recurse step t) := by
  cases form <;>
    simp only [recurseForm, Form.map, recurseList_eq, recurseOption_eq, recurseOptionList_eq,
      recurseReference_eq, recurseMember_eq, recurseArgs_eq, recurseParams_eq]

theorem recurse_mk (form : Form Tree) (attrs : Attributes) :
    recurse step ⟨form, attrs⟩ = step (form.map fun t => (t, recurse step t)) attrs := by
  rw [recurse, recurseForm_eq]

end

/-! ## Measures -/

/-- How far the tree reaches below its root. -/
def height : Tree → Nat :=
  recurse fun form _ => (form.children.map (·.2 + 1)).foldr max 0

/-- How many nodes the tree has. -/
def count : Tree → Nat :=
  recurse fun form _ => (form.children.map (·.2)).foldr (· + ·) 1

/-! ## Views -/

/-- A tree without attributes. -/
def bare (form : Form Tree) : Tree := ⟨form, .empty⟩

def kind (t : Tree) : Kind := t.form.kind

def isExpression (t : Tree) : Bool := t.kind.isExpression

def isFunctionLike (t : Tree) : Bool := t.kind.isFunctionLike

/-- The tree with other attributes. -/
def withAttrs (t : Tree) (attrs : Attributes) : Tree := ⟨t.form, attrs⟩

/-- The tree, with the given attributes if it has none of its own. -/
def inherit (t : Tree) (attrs : Attributes) : Tree := t.withAttrs (t.attrs.orElse attrs)

/-- The statement that evaluates an expression, at the position of the expression. -/
def asStatement (t : Tree) : Tree := ⟨.expression t, t.attrs.place⟩

end Tree

/-- How far the trees of a forest reach below its top. -/
def Forest.height (ts : Forest) : Nat := (ts.map (Tree.height · + 1)).foldr max 0

/-- How many nodes a forest has. -/
def Forest.count (ts : Forest) : Nat := (ts.map Tree.count).foldr (· + ·) 0

end Graft
