import Graft.Tree.Form

/-! # Slots

A child stands in a required slot, which must stay filled, in an optional slot, or in a list.
`Form.rebuild` takes a form apart and puts it together again with what an effectful function hands
back for each child, in source order. A child in a required slot gives a child; one in an optional
slot or a list may vanish, an argument together with its flags.
-/

set_option autoImplicit false

namespace Graft

/-- The required slots. -/
inductive Slot where
  | left | right | operand | target | value | callee | object | name | owner | body | expr | condition
deriving DecidableEq, Repr

def Slot.label : Slot → String
  | left => "left"
  | right => "right"
  | operand => "operand"
  | target => "target"
  | value => "value"
  | callee => "callee"
  | object => "object"
  | name => "name"
  | owner => "class"
  | body => "body"
  | expr => "expr"
  | condition => "condition"

universe u

section
variable {m : Type → Type u} [Monad m] {α β : Type}

/-! ## Lists and optional slots -/

/-- Runs through a list and keeps what does not vanish. -/
def collect (f : α → m (Option β)) : List α → m (List β)
  | [] => pure []
  | a :: rest => do
    let b ← f a
    let bs ← collect f rest
    pure (b.toList ++ bs)

/-- Runs through a list that keeps its length. -/
def each (f : α → m β) : List α → m (List β)
  | [] => pure []
  | a :: rest => do
    let b ← f a
    let bs ← each f rest
    pure (b :: bs)

def rebuildOption (optional : α → m (Option β)) : Option α → m (Option β)
  | none => pure none
  | some a => optional a

def Arg.rebuild (optional : α → m (Option β)) (a : Arg α) : m (Option (Arg β)) := do
  let value ← optional a.value
  pure (value.map (⟨·, a.byRef, a.unpack⟩))

def Param.rebuild (optional : α → m (Option β)) (p : Param α) : m (Param β) := do
  let default ← rebuildOption optional p.default
  pure ⟨p.name, default, p.byRef, p.variadic⟩

/-! ## Required slots -/

def Reference.rebuild (required : α → m β) : Reference α → m (Reference β)
  | .named name => pure (.named name)
  | .computed a => do
    let b ← required a
    pure (.computed b)

def Member.rebuild (required : α → m β) : Member α → m (Member β)
  | .named text => pure (.named text)
  | .computed a => do
    let b ← required a
    pure (.computed b)

/-! ## Forms -/

/-- A form rebuilt from what its children give. -/
def Form.rebuild (required : Slot → α → m β) (optional : α → m (Option β)) : Form α → m (Form β)
  | .literal value => pure (.literal value)
  | .var name => pure (.var name)
  | .constant name => pure (.constant name)
  | .array items => do
    let items ← collect optional items
    pure (.array items)
  | .binary op left right => do
    let left ← required .left left
    let right ← required .right right
    pure (.binary op left right)
  | .unary op operand => do
    let operand ← required .operand operand
    pure (.unary op operand)
  | .assign target value => do
    let target ← required .target target
    let value ← required .value value
    pure (.assign target value)
  | .call callee args => do
    let callee ← callee.rebuild (required .callee)
    let args ← collect (Arg.rebuild optional) args
    pure (.call callee args)
  | .property object name => do
    let object ← required .object object
    let name ← name.rebuild (required .name)
    pure (.property object name)
  | .methodCall object name args => do
    let object ← required .object object
    let name ← name.rebuild (required .name)
    let args ← collect (Arg.rebuild optional) args
    pure (.methodCall object name args)
  | .staticProperty owner name => do
    let owner ← owner.rebuild (required .owner)
    let name ← name.rebuild (required .name)
    pure (.staticProperty owner name)
  | .staticCall owner name args => do
    let owner ← owner.rebuild (required .owner)
    let name ← name.rebuild (required .name)
    let args ← collect (Arg.rebuild optional) args
    pure (.staticCall owner name args)
  | .classConstant owner name => do
    let owner ← owner.rebuild (required .owner)
    let name ← name.rebuild (required .name)
    pure (.classConstant owner name)
  | .construct owner args => do
    let owner ← owner.rebuild (required .owner)
    let args ← collect (Arg.rebuild optional) args
    pure (.construct owner args)
  | .closure params captures isStatic body => do
    let params ← each (Param.rebuild optional) params
    let body ← collect optional body
    pure (.closure params captures isStatic body)
  | .arrow params body => do
    let params ← each (Param.rebuild optional) params
    let body ← required .body body
    pure (.arrow params body)
  | .expression expr => do
    let expr ← required .expr expr
    pure (.expression expr)
  | .ret value => do
    let value ← rebuildOption optional value
    pure (.ret value)
  | .echo values => do
    let values ← collect optional values
    pure (.echo values)
  | .branch condition yes no => do
    let condition ← required .condition condition
    let yes ← collect optional yes
    match no with
    | none => pure (.branch condition yes none)
    | some no =>
      let no ← collect optional no
      pure (.branch condition yes (some no))
  | .loop condition body => do
    let condition ← required .condition condition
    let body ← collect optional body
    pure (.loop condition body)
  | .block statements => do
    let statements ← collect optional statements
    pure (.block statements)
  | .function name params body => do
    let params ← each (Param.rebuild optional) params
    let body ← collect optional body
    pure (.function name params body)
  | .classDecl name parent members => do
    let members ← collect optional members
    pure (.classDecl name parent members)
  | .method name visibility isStatic params body => do
    let params ← each (Param.rebuild optional) params
    let body ← collect optional body
    pure (.method name visibility isStatic params body)
  | .propertyDecl name visibility isStatic default => do
    let default ← rebuildOption optional default
    pure (.propertyDecl name visibility isStatic default)
  | .constantDecl name visibility value => do
    let value ← required .value value
    pure (.constantDecl name visibility value)

end

end Graft
