import Graft.Name
import Graft.Number.Binary64
import Graft.Tree.Attributes
import Graft.Tree.Operator

/-! # Forms

A form is one layer of a syntax tree: what a node is, with its children left abstract. Everything
that treats a node without looking further down is a function on forms.
-/

set_option autoImplicit false

namespace Graft

/-! ## Parts of a form -/

inductive Literal where
  | int (value : Int64)
  | float (value : Binary64)
  | str (text : String)
  | bool (value : Bool)
  | null
deriving DecidableEq

/-- Where a class or a function is named: by a name or by an expression. -/
inductive Reference (α : Type) where
  | named (name : Name)
  | computed (expr : α)

/-- Where a member is named: by an identifier or by an expression. -/
inductive Member (α : Type) where
  | named (text : String)
  | computed (expr : α)

/-- An argument of a call. -/
structure Arg (α : Type) where
  value : α
  byRef : Bool
  unpack : Bool

/-- A plain argument. -/
def Arg.plain {α : Type} (value : α) : Arg α := ⟨value, false, false⟩

/-- A parameter of a function. -/
structure Param (α : Type) where
  name : String
  default : Option α
  byRef : Bool
  variadic : Bool

/-- A variable that a closure takes from its surroundings. -/
structure Capture where
  name : String
  byRef : Bool
deriving DecidableEq

/-! ## Forms -/

inductive Form (α : Type) where
  | literal (value : Literal)
  | var (name : String)
  | constant (name : Name)
  | array (items : List α)
  | binary (op : BinaryOp) (left right : α)
  | unary (op : UnaryOp) (operand : α)
  | assign (target value : α)
  | call (callee : Reference α) (args : List (Arg α))
  | property (object : α) (name : Member α)
  | methodCall (object : α) (name : Member α) (args : List (Arg α))
  | staticProperty (owner : Reference α) (name : Member α)
  | staticCall (owner : Reference α) (name : Member α) (args : List (Arg α))
  | classConstant (owner : Reference α) (name : Member α)
  | construct (owner : Reference α) (args : List (Arg α))
  | closure (params : List (Param α)) (captures : List Capture) (isStatic : Bool) (body : List α)
  | arrow (params : List (Param α)) (body : α)
  | expression (expr : α)
  | ret (value : Option α)
  | echo (values : List α)
  | branch (condition : α) (yes : List α) (no : Option (List α))
  | loop (condition : α) (body : List α)
  | block (statements : List α)
  | function (name : String) (params : List (Param α)) (body : List α)
  | classDecl (name : String) (parent : Option Name) (members : List α)
  | method (name : String) (visibility : Visibility) (isStatic : Bool) (params : List (Param α))
      (body : List α)
  | propertyDecl (name : String) (visibility : Visibility) (isStatic : Bool) (default : Option α)
  | constantDecl (name : String) (visibility : Visibility) (value : α)

/-! ## Children -/

section
variable {α β : Type}

def Reference.children : Reference α → List α
  | .named _ => []
  | .computed expr => [expr]

def Member.children : Member α → List α
  | .named _ => []
  | .computed expr => [expr]

def Arg.children (args : List (Arg α)) : List α := args.map (·.value)

def Param.children (params : List (Param α)) : List α := params.flatMap (·.default.toList)

/-- The children of a form in source order. -/
def Form.children : Form α → List α
  | .literal _ => []
  | .var _ => []
  | .constant _ => []
  | .array items => items
  | .binary _ left right => [left, right]
  | .unary _ operand => [operand]
  | .assign target value => [target, value]
  | .call callee args => callee.children ++ Arg.children args
  | .property object name => object :: name.children
  | .methodCall object name args => object :: (name.children ++ Arg.children args)
  | .staticProperty owner name => owner.children ++ name.children
  | .staticCall owner name args => owner.children ++ name.children ++ Arg.children args
  | .classConstant owner name => owner.children ++ name.children
  | .construct owner args => owner.children ++ Arg.children args
  | .closure params _ _ body => Param.children params ++ body
  | .arrow params body => Param.children params ++ [body]
  | .expression expr => [expr]
  | .ret value => value.toList
  | .echo values => values
  | .branch condition yes no => condition :: (yes ++ no.getD [])
  | .loop condition body => condition :: body
  | .block statements => statements
  | .function _ params body => Param.children params ++ body
  | .classDecl _ _ members => members
  | .method _ _ _ params body => Param.children params ++ body
  | .propertyDecl _ _ _ default => default.toList
  | .constantDecl _ _ value => [value]

/-! ## Mapping -/

def Reference.map (f : α → β) : Reference α → Reference β
  | .named name => .named name
  | .computed expr => .computed (f expr)

def Member.map (f : α → β) : Member α → Member β
  | .named text => .named text
  | .computed expr => .computed (f expr)

def Arg.map (f : α → β) (a : Arg α) : Arg β := ⟨f a.value, a.byRef, a.unpack⟩

def Param.map (f : α → β) (p : Param α) : Param β := ⟨p.name, p.default.map f, p.byRef, p.variadic⟩

/-- The form with every child replaced by its image. -/
def Form.map (f : α → β) : Form α → Form β
  | .literal value => .literal value
  | .var name => .var name
  | .constant name => .constant name
  | .array items => .array (items.map f)
  | .binary op left right => .binary op (f left) (f right)
  | .unary op operand => .unary op (f operand)
  | .assign target value => .assign (f target) (f value)
  | .call callee args => .call (callee.map f) (args.map (·.map f))
  | .property object name => .property (f object) (name.map f)
  | .methodCall object name args => .methodCall (f object) (name.map f) (args.map (·.map f))
  | .staticProperty owner name => .staticProperty (owner.map f) (name.map f)
  | .staticCall owner name args => .staticCall (owner.map f) (name.map f) (args.map (·.map f))
  | .classConstant owner name => .classConstant (owner.map f) (name.map f)
  | .construct owner args => .construct (owner.map f) (args.map (·.map f))
  | .closure params captures isStatic body =>
    .closure (params.map (·.map f)) captures isStatic (body.map f)
  | .arrow params body => .arrow (params.map (·.map f)) (f body)
  | .expression expr => .expression (f expr)
  | .ret value => .ret (value.map f)
  | .echo values => .echo (values.map f)
  | .branch condition yes no => .branch (f condition) (yes.map f) (no.map (·.map f))
  | .loop condition body => .loop (f condition) (body.map f)
  | .block statements => .block (statements.map f)
  | .function name params body => .function name (params.map (·.map f)) (body.map f)
  | .classDecl name parent members => .classDecl name parent (members.map f)
  | .method name visibility isStatic params body =>
    .method name visibility isStatic (params.map (·.map f)) (body.map f)
  | .propertyDecl name visibility isStatic default =>
    .propertyDecl name visibility isStatic (default.map f)
  | .constantDecl name visibility value => .constantDecl name visibility (f value)

end

end Graft
