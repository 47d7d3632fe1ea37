import Graft.Tree.Form

/-! # Kinds

The kind of a form is its constructor alone. Kinds have labels, by which errors, journals and data
speak of them.
-/

set_option autoImplicit false

namespace Graft

inductive Kind where
  | literal | var | constant
  | array | binary | unary | assign | call
  | property | methodCall | staticProperty | staticCall | classConstant | construct
  | closure | arrow
  | expression | ret | echo | branch | loop | block | function | classDecl
  | method | propertyDecl | constantDecl
deriving DecidableEq, Repr

namespace Kind

def all : List Kind :=
  [literal, var, constant, array, binary, unary, assign, call, property, methodCall,
    staticProperty, staticCall, classConstant, construct, closure, arrow, expression, ret, echo,
    branch, loop, block, function, classDecl, method, propertyDecl, constantDecl]

def label : Kind → String
  | literal => "Literal"
  | var => "Variable"
  | constant => "ConstFetch"
  | array => "Array"
  | binary => "BinaryOp"
  | unary => "UnaryOp"
  | assign => "Assign"
  | call => "FuncCall"
  | property => "PropertyFetch"
  | methodCall => "MethodCall"
  | staticProperty => "StaticPropertyFetch"
  | staticCall => "StaticCall"
  | classConstant => "ClassConstFetch"
  | construct => "New"
  | closure => "Closure"
  | arrow => "ArrowFunction"
  | expression => "Expression"
  | ret => "Return"
  | echo => "Echo"
  | branch => "If"
  | loop => "While"
  | block => "Block"
  | function => "Function"
  | classDecl => "Class"
  | method => "ClassMethod"
  | propertyDecl => "PropertyDecl"
  | constantDecl => "ClassConst"

def ofLabel? (label : String) : Option Kind := all.find? (·.label = label)

theorem ofLabel?_label (k : Kind) : ofLabel? k.label = some k := by
  cases k <;> decide

/-- Statements and members of classes are not expressions. -/
def isExpression : Kind → Bool
  | literal | var | constant | array | binary | unary | assign | call => true
  | property | methodCall | staticProperty | staticCall | classConstant | construct => true
  | closure | arrow => true
  | expression | ret | echo | branch | loop | block | function | classDecl => false
  | method | propertyDecl | constantDecl => false

/-- The kinds that open a body with returns of its own. -/
def isFunctionLike : Kind → Bool
  | closure | arrow | function | method => true
  | _ => false

end Kind

/-- The kind of a form. -/
def Form.kind {α : Type} : Form α → Kind
  | .literal _ => .literal
  | .var _ => .var
  | .constant _ => .constant
  | .array _ => .array
  | .binary _ _ _ => .binary
  | .unary _ _ => .unary
  | .assign _ _ => .assign
  | .call _ _ => .call
  | .property _ _ => .property
  | .methodCall _ _ _ => .methodCall
  | .staticProperty _ _ => .staticProperty
  | .staticCall _ _ _ => .staticCall
  | .classConstant _ _ => .classConstant
  | .construct _ _ => .construct
  | .closure _ _ _ _ => .closure
  | .arrow _ _ => .arrow
  | .expression _ => .expression
  | .ret _ => .ret
  | .echo _ => .echo
  | .branch _ _ _ => .branch
  | .loop _ _ => .loop
  | .block _ => .block
  | .function _ _ _ => .function
  | .classDecl _ _ _ => .classDecl
  | .method _ _ _ _ _ => .method
  | .propertyDecl _ _ _ _ => .propertyDecl
  | .constantDecl _ _ _ => .constantDecl

theorem Form.kind_map {α β : Type} (f : α → β) (form : Form α) : (form.map f).kind = form.kind := by
  cases form <;> rfl

end Graft
