import Graft.Tree.Basic

/-! # Building trees

A function per shape of tree, for assembling trees by hand. The trees have no attributes, except
that a statement takes the position of its expression (`Tree.asStatement`). Names given as texts are
read.
-/

set_option autoImplicit false

namespace Graft.Make

/-! ## Scalars and names -/

def int (value : Int64) : Tree := .bare (.literal (.int value))

def float (value : Binary64) : Tree := .bare (.literal (.float value))

def str (text : String) : Tree := .bare (.literal (.str text))

def bool (value : Bool) : Tree := .bare (.literal (.bool value))

def null : Tree := .bare (.literal .null)

def var (name : String) : Tree := .bare (.var name)

def constant (name : String) : Tree := .bare (.constant (.read name))

/-! ## Compound expressions -/

def array (items : Forest) : Tree := .bare (.array items)

def binary (op : BinaryOp) (left right : Tree) : Tree := .bare (.binary op left right)

def unary (op : UnaryOp) (operand : Tree) : Tree := .bare (.unary op operand)

def assign (target value : Tree) : Tree := .bare (.assign target value)

/-- Plain arguments. -/
def args (values : Forest) : List (Arg Tree) := values.map .plain

/-- A class or a function given by name. -/
def reference (name : String) : Reference Tree := .named (.read name)

def call (name : String) (values : Forest) : Tree := .bare (.call (reference name) (args values))

def callOn (callee : Tree) (values : Forest) : Tree := .bare (.call (.computed callee) (args values))

/-! ## Members -/

def property (object : Tree) (name : String) : Tree := .bare (.property object (.named name))

def propertyAt (object name : Tree) : Tree := .bare (.property object (.computed name))

def methodCall (object : Tree) (name : String) (values : Forest) : Tree :=
  .bare (.methodCall object (.named name) (args values))

def methodCallAt (object name : Tree) (values : Forest) : Tree :=
  .bare (.methodCall object (.computed name) (args values))

def staticProperty (owner name : String) : Tree :=
  .bare (.staticProperty (reference owner) (.named name))

def staticPropertyOn (owner : Tree) (name : String) : Tree :=
  .bare (.staticProperty (.computed owner) (.named name))

def staticCall (owner name : String) (values : Forest) : Tree :=
  .bare (.staticCall (reference owner) (.named name) (args values))

def staticCallAt (owner : String) (name : Tree) (values : Forest) : Tree :=
  .bare (.staticCall (reference owner) (.computed name) (args values))

def classConstant (owner name : String) : Tree :=
  .bare (.classConstant (reference owner) (.named name))

def construct (owner : String) (values : Forest) : Tree :=
  .bare (.construct (reference owner) (args values))

def constructOn (owner : Tree) (values : Forest) : Tree :=
  .bare (.construct (.computed owner) (args values))

/-! ## Functions -/

def param (name : String) : Param Tree := ⟨name, none, false, false⟩

def paramWithDefault (name : String) (default : Tree) : Param Tree :=
  ⟨name, some default, false, false⟩

def closure (params : List (Param Tree)) (body : Forest) : Tree := .bare (.closure params [] false body)

def arrow (params : List (Param Tree)) (body : Tree) : Tree := .bare (.arrow params body)

def function (name : String) (params : List (Param Tree)) (body : Forest) : Tree :=
  .bare (.function name params body)

/-! ## Statements -/

def ret (value : Option Tree) : Tree := .bare (.ret value)

def echo (values : Forest) : Tree := .bare (.echo values)

def branch (condition : Tree) (yes : Forest) (no : Option Forest) : Tree :=
  .bare (.branch condition yes no)

def loop (condition : Tree) (body : Forest) : Tree := .bare (.loop condition body)

def block (statements : Forest) : Tree := .bare (.block statements)

/-! ## Classes -/

def classDecl (name : String) (parent : Option String) (members : Forest) : Tree :=
  .bare (.classDecl name (parent.map .read) members)

def method (name : String) (visibility : Visibility) (params : List (Param Tree)) (body : Forest) :
    Tree :=
  .bare (.method name visibility false params body)

def propertyDecl (name : String) (visibility : Visibility) (default : Option Tree) : Tree :=
  .bare (.propertyDecl name visibility false default)

def constantDecl (name : String) (visibility : Visibility) (value : Tree) : Tree :=
  .bare (.constantDecl name visibility value)

/-! ## Flags of arguments -/

/-- The arguments with flags set by position, as far as both lists reach. -/
def flagArgs : List (Arg Tree) → List (Bool × Bool) → List (Arg Tree)
  | a :: rest, (byRef, unpack) :: flags => ⟨a.value, byRef, unpack⟩ :: flagArgs rest flags
  | rest, _ => rest

/-- A call with the flags of its arguments set; other trees have no arguments. -/
def flagged? (t : Tree) (flags : List (Bool × Bool)) : Option Tree :=
  match t.form with
  | .call callee args => some ⟨.call callee (flagArgs args flags), t.attrs⟩
  | .methodCall object name args => some ⟨.methodCall object name (flagArgs args flags), t.attrs⟩
  | .staticCall owner name args => some ⟨.staticCall owner name (flagArgs args flags), t.attrs⟩
  | .construct owner args => some ⟨.construct owner (flagArgs args flags), t.attrs⟩
  | _ => none

end Graft.Make
