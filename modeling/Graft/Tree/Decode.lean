import Graft.Json.Basic
import Graft.Tree.Basic

/-! # Trees from data

Reading accepts more than writing produces. A record may be an object, whose unknown fields are
passed over, or an array of exactly its fields in order. A field that may be empty may also be
missing, and a tree without attributes needs none. An alternative without content is a label or an
object of one field that holds `null`. The content of a form with named fields is always an object.
-/

set_option autoImplicit false

namespace Graft

/-! ## Parts -/

def Span.ofJson? (j : Json) : Option Span :=
  match j.record? ["start_line", "start_column", "end_line", "end_column"] with
  | some [some a, some b, some c, some d] => do
    some ⟨← a.uint64?, ← b.uint64?, ← c.uint64?, ← d.uint64?⟩
  | _ => none

def Attributes.ofJson? (j : Json) : Option Attributes :=
  match j.record? ["span", "comments"] with
  | some [span, some comments] => do
    some ⟨← Json.optional? Span.ofJson? span, ← comments.list? Json.text?⟩
  | _ => none

def Name.ofJson? (j : Json) : Option Name :=
  match j.record? ["parts", "fully_qualified"] with
  | some [some parts, some qualified] => do some ⟨← parts.list? Json.text?, ← qualified.bool?⟩
  | _ => none

def BinaryOp.ofJson? (j : Json) : Option BinaryOp := j.bareTag?.bind ofLabel?

def UnaryOp.ofJson? (j : Json) : Option UnaryOp := j.bareTag?.bind ofLabel?

def Visibility.ofJson? (j : Json) : Option Visibility := j.bareTag?.bind ofLabel?

/-- A float is a bit pattern or any number. -/
def Binary64.ofJson? : Json → Option Binary64
  | .str text => text.bind ofHex?
  | .num value => value.toBinary64?
  | _ => none

def Literal.ofJson? (j : Json) : Option Literal :=
  match j.tagged? with
  | some ("Int", some value) => value.int64?.map .int
  | some ("Float", some value) => (Binary64.ofJson? value).map .float
  | some ("String", some value) => value.text?.map .str
  | some ("Bool", some value) => value.bool?.map .bool
  | some ("Null", none) => some .null
  | some ("Null", some .null) => some .null
  | _ => none

def Capture.ofJson? (j : Json) : Option Capture :=
  match j.record? ["name", "by_ref"] with
  | some [some name, some byRef] => do some ⟨← name.text?, ← byRef.bool?⟩
  | _ => none

section
variable {α : Type} (child : Json → Option α)

def Reference.ofJson? (j : Json) : Option (Reference α) :=
  match j.tagged? with
  | some ("Named", some name) => (Name.ofJson? name).map .named
  | some ("Dynamic", some expr) => (child expr).map .computed
  | _ => none

def Member.ofJson? (j : Json) : Option (Member α) :=
  match j.tagged? with
  | some ("Literal", some text) => text.text?.map .named
  | some ("Dynamic", some expr) => (child expr).map .computed
  | _ => none

def Arg.ofJson? (j : Json) : Option (Arg α) :=
  match j.record? ["value", "by_ref", "unpack"] with
  | some [some value, some byRef, some unpack] => do
    some ⟨← child value, ← byRef.bool?, ← unpack.bool?⟩
  | _ => none

def Param.ofJson? (j : Json) : Option (Param α) :=
  match j.record? ["name", "default", "by_ref", "variadic"] with
  | some [some name, default, some byRef, some variadic] => do
    some ⟨← name.text?, ← Json.optional? child default, ← byRef.bool?, ← variadic.bool?⟩
  | _ => none

/-! ## Forms -/

/-- The content of a form of a given kind. -/
def Form.ofContent? (kind : Kind) (j : Json) : Option (Form α) :=
  match kind with
  | .literal => (Literal.ofJson? j).map .literal
  | .var => j.text?.map .var
  | .constant => (Name.ofJson? j).map .constant
  | .array => (j.list? child).map .array
  | .binary =>
    match j.fields? ["op", "left", "right"] with
    | some [some op, some left, some right] => do
      some (.binary (← BinaryOp.ofJson? op) (← child left) (← child right))
    | _ => none
  | .unary =>
    match j.fields? ["op", "operand"] with
    | some [some op, some operand] => do some (.unary (← UnaryOp.ofJson? op) (← child operand))
    | _ => none
  | .assign =>
    match j.fields? ["target", "value"] with
    | some [some target, some value] => do some (.assign (← child target) (← child value))
    | _ => none
  | .call =>
    match j.fields? ["callee", "args"] with
    | some [some callee, some args] => do
      some (.call (← Reference.ofJson? child callee) (← args.list? (Arg.ofJson? child)))
    | _ => none
  | .property =>
    match j.fields? ["object", "name"] with
    | some [some object, some name] => do
      some (.property (← child object) (← Member.ofJson? child name))
    | _ => none
  | .methodCall =>
    match j.fields? ["object", "name", "args"] with
    | some [some object, some name, some args] => do
      some (.methodCall (← child object) (← Member.ofJson? child name)
        (← args.list? (Arg.ofJson? child)))
    | _ => none
  | .staticProperty =>
    match j.fields? ["class", "name"] with
    | some [some owner, some name] => do
      some (.staticProperty (← Reference.ofJson? child owner) (← Member.ofJson? child name))
    | _ => none
  | .staticCall =>
    match j.fields? ["class", "name", "args"] with
    | some [some owner, some name, some args] => do
      some (.staticCall (← Reference.ofJson? child owner) (← Member.ofJson? child name)
        (← args.list? (Arg.ofJson? child)))
    | _ => none
  | .classConstant =>
    match j.fields? ["class", "name"] with
    | some [some owner, some name] => do
      some (.classConstant (← Reference.ofJson? child owner) (← Member.ofJson? child name))
    | _ => none
  | .construct =>
    match j.fields? ["class", "args"] with
    | some [some owner, some args] => do
      some (.construct (← Reference.ofJson? child owner) (← args.list? (Arg.ofJson? child)))
    | _ => none
  | .closure =>
    match j.fields? ["params", "uses", "is_static", "body"] with
    | some [some params, some captures, some isStatic, some body] => do
      some (.closure (← params.list? (Param.ofJson? child)) (← captures.list? Capture.ofJson?)
        (← isStatic.bool?) (← body.list? child))
    | _ => none
  | .arrow =>
    match j.fields? ["params", "body"] with
    | some [some params, some body] => do
      some (.arrow (← params.list? (Param.ofJson? child)) (← child body))
    | _ => none
  | .expression => (child j).map .expression
  | .ret => (j.nullable? child).map .ret
  | .echo => (j.list? child).map .echo
  | .branch =>
    match j.fields? ["condition", "then_branch", "else_branch"] with
    | some [some condition, some yes, no] => do
      some (.branch (← child condition) (← yes.list? child) (← Json.optional? (·.list? child) no))
    | _ => none
  | .loop =>
    match j.fields? ["condition", "body"] with
    | some [some condition, some body] => do some (.loop (← child condition) (← body.list? child))
    | _ => none
  | .block => (j.list? child).map .block
  | .function =>
    match j.fields? ["name", "params", "body"] with
    | some [some name, some params, some body] => do
      some (.function (← name.text?) (← params.list? (Param.ofJson? child)) (← body.list? child))
    | _ => none
  | .classDecl =>
    match j.fields? ["name", "extends", "members"] with
    | some [some name, parent, some members] => do
      some (.classDecl (← name.text?) (← Json.optional? Name.ofJson? parent)
        (← members.list? child))
    | _ => none
  | .method =>
    match j.fields? ["name", "visibility", "is_static", "params", "body"] with
    | some [some name, some visibility, some isStatic, some params, some body] => do
      some (.method (← name.text?) (← Visibility.ofJson? visibility) (← isStatic.bool?)
        (← params.list? (Param.ofJson? child)) (← body.list? child))
    | _ => none
  | .propertyDecl =>
    match j.fields? ["name", "visibility", "is_static", "default"] with
    | some [some name, some visibility, some isStatic, default] => do
      some (.propertyDecl (← name.text?) (← Visibility.ofJson? visibility) (← isStatic.bool?)
        (← Json.optional? child default))
    | _ => none
  | .constantDecl =>
    match j.fields? ["name", "visibility", "value"] with
    | some [some name, some visibility, some value] => do
      some (.constantDecl (← name.text?) (← Visibility.ofJson? visibility) (← child value))
    | _ => none

def Form.ofJson? : Json → Option (Form α)
  | .obj [(some label, content)] => do Form.ofContent? child (← Kind.ofLabel? label) content
  | _ => none

end

/-! ## Trees -/

/-- The form and the attributes of a tree; an array may leave the attributes out too. -/
def Tree.parts? : Json → Option (Json × Option Json)
  | .arr [form] => some (form, none)
  | j =>
    match j.record? ["kind", "attrs"] with
    | some [some form, attrs] => some (form, attrs)
    | _ => none

/-- A tree whose data are nested less deeply than the bound. -/
def Tree.decode? : Nat → Json → Option Tree
  | 0, _ => none
  | n + 1, j => do
    let (form, attrs) ← Tree.parts? j
    let form ← Form.ofJson? (Tree.decode? n) form
    match attrs with
    | some attrs => some ⟨form, ← Attributes.ofJson? attrs⟩
    | none => some ⟨form, .empty⟩

/-- Reads a tree. Every tree inside another lies deeper in the data. -/
def Tree.ofJson? (j : Json) : Option Tree := Tree.decode? (j.depth + 1) j

end Graft
