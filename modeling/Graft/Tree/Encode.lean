import Graft.Json.Basic
import Graft.Tree.Basic

/-! # Trees as data

A tree is written as an object with its form and its attributes. A form, and every other choice among
alternatives, is an object of one field, named by the label of the alternative; an alternative without
content is its label alone. All fields are written, and floats by their bit pattern.
-/

set_option autoImplicit false

namespace Graft

/-! ## Parts -/

def Span.toJson (s : Span) : Json :=
  .object [("start_line", .nat s.startLine.toNat), ("start_column", .nat s.startColumn.toNat),
    ("end_line", .nat s.endLine.toNat), ("end_column", .nat s.endColumn.toNat)]

/-- A value that may be missing. -/
def Json.orNull : Option Json → Json
  | some j => j
  | none => .null

def Attributes.toJson (a : Attributes) : Json :=
  .object [("span", .orNull (a.span.map Span.toJson)), ("comments", .arr (a.comments.map Json.text))]

def Name.toJson (n : Name) : Json :=
  .object [("parts", .arr (n.parts.map Json.text)), ("fully_qualified", .bool n.qualified)]

def Literal.toJson : Literal → Json
  | .int value => .object [("Int", .int value.toInt)]
  | .float value => .object [("Float", .text value.hex)]
  | .str text => .object [("String", .text text)]
  | .bool value => .object [("Bool", .bool value)]
  | .null => .text "Null"

def Reference.toJson : Reference Json → Json
  | .named name => .object [("Named", name.toJson)]
  | .computed expr => .object [("Dynamic", expr)]

def Member.toJson : Member Json → Json
  | .named text => .object [("Literal", .text text)]
  | .computed expr => .object [("Dynamic", expr)]

def Arg.toJson (a : Arg Json) : Json :=
  .object [("value", a.value), ("by_ref", .bool a.byRef), ("unpack", .bool a.unpack)]

def Param.toJson (p : Param Json) : Json :=
  .object [("name", .text p.name), ("default", .orNull p.default), ("by_ref", .bool p.byRef),
    ("variadic", .bool p.variadic)]

def Capture.toJson (c : Capture) : Json :=
  .object [("name", .text c.name), ("by_ref", .bool c.byRef)]

/-! ## Forms and trees -/

/-- The content of a form, without its label. -/
def Form.content : Form Json → Json
  | .literal value => value.toJson
  | .var name => .text name
  | .constant name => name.toJson
  | .array items => .arr items
  | .binary op left right => .object [("op", .text op.label), ("left", left), ("right", right)]
  | .unary op operand => .object [("op", .text op.label), ("operand", operand)]
  | .assign target value => .object [("target", target), ("value", value)]
  | .call callee args => .object [("callee", callee.toJson), ("args", .arr (args.map Arg.toJson))]
  | .property object name => .object [("object", object), ("name", name.toJson)]
  | .methodCall object name args =>
    .object [("object", object), ("name", name.toJson), ("args", .arr (args.map Arg.toJson))]
  | .staticProperty owner name => .object [("class", owner.toJson), ("name", name.toJson)]
  | .staticCall owner name args =>
    .object [("class", owner.toJson), ("name", name.toJson), ("args", .arr (args.map Arg.toJson))]
  | .classConstant owner name => .object [("class", owner.toJson), ("name", name.toJson)]
  | .construct owner args =>
    .object [("class", owner.toJson), ("args", .arr (args.map Arg.toJson))]
  | .closure params captures isStatic body =>
    .object [("params", .arr (params.map Param.toJson)), ("uses", .arr (captures.map Capture.toJson)),
      ("is_static", .bool isStatic), ("body", .arr body)]
  | .arrow params body => .object [("params", .arr (params.map Param.toJson)), ("body", body)]
  | .expression expr => expr
  | .ret value => .orNull value
  | .echo values => .arr values
  | .branch condition yes no =>
    .object [("condition", condition), ("then_branch", .arr yes),
      ("else_branch", .orNull (no.map Json.arr))]
  | .loop condition body => .object [("condition", condition), ("body", .arr body)]
  | .block statements => .arr statements
  | .function name params body =>
    .object [("name", .text name), ("params", .arr (params.map Param.toJson)), ("body", .arr body)]
  | .classDecl name parent members =>
    .object [("name", .text name), ("extends", .orNull (parent.map Name.toJson)),
      ("members", .arr members)]
  | .method name visibility isStatic params body =>
    .object [("name", .text name), ("visibility", .text visibility.label),
      ("is_static", .bool isStatic), ("params", .arr (params.map Param.toJson)), ("body", .arr body)]
  | .propertyDecl name visibility isStatic default =>
    .object [("name", .text name), ("visibility", .text visibility.label),
      ("is_static", .bool isStatic), ("default", .orNull default)]
  | .constantDecl name visibility value =>
    .object [("name", .text name), ("visibility", .text visibility.label), ("value", value)]

def Form.toJson (form : Form Json) : Json := .object [(form.kind.label, form.content)]

/-- A tree as data. -/
def Tree.toJson : Tree → Json :=
  Tree.recurse fun form attrs =>
    .object [("kind", (form.map (·.2)).toJson), ("attrs", attrs.toJson)]

end Graft
