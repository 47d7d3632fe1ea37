import Graft.Number.Decimal
import Graft.Text.Lines
import Graft.Text.Quoted
import Graft.Tree.Basic

/-! # Source text of trees

Rendering goes form by form: a form is rendered from its children and their source
(`Form.render`). Parentheses depend on the form of the child and on where it stands: before `->`,
`::` or `(` (`dereferenced`), beside a binary operator (`operand`), or after a sign (`signed`).
Statement lists put one statement on a line, comments first, and a body is indented by lines.
-/

set_option autoImplicit false

namespace Graft

/-! ## Literals -/

/-- A whole number is written in full with one place, every other finite number with the fewest
digits that read back, never with an exponent. -/
def Binary64.source (x : Binary64) : String :=
  if x.isNaN then "NAN"
  else
    let magnitude :=
      if x.isInfinite then "INF"
      else if x.isWhole then toString (x.ratio.1 / x.ratio.2) ++ ".0"
      else Decimal.positional (Decimal.shortest x).1 (Decimal.shortest x).2
    if x.negative then "-" ++ magnitude else magnitude

def Literal.source : Literal → String
  | .int value => toString value.toInt
  | .float value => value.source
  | .str text => Text.quote text
  | .bool value => if value then "true" else "false"
  | .null => "null"

/-! ## Children in their places -/

/-- A tree and its source. -/
abbrev Printed := Tree × String

namespace Printed

def parens (text : String) : String := "(" ++ text ++ ")"

def braces (text : String) : String := "\x7b" ++ text ++ "\x7d"

def isVar (p : Printed) : Bool := p.1.kind = .var

/-- The forms that `->`, `::` or `(` can follow without parentheses. -/
def canDereference : Form Tree → Bool
  | .literal (.str _) => true
  | .var _ | .constant _ | .array _ | .call _ _ => true
  | .property _ _ | .methodCall _ _ _ | .staticProperty _ _ | .staticCall _ _ _ => true
  | .classConstant _ _ => true
  | _ => false

/-- An expression before `->`, `::` or `(`. -/
def dereferenced (p : Printed) : String := if canDereference p.1.form then p.2 else parens p.2

/-- The forms that take parentheses as an operand. -/
def isCompound : Form Tree → Bool
  | .binary _ _ _ | .assign _ _ | .closure _ _ _ _ | .arrow _ _ => true
  | _ => false

/-- An operand of a binary operator. -/
def operand (p : Printed) : String := if isCompound p.1.form then parens p.2 else p.2

/-- The forms whose text starts with a sign of its own. -/
def isSigned : Form Tree → Bool
  | .unary _ _ => true
  | .literal (.int value) => decide (value.toInt < 0)
  | .literal (.float value) => value.negative && !value.isNaN
  | _ => false

/-- The operand of a unary operator; two signs never meet. -/
def signed (p : Printed) : String := if isSigned p.1.form then parens p.2 else operand p

/-- A statement: its comments, then its text, with a semicolon after a bare expression. -/
def statement (p : Printed) : String :=
  String.join (p.1.attrs.comments.map fun comment => "// " ++ comment ++ "\n") ++ p.2 ++
    if p.1.isExpression then ";" else ""

def statements (ps : List Printed) : String := "\n".intercalate (ps.map statement)

/-- A body between braces. -/
def body (ps : List Printed) : String :=
  if ps.isEmpty then "\x7b\n\x7d" else "\x7b\n" ++ Text.indent (statements ps) ++ "\n\x7d"

def commas (texts : List String) : String := ", ".intercalate texts

def list (ps : List Printed) : String := commas (ps.map (·.2))

end Printed

open Printed

/-! ## Parts of forms -/

/-- The mark before an argument; unpacking hides the reference mark. -/
def Arg.mark {α : Type} (a : Arg α) : String :=
  if a.unpack then "..." else if a.byRef then "&" else ""

def Arg.render (a : Arg Printed) : String := a.mark ++ a.value.2

def Param.render (p : Param Printed) : String :=
  (if p.byRef then "&" else "") ++ (if p.variadic then "..." else "") ++ "$" ++ p.name ++
    match p.default with
    | some default => " = " ++ default.2
    | none => ""

def Capture.render (c : Capture) : String := (if c.byRef then "&" else "") ++ "$" ++ c.name

def Printed.argList (args : List (Arg Printed)) : String := parens (commas (args.map Arg.render))

def Printed.paramList (params : List (Param Printed)) : String :=
  parens (commas (params.map Param.render))

/-- A member after `->` or `::`. -/
def Member.render : Member Printed → String
  | .named text => text
  | .computed p => if p.isVar then p.2 else braces p.2

/-- A static property after `::`. -/
def Member.renderStatic : Member Printed → String
  | .named text => "$" ++ text
  | .computed p => if p.isVar then "$" ++ p.2 else "$" ++ braces p.2

/-- A class before `::`, or the callee of a call. -/
def Reference.render : Reference Printed → String
  | .named name => name.source
  | .computed p => p.dereferenced

/-- A class after `new`. -/
def Reference.renderNew : Reference Printed → String
  | .named name => name.source
  | .computed p => if p.isVar then p.2 else parens p.2

/-! ## Forms and trees -/

def Form.render : Form Printed → String
  | .literal value => value.source
  | .var name => "$" ++ name
  | .constant name => name.source
  | .array items => "[" ++ list items ++ "]"
  | .binary op left right => left.operand ++ " " ++ op.symbol ++ " " ++ right.operand
  | .unary op operand => op.symbol ++ operand.signed
  | .assign target value => target.2 ++ " = " ++ value.2
  | .call callee args => callee.render ++ argList args
  | .property object name => object.dereferenced ++ "->" ++ name.render
  | .methodCall object name args => object.dereferenced ++ "->" ++ name.render ++ argList args
  | .staticProperty owner name => owner.render ++ "::" ++ name.renderStatic
  | .staticCall owner name args => owner.render ++ "::" ++ name.render ++ argList args
  | .classConstant owner name => owner.render ++ "::" ++ name.render
  | .construct owner args => "new " ++ owner.renderNew ++ argList args
  | .closure params captures isStatic statements =>
    (if isStatic then "static " else "") ++ "function " ++ paramList params ++
      (if captures.isEmpty then "" else " use " ++ parens (commas (captures.map Capture.render))) ++
      " " ++ body statements
  | .arrow params result => "fn" ++ paramList params ++ " => " ++ result.2
  | .expression expr => expr.2 ++ ";"
  | .ret none => "return;"
  | .ret (some value) => "return " ++ value.2 ++ ";"
  | .echo values => "echo " ++ list values ++ ";"
  | .branch condition yes no =>
    "if " ++ parens condition.2 ++ " " ++ body yes ++
      match no with
      | some no => " else " ++ body no
      | none => ""
  | .loop condition statements => "while " ++ parens condition.2 ++ " " ++ body statements
  | .block statements => body statements
  | .function name params statements =>
    "function " ++ name ++ paramList params ++ "\n" ++ body statements
  | .classDecl name parent members =>
    "class " ++ name ++
      (match parent with
        | some parent => " extends " ++ parent.source
        | none => "") ++
      "\n" ++ body members
  | .method name visibility isStatic params statements =>
    visibility.keyword ++ (if isStatic then " static " else " ") ++ "function " ++ name ++
      paramList params ++ "\n" ++ body statements
  | .propertyDecl name visibility isStatic default =>
    visibility.keyword ++ (if isStatic then " static" else "") ++ " $" ++ name ++
      (match default with
        | some default => " = " ++ default.2
        | none => "") ++
      ";"
  | .constantDecl name visibility value =>
    visibility.keyword ++ " const " ++ name ++ " = " ++ value.2 ++ ";"

/-- The source of a tree. -/
def Tree.source : Tree → String := Tree.recurse fun form _ => form.render

/-- A tree with its source. -/
def Tree.print (t : Tree) : Printed := (t, t.source)

theorem Tree.source_mk (form : Form Tree) (attrs : Attributes) :
    Tree.source ⟨form, attrs⟩ = (form.map Tree.print).render :=
  Tree.recurse_mk _ form attrs

/-- The source of a statement list. -/
def Forest.source (ts : Forest) : String := Printed.statements (ts.map Tree.print)

/-- The source of an argument. -/
def Arg.source (a : Arg Tree) : String := (a.map Tree.print).render

end Graft
