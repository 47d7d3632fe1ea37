/-! # Operators and visibilities

Each alternative has a label, by which it is known in data, and a spelling in source.
-/

set_option autoImplicit false

namespace Graft

/-! ## Binary operators -/

inductive BinaryOp where
  | add | sub | mul | div | mod | concat
  | equal | notEqual | identical | notIdentical
  | less | lessEqual | greater | greaterEqual
  | and | or | coalesce
deriving DecidableEq, Repr

namespace BinaryOp

def all : List BinaryOp :=
  [add, sub, mul, div, mod, concat, equal, notEqual, identical, notIdentical, less, lessEqual,
    greater, greaterEqual, and, or, coalesce]

def label : BinaryOp → String
  | add => "Add"
  | sub => "Sub"
  | mul => "Mul"
  | div => "Div"
  | mod => "Mod"
  | concat => "Concat"
  | equal => "Equal"
  | notEqual => "NotEqual"
  | identical => "Identical"
  | notIdentical => "NotIdentical"
  | less => "Less"
  | lessEqual => "LessEqual"
  | greater => "Greater"
  | greaterEqual => "GreaterEqual"
  | and => "And"
  | or => "Or"
  | coalesce => "Coalesce"

def ofLabel? (label : String) : Option BinaryOp := all.find? (·.label = label)

def symbol : BinaryOp → String
  | add => "+"
  | sub => "-"
  | mul => "*"
  | div => "/"
  | mod => "%"
  | concat => "."
  | equal => "=="
  | notEqual => "!="
  | identical => "==="
  | notIdentical => "!=="
  | less => "<"
  | lessEqual => "<="
  | greater => ">"
  | greaterEqual => ">="
  | and => "&&"
  | or => "||"
  | coalesce => "??"

theorem ofLabel?_label (op : BinaryOp) : ofLabel? op.label = some op := by
  cases op <;> decide

end BinaryOp

/-! ## Unary operators -/

inductive UnaryOp where
  | not | minus | plus
deriving DecidableEq, Repr

namespace UnaryOp

def all : List UnaryOp := [not, minus, plus]

def label : UnaryOp → String
  | not => "Not"
  | minus => "Minus"
  | plus => "Plus"

def ofLabel? (label : String) : Option UnaryOp := all.find? (·.label = label)

def symbol : UnaryOp → String
  | not => "!"
  | minus => "-"
  | plus => "+"

theorem ofLabel?_label (op : UnaryOp) : ofLabel? op.label = some op := by
  cases op <;> decide

end UnaryOp

/-! ## Visibilities -/

inductive Visibility where
  | pub | prot | priv
deriving DecidableEq, Repr

namespace Visibility

def all : List Visibility := [pub, prot, priv]

def label : Visibility → String
  | pub => "Public"
  | prot => "Protected"
  | priv => "Private"

def ofLabel? (label : String) : Option Visibility := all.find? (·.label = label)

def keyword : Visibility → String
  | pub => "public"
  | prot => "protected"
  | priv => "private"

theorem ofLabel?_label (v : Visibility) : ofLabel? v.label = some v := by
  cases v <;> decide

end Visibility

end Graft
