/-! # Single-quoted literals

Between single quotes a quote and a backslash are each written after a backslash, and every other
character stands for itself.
-/

set_option autoImplicit false

namespace Graft.Text

/-- The text between the quotes. -/
def escape : List Char → List Char
  | [] => []
  | '\'' :: rest => '\\' :: '\'' :: escape rest
  | '\\' :: rest => '\\' :: '\\' :: escape rest
  | c :: rest => c :: escape rest

/-- A text as a single-quoted literal. -/
def quote (text : String) : String := "'" ++ String.ofList (escape text.toList) ++ "'"

end Graft.Text
