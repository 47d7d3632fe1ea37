/-! # Lines and indentation

A line ends at a line feed, and one carriage return right before that line feed belongs to the line
end. A text that ends in a line feed has no further, empty line; a carriage return elsewhere is an
ordinary character.
-/

set_option autoImplicit false

namespace Graft.Text

/-! ## Lines -/

/-- The lines of a text, without their ends. -/
def splitLines : List Char → List (List Char)
  | [] => []
  | '\n' :: rest => [] :: splitLines rest
  | '\r' :: '\n' :: rest => [] :: splitLines rest
  | c :: rest =>
    match splitLines rest with
    | [] => [[c]]
    | line :: lines => (c :: line) :: lines

/-- The lines of a text as texts. -/
def lines (text : String) : List String := (splitLines text.toList).map String.ofList

/-! ## Indentation -/

/-- A line one level deeper; an empty line stays empty. -/
def indentLine (line : String) : String := if line.isEmpty then "" else "    " ++ line

/-- A text with each of its lines one level deeper. -/
def indent (text : String) : String := "\n".intercalate ((lines text).map indentLine)

end Graft.Text
