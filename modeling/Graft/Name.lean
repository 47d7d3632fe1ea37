import Graft.Text.Alphabetic
import Graft.Text.Numeric

/-! # Names

A name is a sequence of segments, written with backslashes between them; a leading backslash makes
it fully qualified. Reading never fails: every leading backslash is dropped, and what is left is cut
at each backslash, so a name read from a text has at least one segment, which may be empty. `Valid`
picks out the names whose segments are identifiers.
-/

set_option autoImplicit false

namespace Graft

structure Name where
  parts : List String
  qualified : Bool
deriving DecidableEq, Repr

namespace Name

/-! ## Reading -/

/-- The segments of a text, cut at each backslash. -/
def segments : List Char → List (List Char)
  | [] => [[]]
  | c :: rest =>
    if c = '\\' then [] :: segments rest
    else
      match segments rest with
      | [] => [[c]]
      | part :: parts => (c :: part) :: parts

/-- Reads a name. -/
def read (text : String) : Name where
  parts := (segments (text.toList.dropWhile (· = '\\'))).map String.ofList
  qualified := text.toList.head? = some '\\'

/-- The same name, fully qualified. -/
def qualify (n : Name) : Name := { n with qualified := true }

/-- Reads a name as a fully qualified one. -/
def readQualified (text : String) : Name := (read text).qualify

/-! ## Writing -/

/-- The name without a leading backslash. -/
def text (n : Name) : String := "\\".intercalate n.parts

/-- The name as it stands in source. -/
def source (n : Name) : String := if n.qualified then "\\" ++ n.text else n.text

/-! ## Identifiers -/

def startsIdentifier (c : Char) : Bool := Text.isAlphabetic c || c = '_'

def continuesIdentifier (c : Char) : Bool := Text.isAlphabetic c || Text.isNumeric c || c = '_'

def isIdentifier : List Char → Bool
  | [] => false
  | c :: rest => startsIdentifier c && rest.all continuesIdentifier

/-- A name of at least one segment, each an identifier. -/
def isValid (n : Name) : Bool := !n.parts.isEmpty && n.parts.all fun part => isIdentifier part.toList

end Name

end Graft
