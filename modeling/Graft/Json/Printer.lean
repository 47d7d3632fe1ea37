import Graft.Json.Basic
import Graft.Number.Decimal

/-! # Writing JSON text

Compact text. A real number is written with the fewest digits that identify it and always has an
exponent, so that it never reads as an integer.
-/

set_option autoImplicit false

namespace Graft.Json

/-- A finite number as digits times a power of ten. -/
def renderReal (x : Binary64) : String :=
  let (digits, exponent) := if x.mantissa = 0 then (0, 0) else Decimal.shortest x
  (if x.negative then "-" else "") ++ toString digits ++ "e" ++ toString exponent

/-- A number that has no value is written as one that is too large. -/
def Number.render : Number → String
  | .integer v => toString v
  | .real (some x) => renderReal x
  | .real none => "1e309"

/-- A character inside a string; control characters are written by number. -/
def renderChar (c : Char) : List Char :=
  if c = '"' then ['\\', '"']
  else if c = '\\' then ['\\', '\\']
  else if c.toNat < 32 then
    ['\\', 'u', '0', '0', Binary64.hexDigit (c.toNat / 16), Binary64.hexDigit (c.toNat % 16)]
  else [c]

def renderText (s : String) : String := "\"" ++ String.ofList (s.toList.flatMap renderChar) ++ "\""

/-- A string that spells no text is written as a lone surrogate. -/
def renderString : Option String → String
  | some s => renderText s
  | none => "\"\\ud800\""

mutual

def render : Json → String
  | .null => "null"
  | .bool b => if b then "true" else "false"
  | .num n => n.render
  | .str s => renderString s
  | .arr items => "[" ++ ",".intercalate (renderItems items) ++ "]"
  | .obj fields => "\x7b" ++ ",".intercalate (renderFields fields) ++ "\x7d"

def renderItems : List Json → List String
  | [] => []
  | item :: rest => render item :: renderItems rest

def renderFields : List (Option String × Json) → List String
  | [] => []
  | (key, value) :: rest => (renderString key ++ ":" ++ render value) :: renderFields rest

end

end Graft.Json
