import Graft.Json.Basic

/-! # Reading JSON text

The grammar is the strict one: no comments, no trailing commas, no byte order mark, no control
characters inside strings, and nothing but blanks after the value.
-/

set_option autoImplicit false

namespace Graft.Json

def isBlank (c : Char) : Bool := c = ' ' || c = '\n' || c = '\t' || c = '\r'

def skipBlank (cs : List Char) : List Char := cs.dropWhile isBlank

/-! ## Numbers -/

/-- The longest run of digits at the front. -/
def digits (cs : List Char) : List Nat := (cs.takeWhile Char.isDigit).map (·.toNat - 48)

def afterDigits (cs : List Char) : List Char := cs.dropWhile Char.isDigit

/-- The digits before the point: a single zero, or digits that do not start with one. -/
def wholePart? (cs : List Char) : Option (List Nat × List Char) :=
  match digits cs with
  | [] => none
  | 0 :: _ :: _ => none
  | whole => some (whole, afterDigits cs)

/-- The digits after a point, none without a point. -/
def fractionPart? : List Char → Option (List Nat × List Char)
  | '.' :: cs =>
    match digits cs with
    | [] => none
    | fraction => some (fraction, afterDigits cs)
  | cs => some ([], cs)

def exponentDigits? (sign : Int) (cs : List Char) : Option (Option Int × List Char) :=
  match digits cs with
  | [] => none
  | ds => some (some (sign * Number.ofDigits ds), afterDigits cs)

def exponentMark (c : Char) : Bool := c = 'e' || c = 'E'

def exponentPart? : List Char → Option (Option Int × List Char)
  | c :: '+' :: cs => if exponentMark c then exponentDigits? 1 cs else some (none, c :: '+' :: cs)
  | c :: '-' :: cs => if exponentMark c then exponentDigits? (-1) cs else some (none, c :: '-' :: cs)
  | c :: cs => if exponentMark c then exponentDigits? 1 cs else some (none, c :: cs)
  | [] => some (none, [])

def unsigned? (negative : Bool) (cs : List Char) : Option (Number × List Char) := do
  let (whole, cs) ← wholePart? cs
  let (fraction, cs) ← fractionPart? cs
  let (exponent, cs) ← exponentPart? cs
  match fraction, exponent with
  | [], none => some (.ofWhole negative whole, cs)
  | _, _ => some (.ofDecimal negative whole fraction (exponent.getD 0), cs)

def number? : List Char → Option (Number × List Char)
  | '-' :: cs => unsigned? true cs
  | cs => unsigned? false cs

/-! ## Strings -/

def hexValue? (c : Char) : Option Nat :=
  if '0' ≤ c ∧ c ≤ '9' then some (c.toNat - 48)
  else if 'a' ≤ c ∧ c ≤ 'f' then some (c.toNat - 87)
  else if 'A' ≤ c ∧ c ≤ 'F' then some (c.toNat - 55)
  else none

def escaped? : Char → Option Nat
  | '"' => some 0x22
  | '\\' => some 0x5C
  | '/' => some 0x2F
  | 'b' => some 0x08
  | 'f' => some 0x0C
  | 'n' => some 0x0A
  | 'r' => some 0x0D
  | 't' => some 0x09
  | _ => none

/-- The code points of a string up to its closing quote; an escape may give half of a surrogate
pair. -/
def points? : List Char → Option (List Nat × List Char)
  | [] => none
  | '"' :: rest => some ([], rest)
  | '\\' :: 'u' :: a :: b :: c :: d :: rest => do
    let point := (← hexValue? a) * 4096 + (← hexValue? b) * 256 + (← hexValue? c) * 16 + (← hexValue? d)
    let (points, rest) ← points? rest
    some (point :: points, rest)
  | '\\' :: c :: rest => do
    let point ← escaped? c
    let (points, rest) ← points? rest
    some (point :: points, rest)
  | c :: rest =>
    if c.toNat < 32 || c = '\\' then none
    else do
      let (points, rest) ← points? rest
      some (c.toNat :: points, rest)

def isHighSurrogate (n : Nat) : Bool := 0xD800 ≤ n && n < 0xDC00

def isLowSurrogate (n : Nat) : Bool := 0xDC00 ≤ n && n < 0xE000

/-- Joins surrogate pairs; a surrogate without its partner spells no text. -/
def spell? : List Nat → Option (List Char)
  | [] => some []
  | [p] => if isHighSurrogate p || isLowSurrogate p then none else some [Char.ofNat p]
  | p :: q :: rest =>
    if isHighSurrogate p && isLowSurrogate q then
      (spell? rest).map (Char.ofNat (0x10000 + (p - 0xD800) * 1024 + (q - 0xDC00)) :: ·)
    else if isHighSurrogate p || isLowSurrogate p then none
    else (spell? (q :: rest)).map (Char.ofNat p :: ·)

/-- A string after its opening quote. -/
def string? (cs : List Char) : Option (Option String × List Char) := do
  let (points, rest) ← points? cs
  some ((spell? points).map String.ofList, rest)

/-! ## Values -/

mutual

/-- A value at the front of the text; the bound falls with every step. -/
def value? : Nat → List Char → Option (Json × List Char)
  | 0, _ => none
  | n + 1, cs =>
    match skipBlank cs with
    | 'n' :: 'u' :: 'l' :: 'l' :: rest => some (.null, rest)
    | 't' :: 'r' :: 'u' :: 'e' :: rest => some (.bool true, rest)
    | 'f' :: 'a' :: 'l' :: 's' :: 'e' :: rest => some (.bool false, rest)
    | '"' :: rest => do
      let (s, rest) ← string? rest
      some (.str s, rest)
    | '[' :: rest =>
      match skipBlank rest with
      | ']' :: rest => some (.arr [], rest)
      | rest => do
        let (items, rest) ← items? n rest
        some (.arr items, rest)
    | '\x7b' :: rest =>
      match skipBlank rest with
      | '\x7d' :: rest => some (.obj [], rest)
      | rest => do
        let (fields, rest) ← members? n rest
        some (.obj fields, rest)
    | rest => do
      let (v, rest) ← number? rest
      some (.num v, rest)

/-- The values of an array up to its closing bracket. -/
def items? : Nat → List Char → Option (List Json × List Char)
  | 0, _ => none
  | n + 1, cs => do
    let (item, rest) ← value? n cs
    match skipBlank rest with
    | ',' :: rest =>
      let (items, rest) ← items? n rest
      some (item :: items, rest)
    | ']' :: rest => some ([item], rest)
    | _ => none

/-- The fields of an object up to its closing brace. -/
def members? : Nat → List Char → Option (List (Option String × Json) × List Char)
  | 0, _ => none
  | n + 1, cs =>
    match skipBlank cs with
    | '"' :: rest => do
      let (key, rest) ← string? rest
      match skipBlank rest with
      | ':' :: rest =>
        let (value, rest) ← value? n rest
        match skipBlank rest with
        | ',' :: rest =>
          let (fields, rest) ← members? n rest
          some ((key, value) :: fields, rest)
        | '\x7d' :: rest => some ([(key, value)], rest)
        | _ => none
      | _ => none
    | _ => none

end

/-- Reads a text that holds one value. Every second step takes a character, which bounds the
nesting. -/
def parse? (text : String) : Option Json := do
  let cs := text.toList
  let (value, rest) ← value? (2 * cs.length + 2) cs
  if (skipBlank rest).isEmpty then some value else none

end Graft.Json
