import Graft.Json.Number

/-! # JSON values

A string whose escapes leave a surrogate without its partner is well formed and spells no text; it is
kept as `str none`, so that values nobody reads need not be refused. An object keeps its fields as
written, repeated ones included.
-/

set_option autoImplicit false

namespace Graft

inductive Json where
  | null
  | bool (value : Bool)
  | num (value : Json.Number)
  | str (text : Option String)
  | arr (items : List Json)
  | obj (fields : List (Option String × Json))

namespace Json

/-! ## Building -/

def text (s : String) : Json := .str (some s)

def int (n : Int) : Json := .num (.integer n)

def nat (n : Nat) : Json := .num (.integer n)

/-- An object with the given fields. -/
def object (fields : List (String × Json)) : Json := .obj (fields.map fun (k, v) => (some k, v))

/-! ## Reading -/

/-- The value of a field, the last one where the name is repeated. -/
def lookup (name : String) : List (Option String × Json) → Option Json
  | [] => none
  | (key, value) :: rest =>
    match lookup name rest with
    | some v => some v
    | none => if key = some name then some value else none

/-- The field of an object; other values have none. -/
def field? (name : String) : Json → Option Json
  | .obj fields => lookup name fields
  | _ => none

/-- The named fields of an object, those that are missing included. -/
def fields? (names : List String) : Json → Option (List (Option Json))
  | .obj fields => some (names.map (lookup · fields))
  | _ => none

/-- The named fields of a record, which is an object or an array of exactly these fields. -/
def record? (names : List String) : Json → Option (List (Option Json))
  | .obj fields => some (names.map (lookup · fields))
  | .arr items => if items.length = names.length then some (items.map some) else none
  | _ => none

/-- The tag of an alternative and its content: an object of one field, or a string for a tag that
stands alone. -/
def tagged? : Json → Option (String × Option Json)
  | .str (some tag) => some (tag, none)
  | .obj [(some tag, content)] => some (tag, some content)
  | _ => none

/-- The tag of an alternative that has no content. -/
def bareTag? (j : Json) : Option String :=
  match j.tagged? with
  | some (tag, none) => some tag
  | some (tag, some .null) => some tag
  | _ => none

def text? : Json → Option String
  | .str s => s
  | _ => none

def bool? : Json → Option Bool
  | .bool b => some b
  | _ => none

def list? {α : Type} (item : Json → Option α) : Json → Option (List α)
  | .arr items => items.mapM item
  | _ => none

/-- A value that may be `null`. -/
def nullable? {α : Type} (item : Json → Option α) : Json → Option (Option α)
  | .null => some none
  | j => (item j).map some

/-- A field that may be missing or `null`. -/
def optional? {α : Type} (item : Json → Option α) : Option Json → Option (Option α)
  | none => some none
  | some j => nullable? item j

def int64? : Json → Option Int64
  | .num (.integer v) => if -pow2 63 ≤ v ∧ v < pow2 63 then some (Int64.ofInt v) else none
  | _ => none

def uint64? : Json → Option UInt64
  | .num (.integer v) => if 0 ≤ v ∧ v < pow2 64 then some (UInt64.ofNat v.toNat) else none
  | _ => none

/-! ## Nesting -/

mutual

/-- How deeply arrays and objects are nested in a value. -/
def depth : Json → Nat
  | .arr items => depthItems items + 1
  | .obj fields => depthFields fields + 1
  | _ => 0

def depthItems : List Json → Nat
  | [] => 0
  | item :: rest => max (depth item) (depthItems rest)

def depthFields : List (Option String × Json) → Nat
  | [] => 0
  | (_, value) :: rest => max (depth value) (depthFields rest)

end

end Json

end Graft
