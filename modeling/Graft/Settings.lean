import Graft.Json.Parser
import Graft.Name

/-! # Settings

The classes that instrumented code calls, and whether constructions are redirected. Settings are read
from data field by field, missing fields keeping their defaults, and are valid when the three class
names are.
-/

set_option autoImplicit false

namespace Graft

structure Settings where
  timer : String := "Instrument\\Timer"
  bypass : String := "Instrument\\Bypass"
  noValue : String := "Instrument\\NoReturnValue"
  redirectConstruction : Bool := true
deriving DecidableEq, Repr

namespace Settings

/-! ## Names -/

def timerName (s : Settings) : Name := .readQualified s.timer

def bypassName (s : Settings) : Name := .readQualified s.bypass

def noValueName (s : Settings) : Name := .readQualified s.noValue

/-! ## Errors -/

inductive Error where
  /-- The text is not JSON, or not of the shape of settings. -/
  | malformed
  | badName (field value : String)
deriving DecidableEq, Repr

def Error.message : Error → String
  | malformed => "Configuration error: invalid configuration"
  | badName field value =>
    "Configuration error: " ++ field ++ " is not a valid class name: '" ++ value ++ "'"

/-! ## Validity -/

/-- The fields that hold class names, in the order in which they are checked. -/
def classFields (s : Settings) : List (String × String) :=
  [("timer_class", s.timer), ("bypass_class", s.bypass), ("no_return_value_class", s.noValue)]

/-- The first class field whose value is no valid name is an error. -/
def check (s : Settings) : Except Error Unit :=
  match s.classFields.find? fun (_, value) => !(Name.read value).isValid with
  | some (field, value) => .error (.badName field value)
  | none => .ok ()

/-! ## Reading -/

def fieldNames : List String :=
  ["timer_class", "bypass_class", "no_return_value_class", "rewrite_construction"]

/-- A field that may be missing; `null` is no value. -/
def field? {α : Type} (default : α) (item : Json → Option α) : Option Json → Option α
  | none => some default
  | some j => item j

/-- Settings from their four fields. -/
def ofFields? : List (Option Json) → Option Settings
  | [timer, bypass, noValue, redirectConstruction] => do
    let defaults : Settings := {}
    some {
      timer := ← field? defaults.timer Json.text? timer
      bypass := ← field? defaults.bypass Json.text? bypass
      noValue := ← field? defaults.noValue Json.text? noValue
      redirectConstruction := ← field? defaults.redirectConstruction Json.bool? redirectConstruction }
  | _ => none

/-- Settings from an object, or from an array of the fields in order that may end early. -/
def ofJson? : Json → Option Settings
  | .obj fields => ofFields? (fieldNames.map (Json.lookup · fields))
  | .arr items => ofFields? (items.map some ++ List.replicate (4 - items.length) none)
  | _ => none

/-- Every key spells a text, and no field of the settings is given twice. -/
def distinctFields : List (Option String × Json) → Bool
  | [] => true
  | (none, _) :: _ => false
  | (some key, _) :: rest =>
    !(fieldNames.contains key && rest.any (·.1 = some key)) && distinctFields rest

/-- Settings from a JSON text, not validated. -/
def parse? (text : String) : Option Settings := do
  let j ← Json.parse? text
  match j with
  | .obj fields => if distinctFields fields then ofJson? j else none
  | _ => ofJson? j

/-- Reads settings from a JSON text and validates them. -/
def read (text : String) : Except Error Settings :=
  match parse? text with
  | none => .error .malformed
  | some s => s.check.map fun _ => s

end Settings

end Graft
