import Graft.Pass.Basic
import Graft.RuntimeCall
import Graft.Settings

/-! # Bypass

The bypass pass turns every access to a member, a static member or a class constant, every assignment
to a property and, if so set, every construction into a call on the bypass class. Access to the runtime
classes themselves stays as written, so the pass never takes up its own calls or those of the timing
pass.
-/

set_option autoImplicit false

namespace Graft

/-! ## Kinds of access -/

inductive Access where
  | fetchProperty | assignProperty | callMethod
  | fetchStaticProperty | assignStaticProperty | callStatic
  | fetchClassConstant | construct
deriving DecidableEq, Repr

namespace Access

/-- The method of the bypass class that performs the access. -/
def method : Access → String
  | fetchProperty => "fetchProperty"
  | assignProperty => "assignProperty"
  | callMethod => "callMethod"
  | fetchStaticProperty => "fetchStaticProperty"
  | assignStaticProperty => "assignStaticProperty"
  | callStatic => "callStatic"
  | fetchClassConstant => "fetchClassConst"
  | construct => "newInstance"

/-- The access that a form makes, if any. -/
def ofForm? : Form Tree → Option Access
  | .property _ _ => some fetchProperty
  | .methodCall _ _ _ => some callMethod
  | .staticProperty _ _ => some fetchStaticProperty
  | .staticCall _ _ _ => some callStatic
  | .classConstant _ _ => some fetchClassConstant
  | .construct _ _ => some construct
  | .assign target _ =>
    match target.form with
    | .property _ _ => some assignProperty
    | .staticProperty _ _ => some assignStaticProperty
    | _ => none
  | _ => none

/-- The arguments of the call that performs the access of a form: where, which member, and with
what. -/
def arguments : Form Tree → List (Arg Tree)
  | .property object name => [.plain object, .plain name.argument]
  | .methodCall object name args => .plain object :: .plain name.argument :: args
  | .staticProperty owner name => [.plain owner.argument, .plain name.argument]
  | .staticCall owner name args => .plain owner.argument :: .plain name.argument :: args
  | .classConstant owner name => [.plain owner.argument, .plain name.argument]
  | .construct owner args => .plain owner.argument :: args
  | .assign target value =>
    match target.form with
    | .property object name => [.plain object, .plain name.argument, .plain value]
    | .staticProperty owner name => [.plain owner.argument, .plain name.argument, .plain value]
    | _ => []
  | _ => []

end Access

/-! ## The pass -/

structure Bypass where
  target : Name
  /-- The classes whose members are left as written. -/
  runtime : List Name
  redirectConstruction : Bool

namespace Bypass

def ofSettings (s : Settings) : Bypass where
  target := s.bypassName
  runtime := [s.timerName, s.bypassName, s.noValueName]
  redirectConstruction := s.redirectConstruction

/-- Whether a kind of access is redirected at all. -/
def covers (b : Bypass) (access : Access) : Bool :=
  access != .construct || b.redirectConstruction

/-- Whether a reference names a runtime class; the leading backslash makes no difference. -/
def isRuntime (b : Bypass) : Reference Tree → Bool
  | .named name => b.runtime.any (·.parts = name.parts)
  | .computed _ => false

/-- The class that a static access, a static assignment or a construction is on. -/
def owner? : Form Tree → Option (Reference Tree)
  | .staticProperty owner _ | .staticCall owner _ _ | .classConstant owner _ => some owner
  | .construct owner _ => some owner
  | .assign target _ =>
    match target.form with
    | .staticProperty owner _ => some owner
    | _ => none
  | _ => none

/-- Whether a form is an access to a runtime class. -/
def touchesRuntime (b : Bypass) (form : Form Tree) : Bool := (owner? form).any b.isRuntime

/-- The access that a tree makes and this pass redirects, if any. -/
def access? (b : Bypass) (t : Tree) : Option Access :=
  (Access.ofForm? t.form).filter fun access => b.covers access && !b.touchesRuntime t.form

/-- The call in place of a tree that makes an access. -/
def redirect (b : Bypass) (access : Access) (t : Tree) : Tree :=
  ((RuntimeCall.bare b.target access.method).passAll (Access.arguments t.form)).tree t.attrs

def enter (b : Bypass) (t : Tree) : Bypass × Entering :=
  match b.access? t with
  | some access => (b, .replace (b.redirect access t))
  | none => (b, .keep t)

/-- The bypass pass. -/
def pass (b : Bypass) : Pass where
  State := Bypass
  name := "bypass"
  state := b
  enter := enter

end Bypass

end Graft
