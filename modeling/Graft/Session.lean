import Graft.Pass.Bypass
import Graft.Pass.Timing
import Graft.Tree.Source
import Graft.Walk.Runner

/-! # Sessions

A session takes fragments of code one after another, parses each, runs its passes over it and
generates text from the result. The parser and the generator come from outside. Interactive input
often leaves off the last semicolon, so a fragment that ends too early is parsed once more with one
appended.
-/

set_option autoImplicit false

namespace Graft

/-! ## Errors -/

/-- Why a parser refuses a fragment. -/
inductive ParseFailure where
  /-- The fragment ends too early; a context replaces the usual wording. -/
  | endsEarly (context : Option String)
  | malformed (message : String) (line : Option Nat)
  | other (message : String)
deriving DecidableEq, Repr

namespace ParseFailure

def message : ParseFailure → String
  | endsEarly none => "Syntax error, unexpected EOF"
  | endsEarly (some context) => context
  | malformed message none => "Syntax error: " ++ message
  | malformed message (some line) => "Syntax error: " ++ message ++ " on line " ++ toString line
  | other message => message

/-- Whether a semicolon might mend the fragment. -/
def invitesRetry : ParseFailure → Bool
  | endsEarly _ => true
  | _ => false

end ParseFailure

/-- A parser answers each text in the same way whenever it is asked. -/
abbrev Parser := String → Except ParseFailure Forest

inductive Session.Error where
  | parse (failure : ParseFailure)
  | walk (failure : Failure)
deriving DecidableEq, Repr

def Session.Error.message : Session.Error → String
  | parse failure => "Could not parse code for instrumentation: " ++ failure.message
  | walk failure => "Traversal error: " ++ failure.message

/-! ## Sessions -/

structure Session where
  parser : Parser
  generator : Forest → String
  runner : Runner

namespace Session

/-- A session that times fragments. -/
def timing (parser : Parser) (s : Settings) : Session :=
  ⟨parser, Forest.source, { passes := [(Timing.ofSettings s).pass] }⟩

/-- A session that routes member access through the bypass class. -/
def bypass (parser : Parser) (s : Settings) : Session :=
  ⟨parser, Forest.source, { passes := [(Bypass.ofSettings s).pass] }⟩

/-- A generator that says how many statements there are and of which kinds. -/
def outline (ts : Forest) : String :=
  toString ts.length ++ " statements: " ++ ",".intercalate (ts.map (·.kind.label))

/-- The answer of the parser, with the texts it was asked for, in order. -/
def parse (parser : Parser) (code : String) : List String × Except ParseFailure Forest :=
  match parser code with
  | .ok ts => ([code], .ok ts)
  | .error failure =>
    if failure.invitesRetry then ([code, code ++ ";"], parser (code ++ ";"))
    else ([code], .error failure)

/-- What submitting a fragment gives. -/
structure Reply where
  result : Except Error String
  /-- The texts that the parser was asked for, in order. -/
  asked : List String

/-- Runs the passes over a forest and generates text from the result. -/
def submitTrees (s : Session) (ts : Forest) : Session × Except Error String :=
  let (runner, outcome) := s.runner.run ts
  ({ s with runner := runner },
    match outcome.result with
    | .ok (us, _) => .ok (s.generator us)
    | .error failure => .error (.walk failure))

/-- Parses a fragment, runs the passes over it and generates text from the result. -/
def submit (s : Session) (code : String) : Session × Reply :=
  let (asked, answer) := parse s.parser code
  match answer with
  | .error failure => (s, ⟨.error (.parse failure), asked⟩)
  | .ok ts =>
    let (s, result) := s.submitTrees ts
    (s, ⟨result, asked⟩)

end Session

end Graft
