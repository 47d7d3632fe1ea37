import Graft.Pass.Bypass
import Graft.Pass.Script
import Graft.Pass.Timing
import Graft.Walk.Journal

/-! # The catalog of passes

The passes that come with the library, as data from which they are made.
-/

set_option autoImplicit false

namespace Graft

inductive PassSpec where
  | timing (settings : Settings)
  | bypass (settings : Settings)
  | idle
  | script (script : Script)

namespace PassSpec

def pass : PassSpec → Pass
  | timing s => (Timing.ofSettings s).pass
  | bypass s => (Bypass.ofSettings s).pass
  | idle => Pass.idle
  | script s => s.pass

/-- The label under which the calls of the hooks are reported, if they are. -/
def reportLabel? : PassSpec → Option String
  | script s => if s.reports then some s.label else none
  | _ => none

/-- The reported events of a journal, each with the label of its pass. -/
def report (specs : List PassSpec) (journal : List Event) : List String :=
  journal.filterMap fun e =>
    (specs[e.pass]?.bind reportLabel?).map fun label => label ++ " " ++ e.text

end PassSpec

end Graft
