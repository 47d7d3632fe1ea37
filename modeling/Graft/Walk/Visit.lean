import Graft.Tree.Slot
import Graft.Walk.Journal

/-! # Walks

A walk visits trees depth first. A visit lets every pass in turn enter the tree, walks the children
of what they made of it, and lets every pass in turn leave the result. What a pass hands back is what
the next one sees. A replacement without attributes takes those of the tree it replaces. The first
pass that removes the tree ends the visit.

The passes may put any tree in place of another, so a walk need not end by itself; it carries a bound
on the nesting of visits.
-/

set_option autoImplicit false

namespace Graft

/-! ## Failures -/

/-- Why a walk stops early. -/
inductive Failure where
  /-- A pass removed a child from a required slot. -/
  | lostChild (parent : Kind) (slot : Slot)
  /-- A pass was told to leave a tree that it never entered. -/
  | neverEntered (kind : Kind)
  /-- The visits are nested deeper than the bound. -/
  | tooDeep
deriving DecidableEq, Repr

def Failure.message : Failure → String
  | lostChild parent slot => "Cannot remove required child '" ++ slot.label ++ "' of " ++ parent.label
  | neverEntered kind => "left a " ++ kind.label ++ " node that was never entered"
  | tooDeep => "visits nested too deeply"

/-! ## Walkers -/

/-- What a part of a walk gives. The passes go on in either case. -/
inductive Outcome (α : Type) where
  | done (value : α) (passes : List Pass) (account : Account)
  | failed (why : Failure) (passes : List Pass) (account : Account)

/-- An outcome with what was done before it. -/
def Outcome.after {α : Type} (earlier : Account) : Outcome α → Outcome α
  | .done value passes account => .done value passes (earlier ++ account)
  | .failed why passes account => .failed why passes (earlier ++ account)

/-- An outcome of the later passes, with an earlier pass and what was done before it. -/
def Outcome.cons {α : Type} (p : Pass) (earlier : Account) : Outcome α → Outcome α
  | .done value passes account => .done value (p :: passes) (earlier ++ account)
  | .failed why passes account => .failed why (p :: passes) (earlier ++ account)

/-- A part of a walk. -/
def WalkM (α : Type) := List Pass → Outcome α

namespace WalkM

instance : Monad WalkM where
  pure a passes := .done a passes {}
  bind w f passes :=
    match w passes with
    | .done a passes account => (f a passes).after account
    | .failed why passes account => .failed why passes account

def fail {α : Type} (why : Failure) : WalkM α := fun passes => .failed why passes {}

end WalkM

/-! ## Entering -/

/-- The tree that stands after a pass entered `t`. -/
def Entering.settle (t : Tree) : Entering → Tree
  | keep u => u
  | replace u => u.inherit t.attrs
  | skip u => u

def Entering.replaces : Entering → Nat
  | replace _ => 1
  | _ => 0

def Entering.skips : Entering → Bool
  | skip _ => true
  | _ => false

/-- What entering a tree gives. -/
structure Entered where
  tree : Tree
  /-- Whether some pass skips the children. -/
  skip : Bool
  replaced : Nat
  passes : List Pass
  events : List Event

/-- Every pass enters the tree, counted from position `i`. -/
def enterAll (i : Nat) : List Pass → Tree → Entered
  | [], t => ⟨t, false, 0, [], []⟩
  | p :: rest, t =>
    let (p, answer) := p.doEnter t
    let e := enterAll (i + 1) rest (answer.settle t)
    ⟨e.tree, answer.skips || e.skip, answer.replaces + e.replaced, p :: e.passes,
      .enter i t answer :: e.events⟩

/-- Enters a tree; the result says whether its children are skipped. -/
def WalkM.enter (t : Tree) : WalkM (Tree × Bool) := fun passes =>
  let e := enterAll 0 passes t
  .done (e.tree, e.skip) e.passes
    ⟨{ visited := 1, replaced := e.replaced, skipped := e.skip.toNat }, e.events⟩

/-! ## Leaving -/

/-- Every pass leaves the tree, counted from position `i`, until one removes it. -/
def leaveAll (i : Nat) : List Pass → Tree → Outcome (Option Tree)
  | [], t => .done (some t) [] {}
  | p :: rest, t =>
    match p.doLeave t with
    | none => .failed (.neverEntered t.kind) (p :: rest) {}
    | some (p, .keep u) => (leaveAll (i + 1) rest u).cons p ⟨{}, [.leave i t (.keep u)]⟩
    | some (p, .replace u) =>
      (leaveAll (i + 1) rest (u.inherit t.attrs)).cons p
        ⟨{ replaced := 1 }, [.leave i t (.replace u)]⟩
    | some (p, .remove) => .done none (p :: rest) ⟨{ removed := 1 }, [.leave i t .remove]⟩

/-- Leaves a tree; nothing is left when a pass removed it. -/
def WalkM.leave (t : Tree) : WalkM (Option Tree) := fun passes => leaveAll 0 passes t

/-! ## Visiting -/

/-- The child that stands in a required slot after a visit. -/
def WalkM.require (parent : Kind) (slot : Slot) : Option Tree → WalkM Tree
  | some t => pure t
  | none => WalkM.fail (.lostChild parent slot)

/-- Walks the children of a tree. -/
def WalkM.children (visit : Tree → WalkM (Option Tree)) (t : Tree) : WalkM Tree := do
  let form ← t.form.rebuild (fun slot c => do
    let c ← visit c
    WalkM.require t.kind slot c) visit
  pure ⟨form, t.attrs⟩

/-- Enters a tree, walks its children and leaves it, with visits nested at most `limit` deep. -/
def visit : (limit : Nat) → Tree → WalkM (Option Tree)
  | 0, _ => WalkM.fail .tooDeep
  | limit + 1, t => do
    let (t, skip) ← WalkM.enter t
    let t ← if skip then pure t else WalkM.children (visit limit) t
    WalkM.leave t

/-- Walks a forest. -/
def walk (limit : Nat) (ts : Forest) : WalkM Forest := collect (visit limit) ts

end Graft
