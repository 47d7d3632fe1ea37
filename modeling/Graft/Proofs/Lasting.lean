import Graft.Proofs.Watch

/-! # Lasting properties of passes

A pass changes its state from call to call. A property lasts when the pass has it now and after any
calls of its hooks (`Pass.Always`), so it holds of each pass at every point of a run. What the passes do
on leaving a tree is told one pass at a time (`leaveAll_cons_done`).
-/

set_option autoImplicit false

namespace Graft

/-- The second pass is the first after any number of calls of its hooks. -/
inductive Pass.Becomes : Pass → Pass → Prop
  | refl (p : Pass) : Becomes p p
  | before {p q : Pass} (ts : Forest) (h : Becomes (p.doBefore ts).1 q) : Becomes p q
  | enter {p q : Pass} (t : Tree) (h : Becomes (p.doEnter t).1 q) : Becomes p q
  | leave {p q r : Pass} (t : Tree) (answer : Leaving) (hq : p.doLeave t = some (q, answer))
    (h : Becomes q r) : Becomes p r
  | after {p q : Pass} (ts : Forest) (h : Becomes (p.doAfter ts).1 q) : Becomes p q

/-- Calls of hooks change nothing of a pass but its state. -/
theorem Pass.Becomes.exists_state {p q : Pass} (h : p.Becomes q) :
    ∃ s, q = { p with state := s } := by
  induction h with
  | refl p => exact ⟨p.state, rfl⟩
  | before ts _ ih => exact ih
  | enter t _ ih => exact ih
  | @leave p q r t answer hq _ ih =>
    rw [doLeave] at hq
    split at hq
    · cases hq
      exact ih
    · contradiction
  | after ts _ ih => exact ih

/-- A property that a pass has and keeps, whatever hooks are called. -/
def Pass.Always (holds : Pass → Prop) (p : Pass) : Prop := ∀ q, p.Becomes q → holds q

namespace Pass.Always
variable {holds : Pass → Prop} {p : Pass} (h : p.Always holds)
include h

theorem now : holds p := h p (.refl p)

theorem doBefore (ts : Forest) : (p.doBefore ts).1.Always holds := fun q hq => h q (.before ts hq)

theorem doEnter (t : Tree) : (p.doEnter t).1.Always holds := fun q hq => h q (.enter t hq)

theorem doLeave {q : Pass} {t : Tree} {answer : Leaving} (hq : p.doLeave t = some (q, answer)) :
    q.Always holds := fun r hr => h r (.leave t answer hq hr)

omit h in
theorem of_state (hs : ∀ s, holds { p with state := s }) : p.Always holds := by
  intro q hq
  obtain ⟨s, rfl⟩ := hq.exists_state
  exact hs s

end Pass.Always

/-! ## Before the walk and on entering -/

theorem always_beforeAll {holds : Pass → Prop} (i : Nat) (passes : List Pass) (ts : Forest)
    (h : ∀ p ∈ passes, p.Always holds) : ∀ p ∈ (beforeAll i passes ts).passes, p.Always holds := by
  induction passes generalizing i ts with
  | nil => exact h
  | cons p passes ih =>
    rw [List.forall_mem_cons] at h
    exact List.forall_mem_cons.mpr ⟨h.1.doBefore ts, ih (i + 1) _ h.2⟩

theorem always_enterAll {holds : Pass → Prop} (i : Nat) (passes : List Pass) (t : Tree)
    (h : ∀ p ∈ passes, p.Always holds) : ∀ p ∈ (enterAll i passes t).passes, p.Always holds := by
  induction passes generalizing i t with
  | nil => exact h
  | cons p passes ih =>
    rw [List.forall_mem_cons] at h
    exact List.forall_mem_cons.mpr ⟨h.1.doEnter t, ih (i + 1) _ h.2⟩

/-! ## Leaving -/

def Leaving.replaces : Leaving → Nat
  | replace _ => 1
  | _ => 0

theorem Outcome.of_cons_done {α : Type} {o : Outcome α} {p : Pass} {x y : Account} {a : α}
    {passes : List Pass} (h : o.cons p x = .done a passes y) :
    ∃ rest z, o = .done a rest z ∧ passes = p :: rest ∧ y = x ++ z := by
  cases o with
  | failed why rest z => contradiction
  | done b rest z =>
    cases h
    exact ⟨rest, z, rfl, rfl, rfl⟩

theorem Outcome.of_cons_failed {α : Type} {o : Outcome α} {p : Pass} {x y : Account} {why : Failure}
    {passes : List Pass} (h : o.cons p x = .failed why passes y) :
    ∃ rest z, o = .failed why rest z := by
  cases o with
  | done a rest z => contradiction
  | failed why rest z =>
    cases h
    exact ⟨rest, z, rfl⟩

/-- What leaving does when it succeeds: the first pass removes the tree, or hands on what the others
then leave. -/
theorem leaveAll_cons_done {i : Nat} {p : Pass} {passes left : List Pass} {t : Tree}
    {result : Option Tree} {x : Account} (h : leaveAll i (p :: passes) t = .done result left x) :
    ∃ q answer, p.doLeave t = some (q, answer) ∧
      ((answer = .remove ∧ result = none ∧ left = q :: passes ∧
          x = ⟨{ removed := 1 }, [.leave i t answer]⟩) ∨
        ∃ u rest y, answer.settle t = some u ∧ leaveAll (i + 1) passes u = .done result rest y ∧
          left = q :: rest ∧ x = ⟨{ replaced := answer.replaces }, [.leave i t answer]⟩ ++ y) := by
  rw [leaveAll] at h
  cases hp : p.doLeave t with
  | none =>
    rw [hp] at h
    contradiction
  | some pair =>
    obtain ⟨q, answer⟩ := pair
    rw [hp] at h
    refine ⟨q, answer, rfl, ?_⟩
    cases answer with
    | keep u =>
      obtain ⟨rest, y, hrest, hleft, hx⟩ := Outcome.of_cons_done h
      exact .inr ⟨u, rest, y, rfl, hrest, hleft, hx⟩
    | replace u =>
      obtain ⟨rest, y, hrest, hleft, hx⟩ := Outcome.of_cons_done h
      exact .inr ⟨_, rest, y, rfl, hrest, hleft, hx⟩
    | remove =>
      cases h
      exact .inl ⟨rfl, rfl, rfl, rfl⟩

theorem always_leaveAll {holds : Pass → Prop} {i : Nat} {passes left : List Pass} {t : Tree}
    {result : Option Tree} {x : Account} (h : ∀ p ∈ passes, p.Always holds)
    (hleave : leaveAll i passes t = .done result left x) : ∀ p ∈ left, p.Always holds := by
  induction passes generalizing i t left x with
  | nil =>
    cases hleave
    exact h
  | cons p passes ih =>
    rw [List.forall_mem_cons] at h
    obtain ⟨q, answer, hq, ⟨-, -, rfl, -⟩ | ⟨u, rest, y, -, hrest, rfl, -⟩⟩ :=
      leaveAll_cons_done hleave
    · exact List.forall_mem_cons.mpr ⟨h.1.doLeave hq, h.2⟩
    · exact List.forall_mem_cons.mpr ⟨h.1.doLeave hq, ih h.2 hrest⟩

end Graft
