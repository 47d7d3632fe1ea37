import Graft.Proofs.Refill
import Graft.Proofs.Watch

/-! # Records of visits

A visit that came to its end is recorded as a tree of its own: what was received, what the passes
answered on entering, the visits of the children and what the passes answered on leaving. The calls of
hooks follow from the record (`Visit.journal`), and so does what the visit gives (`Visit.result`).

In a record where every pass had its turn (`Visit.InTurn`) the calls can be counted visit by visit: each
pass enters once, and each leaves once unless a pass before it removed the tree.
-/

set_option autoImplicit false

namespace Graft

/-! ## Answers in turn -/

/-- The calls on entering, from position `i`: each pass receives what the one before it handed on. -/
def enterEvents (i : Nat) (t : Tree) : List Entering → List Event
  | [] => []
  | a :: as => .enter i t a :: enterEvents (i + 1) (a.settle t) as

def leaveEvents (i : Nat) (t : Tree) : List Leaving → List Event
  | [] => []
  | a :: as => .leave i t a :: (a.settle t).elim [] fun u => leaveEvents (i + 1) u as

/-- What stands after the passes left a tree, if none of them removed it. -/
def leftAs (t : Tree) : List Leaving → Option Tree
  | [] => some t
  | a :: as => (a.settle t).bind fun u => leftAs u as

def Leaving.removes : Leaving → Bool
  | remove => true
  | _ => false

/-- The answers of `n` passes on leaving: one each, up to the first that removes the tree. -/
inductive LeaveInTurn : Nat → List Leaving → Prop
  | nil : LeaveInTurn 0 []
  | removed (n : Nat) : LeaveInTurn (n + 1) [.remove]
  | cons {n : Nat} {a : Leaving} {as : List Leaving} (ha : a.removes = false) (h : LeaveInTurn n as) :
    LeaveInTurn (n + 1) (a :: as)

theorem Leaving.settle_of_not_removes {a : Leaving} (h : a.removes = false) (t : Tree) :
    ∃ u, a.settle t = some u := by
  cases a with
  | keep u => exact ⟨u, rfl⟩
  | replace u => exact ⟨u.inherit t.attrs, rfl⟩
  | remove => contradiction

/-! ## Visits -/

/-- A visit that came to its end. -/
structure Visit where
  received : Tree
  entering : List Entering
  children : List Visit
  leaving : List Leaving

namespace Visit

section
variable {β : Type} (step : Visit → List β → β)

mutual

/-- The value of a visit, from the values of the visits of the children. -/
def recurse : Visit → β
  | ⟨received, entering, children, leaving⟩ =>
    step ⟨received, entering, children, leaving⟩ (recurseList children)

def recurseList : List Visit → List β
  | [] => []
  | v :: vs => recurse v :: recurseList vs

end

theorem recurseList_eq (vs : List Visit) : recurseList step vs = vs.map (recurse step) := by
  induction vs with
  | nil => rfl
  | cons v vs ih => rw [recurseList, ih, List.map_cons]

theorem recurse_eq (v : Visit) : recurse step v = step v (v.children.map (recurse step)) := by
  obtain ⟨received, entering, children, leaving⟩ := v
  rw [recurse, recurseList_eq]

end

theorem inductionOn {motive : Visit → Prop} (v : Visit)
    (mk : ∀ v : Visit, (∀ c ∈ v.children, motive c) → motive v) : motive v := by
  refine @Visit.rec motive (fun vs => ∀ c ∈ vs, motive c) ?_ ?_ ?_ v
  · intro received entering children leaving h
    exact mk ⟨received, entering, children, leaving⟩ h
  · exact List.forall_mem_nil _
  · intro v vs hv hvs
    exact List.forall_mem_cons.mpr ⟨hv, hvs⟩

/-- The tree after all passes entered it. -/
def entered (v : Visit) : Tree := v.entering.foldl (fun t a => a.settle t) v.received

/-- Whether some pass skipped the children. -/
def skips (v : Visit) : Bool := v.entering.any Entering.skips

/-- What a visit gives: the tree that was entered, with what the visits of the children give in their
places, as the passes leave it. -/
def result : Visit → Option Tree :=
  recurse fun v results =>
    leftAs (if v.skips then v.entered else ⟨v.entered.form.refill results, v.entered.attrs⟩) v.leaving

/-- The tree that the first pass receives on leaving. -/
def rebuilt (v : Visit) : Tree :=
  if v.skips then v.entered else ⟨v.entered.form.refill (v.children.map result), v.entered.attrs⟩

theorem result_eq (v : Visit) : v.result = leftAs v.rebuilt v.leaving := by
  rw [result, recurse_eq]
  rfl

/-- The calls of hooks in a visit, with those of the visits inside. -/
def journal : Visit → List Event :=
  recurse fun v inside =>
    enterEvents 0 v.received v.entering ++ inside.flatten ++ leaveEvents 0 v.rebuilt v.leaving

theorem journal_eq (v : Visit) :
    v.journal = enterEvents 0 v.received v.entering ++ v.children.flatMap journal ++
      leaveEvents 0 v.rebuilt v.leaving := by
  rw [journal, recurse_eq]
  rfl

/-- The visit and all visits inside. -/
def all : Visit → List Visit := recurse fun v inside => v :: inside.flatten

theorem all_eq (v : Visit) : v.all = v :: v.children.flatMap all := by
  rw [all, recurse_eq]
  rfl

/-- Every pass had its turn in a visit of `n` passes: all of them entered the tree, then the children of
what they made of it were visited in source order, unless a pass skipped them, and then the passes left
it, up to the first that removed it. -/
structure InTurn (n : Nat) (v : Visit) : Prop where
  entering : v.entering.length = n
  children : v.children.map received = if v.skips then [] else v.entered.form.children
  leaving : LeaveInTurn n v.leaving

end Visit

/-! ## Counting calls -/

namespace Event

def enters (j : Nat) : Event → Bool
  | enter i _ _ => i = j
  | _ => false

def leaves (j : Nat) : Event → Bool
  | leave i _ _ => i = j
  | _ => false

def replaces : Event → Bool
  | enter _ _ (.replace _) => true
  | leave _ _ (.replace _) => true
  | _ => false

def removes : Event → Bool
  | leave _ _ .remove => true
  | _ => false

/-- A removal by a pass before position `j`. -/
def removesBefore (j : Nat) (e : Event) : Bool := e.removes && decide (e.pass < j)

end Event

theorem countP_enterEvents_enters (i j : Nat) (t : Tree) (as : List Entering) :
    (enterEvents i t as).countP (Event.enters j) = if i ≤ j ∧ j < i + as.length then 1 else 0 := by
  induction as generalizing i t with
  | nil =>
    have hempty : ¬(i ≤ j ∧ j < i + ([] : List Entering).length) := by
      rw [List.length_nil]
      omega
    rw [if_neg hempty]
    rfl
  | cons a as ih =>
    have hhere : Event.enters j (.enter i t a) = decide (i = j) := rfl
    rw [enterEvents, List.countP_cons, ih, hhere, List.length_cons]
    simp only [decide_eq_true_eq]
    split <;> split <;> split <;> omega

theorem countP_enterEvents_eq_zero {p : Event → Bool} (hp : ∀ i t a, p (.enter i t a) = false)
    (i : Nat) (t : Tree) (as : List Entering) : (enterEvents i t as).countP p = 0 := by
  induction as generalizing i t with
  | nil => rfl
  | cons a as ih => simp [enterEvents, hp, ih]

theorem countP_leaveEvents_eq_zero {p : Event → Bool} {i : Nat}
    (hp : ∀ k t a, i ≤ k → p (.leave k t a) = false) (t : Tree) (as : List Leaving) :
    (leaveEvents i t as).countP p = 0 := by
  induction as generalizing i t with
  | nil => rfl
  | cons a as ih =>
    rw [leaveEvents, List.countP_cons, hp i t a (Nat.le_refl i)]
    cases a.settle t with
    | none => rfl
    | some u => exact ih (fun k t a hk => hp k t a (by omega)) u

/-- Of the passes that have their turn on leaving, each leaves once or finds that one before it removed
the tree. -/
theorem countP_leaveEvents {n : Nat} {as : List Leaving} (h : LeaveInTurn n as) (i j : Nat) (t : Tree)
    (hi : i ≤ j) (hj : j < i + n) :
    (leaveEvents i t as).countP (Event.leaves j) +
      (leaveEvents i t as).countP (Event.removesBefore j) = 1 := by
  induction h generalizing i t with
  | nil => omega
  | removed n =>
    have hleaves : Event.leaves j (.leave i t .remove) = decide (i = j) := rfl
    have hremoves : Event.removesBefore j (.leave i t .remove) = decide (i < j) := rfl
    have hevents : leaveEvents i t [.remove] = [.leave i t .remove] := rfl
    rw [hevents, List.countP_singleton, List.countP_singleton, hleaves, hremoves]
    simp only [decide_eq_true_eq]
    split <;> split <;> omega
  | @cons n a as ha _ ih =>
    obtain ⟨u, hu⟩ := a.settle_of_not_removes ha t
    have hleaves : Event.leaves j (.leave i t a) = decide (i = j) := rfl
    have hremoves : Event.removesBefore j (.leave i t a) = false := by
      cases a <;> first | rfl | contradiction
    rw [leaveEvents, hu, List.countP_cons, List.countP_cons, hleaves, hremoves, Option.elim_some]
    by_cases hij : i = j
    · subst hij
      -- this pass leaves, and those after it have later positions
      have hlater : (leaveEvents (i + 1) u as).countP (Event.leaves i) = 0 := by
        refine countP_leaveEvents_eq_zero (fun k t a hk => ?_) u as
        exact decide_eq_false (by omega)
      have hearlier : (leaveEvents (i + 1) u as).countP (Event.removesBefore i) = 0 := by
        refine countP_leaveEvents_eq_zero (fun k t a hk => ?_) u as
        have hpass : ¬k < i := by omega
        simp [Event.removesBefore, Event.pass, hpass]
      simp [hlater, hearlier]
    · have hrest := ih (i + 1) u (by omega) (by omega)
      simp [hij, hrest]

namespace Visit

/-- The calls of hooks in a visit, without those of the visits inside. -/
def own (v : Visit) : List Event :=
  enterEvents 0 v.received v.entering ++ leaveEvents 0 v.rebuilt v.leaving

theorem flatMap_journal_perm {vs : List Visit}
    (h : ∀ v ∈ vs, v.journal.Perm (v.all.flatMap own)) :
    (vs.flatMap journal).Perm ((vs.flatMap all).flatMap own) := by
  induction vs with
  | nil => exact .nil
  | cons v vs ih =>
    rw [List.forall_mem_cons] at h
    rw [List.flatMap_cons, List.flatMap_cons, List.flatMap_append]
    exact h.1.append (ih h.2)

theorem journal_perm (v : Visit) : v.journal.Perm (v.all.flatMap own) := by
  induction v using inductionOn with
  | mk v ih =>
    rw [journal_eq, all_eq, List.flatMap_cons, own, List.append_assoc, List.append_assoc]
    refine .append_left _ (List.perm_append_comm.trans ?_)
    exact .append_left _ (flatMap_journal_perm ih)

/-- Calls are counted visit by visit. -/
theorem countP_journal (vs : List Visit) (p : Event → Bool) :
    (vs.flatMap journal).countP p =
      ((vs.flatMap all).map fun v => v.own.countP p).foldr (· + ·) 0 := by
  rw [(flatMap_journal_perm fun v _ => v.journal_perm).countP_eq]
  induction vs.flatMap all with
  | nil => rfl
  | cons v vs ih => rw [List.flatMap_cons, List.countP_append, ih, List.map_cons, List.foldr_cons]

namespace InTurn
variable {n j : Nat} {v : Visit} (h : v.InTurn n) (hj : j < n)
include h hj

theorem countP_enters : v.own.countP (Event.enters j) = 1 := by
  have hlength : 0 ≤ j ∧ j < 0 + v.entering.length := by
    rw [h.entering]
    omega
  rw [own, List.countP_append, countP_enterEvents_enters, if_pos hlength,
    countP_leaveEvents_eq_zero (fun _ _ _ _ => rfl)]

theorem countP_leaves :
    v.own.countP (Event.leaves j) + v.own.countP (Event.removesBefore j) = 1 := by
  have hleave := countP_leaveEvents h.leaving 0 j v.rebuilt (Nat.zero_le j) (by omega)
  rw [own, List.countP_append, List.countP_append, countP_enterEvents_eq_zero (fun _ _ _ => rfl),
    countP_enterEvents_eq_zero (fun _ _ _ => rfl)]
  omega

end InTurn

/-- A count that is one in every visit where each pass had its turn counts the visits. -/
theorem count_eq_length {n : Nat} {vs : List Visit} (h : ∀ v ∈ vs, v.InTurn n) {f : Visit → Nat}
    (hf : ∀ v : Visit, v.InTurn n → f v = 1) : (vs.map f).foldr (· + ·) 0 = vs.length := by
  induction vs with
  | nil => rfl
  | cons v vs ih =>
    obtain ⟨hv, hvs⟩ := List.forall_mem_cons.mp h
    rw [List.map_cons, List.foldr_cons, hf v hv, ih hvs, List.length_cons, Nat.add_comm]

theorem countP_enters_journal {n j : Nat} {vs : List Visit} (h : ∀ v ∈ vs.flatMap all, v.InTurn n)
    (hj : j < n) : (vs.flatMap journal).countP (Event.enters j) = (vs.flatMap all).length := by
  rw [countP_journal]
  exact count_eq_length h fun v hv => hv.countP_enters hj

theorem countP_leaves_journal {n j : Nat} {vs : List Visit} (h : ∀ v ∈ vs.flatMap all, v.InTurn n)
    (hj : j < n) :
    (vs.flatMap journal).countP (Event.leaves j) +
      (vs.flatMap journal).countP (Event.removesBefore j) = (vs.flatMap all).length := by
  rw [countP_journal, countP_journal, foldr_map_add]
  exact count_eq_length h fun v hv => hv.countP_leaves hj

/-- What a visit adds to the tally, without the visits inside. -/
def share (v : Visit) : Tally where
  visited := 1
  replaced := v.own.countP Event.replaces
  removed := v.own.countP Event.removes
  skipped := v.skips.toNat

end Visit

/-! ## Tallies of visits -/

/-- An account of visits that came to their end. -/
structure Told (n : Nat) (vs : List Visit) (x : Account) : Prop where
  turns : ∀ v ∈ vs.flatMap Visit.all, v.InTurn n
  journal : x.journal = vs.flatMap Visit.journal
  tally : x.tally = Tally.total ((vs.flatMap Visit.all).map Visit.share)

namespace Told
variable {n : Nat} {vs us : List Visit} {x y : Account}

theorem nil : Told n [] {} := ⟨List.forall_mem_nil _, rfl, rfl⟩

theorem append (hx : Told n vs x) (hy : Told n us y) : Told n (vs ++ us) (x ++ y) where
  turns := by
    rw [List.flatMap_append, List.forall_mem_append]
    exact ⟨hx.turns, hy.turns⟩
  journal := by
    rw [List.flatMap_append, ← hx.journal, ← hy.journal]
    rfl
  tally := by
    rw [List.flatMap_append, List.map_append, Tally.total_append, ← hx.tally, ← hy.tally]
    rfl

theorem visited (h : Told n vs x) : x.tally.visited = (vs.flatMap Visit.all).length := by
  rw [h.tally, Tally.counter_total Tally.visited rfl (fun _ _ => rfl), List.map_map]
  exact Visit.count_eq_length h.turns fun _ _ => rfl

theorem replaced (h : Told n vs x) : x.tally.replaced = x.journal.countP Event.replaces := by
  rw [h.tally, h.journal, Tally.counter_total Tally.replaced rfl (fun _ _ => rfl), List.map_map,
    Visit.countP_journal]
  rfl

theorem removed (h : Told n vs x) : x.tally.removed = x.journal.countP Event.removes := by
  rw [h.tally, h.journal, Tally.counter_total Tally.removed rfl (fun _ _ => rfl), List.map_map,
    Visit.countP_journal]
  rfl

theorem skipped (h : Told n vs x) : x.tally.skipped = (vs.flatMap Visit.all).countP Visit.skips := by
  rw [h.tally, Tally.counter_total Tally.skipped rfl (fun _ _ => rfl), List.map_map]
  induction vs.flatMap Visit.all with
  | nil => rfl
  | cons v vs ih =>
    rw [List.map_cons, List.foldr_cons, ih, List.countP_cons, Nat.add_comm]
    cases hv : v.skips <;> simp [Visit.share, hv]

end Told

end Graft
