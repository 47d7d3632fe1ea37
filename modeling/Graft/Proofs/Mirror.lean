import Mathlib.Data.List.Forall2
import Graft.Proofs.Lasting
import Graft.Proofs.Refill

/-! # Passes that answer alike

Two passes answer alike when they give the same answer to every hook of a walk and go on doing so,
whatever their states are (`Pass.Alike`). A walk cannot tell such passes apart: it gives the same value
or fails in the same way, with the same account (`mirrored_walk`), so runs whose passes answer alike
once the forest was handed to them have the same result (`runWithin_result_eq`).

A run changes nothing of a pass but by calls of its hooks, also when it fails midway
(`becomes_runWithin`).
-/

set_option autoImplicit false

namespace Graft

/-! ## Alike passes -/

/-- A relation that holds between passes only if they answer the hooks of a walk in the same way and
it holds between them afterwards. -/
structure Mirrors (S : Pass → Pass → Prop) : Prop where
  enter : ∀ {p q}, S p q → ∀ t, (p.doEnter t).2 = (q.doEnter t).2 ∧ S (p.doEnter t).1 (q.doEnter t).1
  leave : ∀ {p q}, S p q → ∀ t, p.doLeave t = none ∧ q.doLeave t = none ∨
    ∃ p' q' answer, p.doLeave t = some (p', answer) ∧ q.doLeave t = some (q', answer) ∧ S p' q'
  after : ∀ {p q}, S p q → ∀ ts, (p.doAfter ts).2 = (q.doAfter ts).2

def Pass.Alike (p q : Pass) : Prop := ∃ S, Mirrors S ∧ S p q

theorem mirrors_eq : Mirrors Eq where
  enter h _ := by rw [h]; exact ⟨rfl, rfl⟩
  leave {p q} h t := by
    subst h
    cases hleave : p.doLeave t with
    | none => exact .inl ⟨rfl, rfl⟩
    | some pair => exact .inr ⟨pair.1, pair.1, pair.2, rfl, rfl, rfl⟩
  after h _ := by rw [h]

theorem Pass.Alike.refl (p : Pass) : p.Alike p := ⟨Eq, mirrors_eq, rfl⟩

theorem mirrors_alike : Mirrors Pass.Alike where
  enter := by
    rintro p q ⟨S, hS, h⟩ t
    exact ⟨(hS.enter h t).1, S, hS, (hS.enter h t).2⟩
  leave := by
    rintro p q ⟨S, hS, h⟩ t
    obtain hnone | ⟨p', q', answer, hp, hq, h'⟩ := hS.leave h t
    · exact .inl hnone
    · exact .inr ⟨p', q', answer, hp, hq, S, hS, h'⟩
  after := by
    rintro p q ⟨S, hS, h⟩ ts
    exact hS.after h ts

/-! ## Walks -/

/-- The same outcome, but for the passes, which answer alike. -/
inductive Outcome.Mirrored {α : Type} : Outcome α → Outcome α → Prop
  | done (a : α) (x : Account) {ps qs : List Pass} (h : List.Forall₂ Pass.Alike ps qs) :
    Mirrored (.done a ps x) (.done a qs x)
  | failed (why : Failure) (x : Account) {ps qs : List Pass} (h : List.Forall₂ Pass.Alike ps qs) :
    Mirrored (.failed why ps x) (.failed why qs x)

namespace Outcome.Mirrored
variable {α : Type} {o o' : Outcome α}

theorem after (h : o.Mirrored o') (x : Account) : (o.after x).Mirrored (o'.after x) := by
  cases h with
  | done a y h => exact .done a (x ++ y) h
  | failed why y h => exact .failed why (x ++ y) h

theorem cons (h : o.Mirrored o') {p q : Pass} (hpq : p.Alike q) (x : Account) :
    (o.cons p x).Mirrored (o'.cons q x) := by
  cases h with
  | done a y h => exact .done a (x ++ y) (.cons hpq h)
  | failed why y h => exact .failed why (x ++ y) (.cons hpq h)

end Outcome.Mirrored

/-- The same effect of entering a tree, but for the passes, which answer alike. -/
inductive Entered.Mirrored : Entered → Entered → Prop
  | mk (tree : Tree) (skip : Bool) (replaced : Nat) (events : List Event) {ps qs : List Pass}
    (h : List.Forall₂ Pass.Alike ps qs) :
    Mirrored ⟨tree, skip, replaced, ps, events⟩ ⟨tree, skip, replaced, qs, events⟩

theorem enterAll_alike {ps qs : List Pass} (h : List.Forall₂ Pass.Alike ps qs) (i : Nat) (t : Tree) :
    (enterAll i ps t).Mirrored (enterAll i qs t) := by
  induction h generalizing i t with
  | nil => exact .mk t false 0 [] .nil
  | @cons p q ps qs hpq _ ih =>
    obtain ⟨hanswer, hnext⟩ := mirrors_alike.enter hpq t
    rw [enterAll, enterAll]
    generalize p.doEnter t = entered at hanswer hnext ⊢
    generalize q.doEnter t = entered' at hanswer hnext ⊢
    obtain ⟨p', answer⟩ := entered
    obtain ⟨q', answer'⟩ := entered'
    cases hanswer
    have hrest := ih (i + 1) (answer.settle t)
    dsimp only
    generalize enterAll (i + 1) ps (answer.settle t) = e at hrest ⊢
    generalize enterAll (i + 1) qs (answer.settle t) = e' at hrest ⊢
    cases hrest with
    | mk tree skip replaced events hpasses => exact .mk _ _ _ _ (.cons hnext hpasses)

theorem leaveAll_alike {ps qs : List Pass} (h : List.Forall₂ Pass.Alike ps qs) (i : Nat) (t : Tree) :
    (leaveAll i ps t).Mirrored (leaveAll i qs t) := by
  induction h generalizing i t with
  | nil => exact .done _ _ .nil
  | @cons p q ps qs hpq hrest ih =>
    rw [leaveAll, leaveAll]
    obtain ⟨hp, hq⟩ | ⟨p', q', answer, hp, hq, hnext⟩ := mirrors_alike.leave hpq t
    · rw [hp, hq]
      exact .failed _ _ (.cons hpq hrest)
    · rw [hp, hq]
      cases answer with
      | keep u => exact (ih (i + 1) u).cons hnext _
      | replace u => exact (ih (i + 1) _).cons hnext _
      | remove => exact .done _ _ (.cons hnext hrest)

/-- Two parts of walks that passes which answer alike take in the same way. -/
def MirroredWalk (α : Type) (w w' : WalkM α) : Prop :=
  ∀ ps qs, List.Forall₂ Pass.Alike ps qs → (w ps).Mirrored (w' qs)

theorem respects_mirroredWalk : Respects MirroredWalk where
  pure a := fun _ _ h => .done a {} h
  bind {α β w w' f f'} hw hf := by
    intro ps qs h
    have hfirst := hw ps qs h
    cases hps : w ps with
    | failed why ps' x =>
      cases hqs : w' qs with
      | done a qs' y =>
        rw [hps, hqs] at hfirst
        cases hfirst
      | failed why' qs' y =>
        rw [hps, hqs] at hfirst
        rw [WalkM.bind_failed hps, WalkM.bind_failed hqs]
        cases hfirst with
        | failed _ _ hpasses => exact .failed why x hpasses
    | done a ps' x =>
      cases hqs : w' qs with
      | failed why qs' y =>
        rw [hps, hqs] at hfirst
        cases hfirst
      | done b qs' y =>
        rw [hps, hqs] at hfirst
        rw [WalkM.bind_done hps, WalkM.bind_done hqs]
        cases hfirst with
        | done _ _ hpasses => exact (hf a ps' qs' hpasses).after x

theorem mirroredWalk_enter (t : Tree) : MirroredWalk _ (WalkM.enter t) (WalkM.enter t) := by
  intro ps qs h
  have hentered := enterAll_alike h 0 t
  rw [WalkM.enter, WalkM.enter]
  generalize enterAll 0 ps t = e at hentered ⊢
  generalize enterAll 0 qs t = e' at hentered ⊢
  cases hentered with
  | mk tree skip replaced events hpasses => exact .done _ _ hpasses

theorem mirroredWalk_require (parent : Kind) (slot : Slot) (c : Option Tree) :
    MirroredWalk _ (WalkM.require parent slot c) (WalkM.require parent slot c) := by
  intro ps qs h
  cases c with
  | none => exact .failed _ {} h
  | some t => exact .done t {} h

theorem mirroredWalk_visit (limit : Nat) (t : Tree) :
    MirroredWalk _ (visit limit t) (visit limit t) := by
  induction limit generalizing t with
  | zero => exact fun _ _ h => .failed _ {} h
  | succ limit ih =>
    refine respects_mirroredWalk.bind (mirroredWalk_enter t) fun ⟨u, skip⟩ => ?_
    have hleave : ∀ u, MirroredWalk _ (WalkM.leave u) (WalkM.leave u) :=
      fun u _ _ h => leaveAll_alike h 0 u
    cases skip with
    | true => exact respects_mirroredWalk.bind (respects_mirroredWalk.pure u) hleave
    | false =>
      have hrequired : ∀ slot c, MirroredWalk _
          (do let c ← visit limit c; WalkM.require u.kind slot c)
          (do let c ← visit limit c; WalkM.require u.kind slot c) :=
        fun slot c => respects_mirroredWalk.bind (ih c) (mirroredWalk_require u.kind slot)
      have hchildren := respects_mirroredWalk.bind
        (respects_mirroredWalk.rebuild hrequired ih u.form)
        fun form => respects_mirroredWalk.pure (⟨form, u.attrs⟩ : Tree)
      exact respects_mirroredWalk.bind hchildren hleave

theorem mirrored_walk (limit : Nat) (ts : Forest) : MirroredWalk _ (walk limit ts) (walk limit ts) :=
  respects_mirroredWalk.collect (mirroredWalk_visit limit) ts

/-! ## Runs -/

/-- The passes make the same of a forest before the walk, and answer alike from then on. -/
def Pass.StartsAlike (p q : Pass) : Prop :=
  ∀ ts, (p.doBefore ts).2 = (q.doBefore ts).2 ∧ (p.doBefore ts).1.Alike (q.doBefore ts).1

section
variable {ps qs : List Pass}

theorem beforeAll_alike (h : List.Forall₂ Pass.StartsAlike ps qs) (i : Nat) (ts : Forest) :
    (beforeAll i ps ts).trees = (beforeAll i qs ts).trees ∧
      List.Forall₂ Pass.Alike (beforeAll i ps ts).passes (beforeAll i qs ts).passes := by
  induction h generalizing i ts with
  | nil => exact ⟨rfl, .nil⟩
  | @cons p q ps qs hpq _ ih =>
    obtain ⟨htrees, halike⟩ := hpq ts
    obtain ⟨hrest, hpasses⟩ := ih (i + 1) (p.doBefore ts).2
    have hreceived : beforeAll (i + 1) qs (p.doBefore ts).2 = beforeAll (i + 1) qs (q.doBefore ts).2 :=
      congrArg _ htrees
    rw [hreceived] at hrest hpasses
    exact ⟨hrest, .cons halike hpasses⟩

theorem afterAll_alike (h : List.Forall₂ Pass.Alike ps qs) (i : Nat) (ts : Forest) :
    (afterAll i ps ts).trees = (afterAll i qs ts).trees := by
  induction h generalizing i ts with
  | nil => rfl
  | @cons p q ps qs hpq _ ih =>
    have htrees := mirrors_alike.after hpq ts
    have hreceived : afterAll (i + 1) qs (p.doAfter ts).2 = afterAll (i + 1) qs (q.doAfter ts).2 :=
      congrArg _ htrees
    have hrest := ih (i + 1) (p.doAfter ts).2
    rwa [hreceived] at hrest

theorem runWithin_result_eq (h : List.Forall₂ Pass.StartsAlike ps qs) (limit : Nat) (ts : Forest) :
    (runWithin limit ps ts).result = (runWithin limit qs ts).result := by
  obtain ⟨htrees, hpasses⟩ := beforeAll_alike h 0 ts
  have hwalk := mirrored_walk limit (beforeAll 0 ps ts).trees _ _ hpasses
  rw [runWithin, runWithin, ← htrees]
  generalize walk limit (beforeAll 0 ps ts).trees (beforeAll 0 ps ts).passes = o at hwalk ⊢
  generalize walk limit (beforeAll 0 ps ts).trees (beforeAll 0 qs ts).passes = o' at hwalk ⊢
  cases hwalk with
  | failed why x _ => rfl
  | done us x hwalked =>
    show Except.ok ((afterAll 0 _ us).trees, x.tally) = Except.ok ((afterAll 0 _ us).trees, x.tally)
    rw [afterAll_alike hwalked]

theorem run_result_eq (h : List.Forall₂ Pass.StartsAlike ps qs) (ts : Forest) :
    (run ps ts).result = (run qs ts).result := by
  have hlimit : depthLimit ps (beforeAll 0 ps ts).trees = depthLimit qs (beforeAll 0 qs ts).trees := by
    rw [depthLimit, depthLimit, h.length_eq, (beforeAll_alike h 0 ts).1]
  rw [run, run, ← hlimit]
  exact runWithin_result_eq h _ ts

end

/-! ## What a run makes of its passes -/

theorem Pass.Becomes.trans {p q r : Pass} (hpq : p.Becomes q) (hqr : q.Becomes r) : p.Becomes r := by
  induction hpq with
  | refl p => exact hqr
  | before ts _ ih => exact .before ts (ih hqr)
  | enter t _ ih => exact .enter t (ih hqr)
  | leave t answer hq _ ih => exact .leave t answer hq (ih hqr)
  | after ts _ ih => exact .after ts (ih hqr)

/-- Each pass of the second list is one of the first after calls of its hooks. -/
abbrev Become : List Pass → List Pass → Prop := List.Forall₂ Pass.Becomes

theorem Become.refl (ps : List Pass) : Become ps ps := List.forall₂_same.mpr fun p _ => .refl p

theorem Become.trans {ps qs rs : List Pass} (hpq : Become ps qs) (hqr : Become qs rs) :
    Become ps rs := by
  induction hpq generalizing rs with
  | nil => exact hqr
  | cons h _ ih =>
    cases hqr with
    | cons h' hrest => exact .cons (h.trans h') (ih hrest)

def Outcome.passes {α : Type} : Outcome α → List Pass
  | .done _ passes _ => passes
  | .failed _ passes _ => passes

theorem Outcome.passes_after {α : Type} (x : Account) (o : Outcome α) :
    (o.after x).passes = o.passes := by
  cases o <;> rfl

theorem Outcome.passes_cons {α : Type} (p : Pass) (x : Account) (o : Outcome α) :
    (o.cons p x).passes = p :: o.passes := by
  cases o <;> rfl

theorem become_beforeAll (i : Nat) (ps : List Pass) (ts : Forest) :
    Become ps (beforeAll i ps ts).passes := by
  induction ps generalizing i ts with
  | nil => exact .nil
  | cons p ps ih => exact .cons (.before ts (.refl _)) (ih (i + 1) _)

theorem become_enterAll (i : Nat) (ps : List Pass) (t : Tree) :
    Become ps (enterAll i ps t).passes := by
  induction ps generalizing i t with
  | nil => exact .nil
  | cons p ps ih => exact .cons (.enter t (.refl _)) (ih (i + 1) _)

theorem become_leaveAll (i : Nat) (ps : List Pass) (t : Tree) :
    Become ps (leaveAll i ps t).passes := by
  induction ps generalizing i t with
  | nil => exact .nil
  | cons p ps ih =>
    rw [leaveAll]
    split
    · exact Become.refl _
    · next q u hq =>
      rw [Outcome.passes_cons]
      exact .cons (.leave t _ hq (.refl q)) (ih (i + 1) u)
    · next q u hq =>
      rw [Outcome.passes_cons]
      exact .cons (.leave t _ hq (.refl q)) (ih (i + 1) _)
    · next q hq => exact .cons (.leave t _ hq (.refl q)) (Become.refl ps)

theorem become_afterAll (i : Nat) (ps : List Pass) (ts : Forest) :
    Become ps (afterAll i ps ts).passes := by
  induction ps generalizing i ts with
  | nil => exact .nil
  | cons p ps ih => exact .cons (.after ts (.refl _)) (ih (i + 1) _)

theorem closed_become : Closed fun α (w : WalkM α) => ∀ ps, Become ps (w ps).passes where
  pure _ := Become.refl
  bind {α β w f} hw hf := by
    intro ps
    have hfirst := hw ps
    cases h : w ps with
    | failed why qs x =>
      rw [h] at hfirst
      rwa [WalkM.bind_failed h]
    | done a qs x =>
      rw [h] at hfirst
      rw [WalkM.bind_done h, Outcome.passes_after]
      exact hfirst.trans (hf a qs)

theorem become_visit (limit : Nat) (t : Tree) (ps : List Pass) :
    Become ps (visit limit t ps).passes := by
  induction limit generalizing t ps with
  | zero => exact .refl ps
  | succ limit ih =>
    refine closed_become.bind (w := WalkM.enter t) (fun ps => become_enterAll 0 ps t)
      (fun ⟨u, skip⟩ => ?_) ps
    have hleave : ∀ (u : Tree) ps, Become ps (WalkM.leave u ps).passes :=
      fun u ps => become_leaveAll 0 ps u
    have hrequire : ∀ slot c ps, Become ps (WalkM.require u.kind slot c ps).passes := by
      intro slot c ps
      cases c <;> exact .refl ps
    cases skip with
    | true => exact closed_become.bind (closed_become.pure u) hleave
    | false =>
      have hrequired := fun slot c => closed_become.bind (ih c) (hrequire slot)
      have hchildren := closed_become.bind (closed_become.rebuild hrequired ih u.form)
        fun form => closed_become.pure (⟨form, u.attrs⟩ : Tree)
      exact closed_become.bind hchildren hleave

/-- A run leaves its passes as calls of their hooks made them, whether it succeeds or fails. -/
theorem becomes_runWithin (limit : Nat) (ps : List Pass) (ts : Forest) :
    Become ps (runWithin limit ps ts).passes := by
  have hbefore := become_beforeAll 0 ps ts
  have hwalk : Become (beforeAll 0 ps ts).passes
      (walk limit (beforeAll 0 ps ts).trees (beforeAll 0 ps ts).passes).passes :=
    closed_become.collect (become_visit limit) _ _
  rw [runWithin]
  cases h : walk limit (beforeAll 0 ps ts).trees (beforeAll 0 ps ts).passes with
  | failed why qs x =>
    rw [h] at hwalk
    exact hbefore.trans hwalk
  | done us qs x =>
    rw [h] at hwalk
    exact (hbefore.trans hwalk).trans (become_afterAll 0 qs us)

end Graft
