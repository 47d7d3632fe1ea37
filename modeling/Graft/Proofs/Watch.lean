import Graft.Proofs.Rebuild

/-! # Watched walks

A walk with a record of the calls of one pass, the one at position `k`. The record has what a journal
leaves out: how the pass stood when it was called, and the visits around the call, each as the tree
that the pass received on entering it.

Watching changes nothing (`watch_fst`), and the record misses nothing: what the recorded pass answers
to the recorded tree is, call by call, what the journal has of that pass (`watch_events`).
-/

set_option autoImplicit false

namespace Graft

/-! ## What a pass receives -/

/-- What the pass at a position receives when the passes enter a tree. -/
def receives : Nat → List Pass → Tree → Tree
  | 0, _, t => t
  | _ + 1, [], t => t
  | k + 1, p :: rest, t => receives k rest ((p.doEnter t).2.settle t)

/-- The tree that stands after a pass left `t`, if it does not remove the tree. -/
def Leaving.settle (t : Tree) : Leaving → Option Tree
  | keep u => some u
  | replace u => some (u.inherit t.attrs)
  | remove => none

/-- What the pass at a position receives when the passes leave a tree, unless one before it removes
the tree or fails. -/
def reaches : Nat → List Pass → Tree → Option Tree
  | 0, _, t => some t
  | _ + 1, [], _ => none
  | k + 1, p :: rest, t =>
    (p.doLeave t).bind fun answer => (answer.2.settle t).bind fun u => reaches k rest u

/-- A call of a hook: the trees that the pass received on entering the visits around it, innermost
first, the pass as it stood, and what it receives. -/
inductive Call where
  | enter (around : List Tree) (pass : Pass) (received : Tree)
  | leave (around : List Tree) (pass : Pass) (received : Tree)

namespace Call

def onEnter (k : Nat) (around : List Tree) (t : Tree) (passes : List Pass) : List Call :=
  passes[k]?.toList.map fun p => .enter around p (receives k passes t)

def onLeave (k : Nat) (around : List Tree) (t : Tree) (passes : List Pass) : List Call :=
  (reaches k passes t).toList.flatMap fun u => passes[k]?.toList.map fun p => .leave around p u

/-- The call with the answer that the pass gives, if it gives one. -/
def event? (k : Nat) : Call → Option Event
  | enter _ p t => some (.enter k t (p.doEnter t).2)
  | leave _ p t => (p.doLeave t).map fun answer => .leave k t answer.2

end Call

/-! ## The watched walk -/

/-- A part of a walk with the calls of the watched pass. -/
def WatchM (α : Type) := List Pass → Outcome α × List Call

namespace WatchM

instance : Monad WatchM where
  pure a passes := (.done a passes {}, [])
  bind w f passes :=
    match w passes with
    | (.done a passes account, calls) => ((f a passes).1.after account, calls ++ (f a passes).2)
    | (.failed why passes account, calls) => (.failed why passes account, calls)

/-- A part of a walk, with the calls that it makes. -/
def noting {α : Type} (w : WalkM α) (calls : List Pass → List Call) : WatchM α :=
  fun passes => (w passes, calls passes)

def children (visit : Tree → WatchM (Option Tree)) (t : Tree) : WatchM Tree := do
  let form ← t.form.rebuild (fun slot c => do
    let c ← visit c
    noting (WalkM.require t.kind slot c) fun _ => []) visit
  pure ⟨form, t.attrs⟩

/-- What follows once a tree has been entered. -/
def inner (visit : Tree → WatchM (Option Tree)) (t : Tree) (skip : Bool) : WatchM Tree :=
  if skip then pure t else children visit t

end WatchM

theorem Closed.inner {P : (α : Type) → WatchM α → Prop} (h : Closed P)
    {visit : Tree → WatchM (Option Tree)} (hvisit : ∀ c, P _ (visit c)) (t : Tree)
    (hrequire : ∀ slot c, P _ (WatchM.noting (WalkM.require t.kind slot c) fun _ => []))
    (skip : Bool) : P _ (WatchM.inner visit t skip) := by
  cases skip with
  | true => exact h.pure t
  | false =>
    have hrequired : ∀ slot c, P _ (visit c >>= fun c =>
        WatchM.noting (WalkM.require t.kind slot c) fun _ => []) :=
      fun slot c => h.bind (hvisit c) (hrequire slot)
    exact h.bind (h.rebuild hrequired hvisit t.form) fun _ => h.pure _

/-- A visit inside of others, the watched pass being at position `k`. -/
def watchVisit (k : Nat) : (limit : Nat) → (around : List Tree) → Tree → WatchM (Option Tree)
  | 0, _, _ => WatchM.noting (WalkM.fail .tooDeep) fun _ => []
  | limit + 1, around, t => fun passes =>
    (do
      let (u, skip) ← WatchM.noting (WalkM.enter t) (Call.onEnter k around t)
      let u ← WatchM.inner (watchVisit k limit (receives k passes t :: around)) u skip
      WatchM.noting (WalkM.leave u) (Call.onLeave k around u) : WatchM (Option Tree)) passes

def watch (k limit : Nat) (ts : Forest) : WatchM Forest := collect (watchVisit k limit []) ts

/-! ## Watching changes nothing -/

section
variable {α β : Type} {w : WatchM α} {f : α → WatchM β} {passes ps : List Pass} {x : Account}

theorem WatchM.bind_done {a : α} (h : (w passes).1 = .done a ps x) :
    (w >>= f) passes = ((f a ps).1.after x, (w passes).2 ++ (f a ps).2) := by
  cases hw : w passes with
  | mk outcome calls =>
    rw [hw] at h
    cases h
    simp only [Bind.bind, hw]

theorem WatchM.bind_failed {why : Failure} (h : (w passes).1 = .failed why ps x) :
    (w >>= f) passes = (.failed why ps x, (w passes).2) := by
  cases hw : w passes with
  | mk outcome calls =>
    rw [hw] at h
    cases h
    simp only [Bind.bind, hw]

theorem WatchM.of_bind_done {b : β} {y : Account} (h : ((w >>= f) passes).1 = .done b ps y) :
    ∃ a qs x z, (w passes).1 = .done a qs x ∧ (f a qs).1 = .done b ps z := by
  cases hw : (w passes).1 with
  | failed why qs x =>
    rw [bind_failed hw] at h
    contradiction
  | done a qs x =>
    rw [bind_done hw] at h
    cases hf : (f a qs).1 with
    | failed why rs z =>
      rw [hf] at h
      contradiction
    | done c rs z =>
      rw [hf] at h
      cases h
      exact ⟨a, qs, x, z, rfl, hf⟩

end

/-- The second computation is the first without the record. -/
def Erases (α : Type) (w : WatchM α) (w' : WalkM α) : Prop := ∀ passes, (w passes).1 = w' passes

theorem erases_noting {α : Type} (w : WalkM α) (calls : List Pass → List Call) :
    Erases α (WatchM.noting w calls) w := fun _ => rfl

theorem respects_erases : Respects Erases where
  pure _ _ := rfl
  bind {α β w w' f f'} hw hf := by
    intro passes
    have hfst := hw passes
    cases h : (w passes).1 with
    | failed why ps x =>
      rw [WatchM.bind_failed h]
      simp only [Bind.bind, ← hfst, h]
    | done a ps x => rw [WatchM.bind_done h, WalkM.bind_done (hfst.symm.trans h), hf a ps]

theorem erases_inner {visit : Tree → WatchM (Option Tree)} {visit' : Tree → WalkM (Option Tree)}
    (h : ∀ c, Erases _ (visit c) (visit' c)) (t : Tree) (skip : Bool) :
    Erases _ (WatchM.inner visit t skip) (if skip then pure t else WalkM.children visit' t) := by
  cases skip with
  | true => exact respects_erases.pure t
  | false =>
    refine respects_erases.bind (respects_erases.rebuild (fun slot c => ?_) h t.form)
      fun _ => respects_erases.pure _
    exact respects_erases.bind (h c) fun _ => erases_noting _ _

theorem erases_watchVisit (k limit : Nat) (around : List Tree) (t : Tree) :
    Erases _ (watchVisit k limit around t) (visit limit t) := by
  induction limit generalizing around t with
  | zero => exact erases_noting _ _
  | succ limit ih =>
    intro passes
    refine respects_erases.bind (erases_noting (WalkM.enter t) (Call.onEnter k around t))
      (fun ⟨u, skip⟩ => ?_) passes
    have hinner := erases_inner (ih (receives k passes t :: around)) u skip
    have hleave := fun u => erases_noting (WalkM.leave u) (Call.onLeave k around u)
    cases skip <;> exact respects_erases.bind hinner hleave

theorem watch_fst (k limit : Nat) (ts : Forest) (passes : List Pass) :
    (watch k limit ts passes).1 = walk limit ts passes :=
  respects_erases.collect (erases_watchVisit k limit []) ts passes

/-! ## The record misses nothing -/

theorem Outcome.journal_after {α : Type} (x : Account) (o : Outcome α) :
    (o.after x).journal = x.journal ++ o.journal := by
  cases o <;> rfl

theorem Outcome.journal_cons {α : Type} (p : Pass) (x : Account) (o : Outcome α) :
    (o.cons p x).journal = x.journal ++ o.journal := by
  cases o <;> rfl

/-- The events of the pass at a position. -/
def eventsOf (k : Nat) (journal : List Event) : List Event := journal.filter (·.pass = k)

theorem eventsOf_append (k : Nat) (js ks : List Event) :
    eventsOf k (js ++ ks) = eventsOf k js ++ eventsOf k ks := List.filter_append ..

theorem eventsOf_cons_here {i : Nat} {e : Event} {journal : List Event} (he : e.pass = i)
    (h : ∀ e ∈ journal, i + 1 ≤ e.pass) : eventsOf i (e :: journal) = [e] := by
  have hlater : journal.filter (·.pass = i) = [] := by
    refine List.filter_eq_nil_iff.mpr fun e he => ?_
    have hle := h e he
    simp only [decide_eq_true_eq]
    omega
  rw [eventsOf, List.filter_cons, if_pos (by simpa using he), hlater]

theorem eventsOf_cons_later {i : Nat} {e : Event} (he : e.pass = i) (k : Nat) (journal : List Event) :
    eventsOf (i + (k + 1)) (e :: journal) = eventsOf (i + 1 + k) journal := by
  have hne : ¬e.pass = i + (k + 1) := by omega
  rw [eventsOf, List.filter_cons_of_neg (by simpa using hne), ← Nat.succ_add_eq_add_succ]
  rfl

theorem le_pass_of_mem_enterAll (i : Nat) (passes : List Pass) (t : Tree) :
    ∀ e ∈ (enterAll i passes t).events, i ≤ e.pass := by
  induction passes generalizing i t with
  | nil => exact List.forall_mem_nil _
  | cons p passes ih =>
    refine List.forall_mem_cons.mpr ⟨Nat.le_refl i, fun e he => ?_⟩
    exact Nat.le_of_succ_le (ih (i + 1) _ e he)

theorem le_pass_of_mem_leaveAll (i : Nat) (passes : List Pass) (t : Tree) :
    ∀ e ∈ (leaveAll i passes t).journal, i ≤ e.pass := by
  induction passes generalizing i t with
  | nil => exact List.forall_mem_nil _
  | cons p passes ih =>
    rw [leaveAll]
    split
    · exact List.forall_mem_nil _
    · rw [Outcome.journal_cons]
      exact List.forall_mem_cons.mpr
        ⟨Nat.le_refl i, fun e he => Nat.le_of_succ_le (ih (i + 1) _ e he)⟩
    · rw [Outcome.journal_cons]
      exact List.forall_mem_cons.mpr
        ⟨Nat.le_refl i, fun e he => Nat.le_of_succ_le (ih (i + 1) _ e he)⟩
    · exact List.forall_mem_cons.mpr ⟨Nat.le_refl i, List.forall_mem_nil _⟩

theorem eventsOf_enterAll (i k : Nat) (around : List Tree) (passes : List Pass) (t : Tree) :
    eventsOf (i + k) (enterAll i passes t).events =
      (Call.onEnter k around t passes).filterMap (Call.event? (i + k)) := by
  induction passes generalizing i k t with
  | nil => rfl
  | cons p passes ih =>
    have hevents : (enterAll i (p :: passes) t).events =
        .enter i t (p.doEnter t).2 :: (enterAll (i + 1) passes ((p.doEnter t).2.settle t)).events := rfl
    have hlater := le_pass_of_mem_enterAll (i + 1) passes ((p.doEnter t).2.settle t)
    rw [hevents]
    cases k with
    | zero => exact eventsOf_cons_here (i := i) rfl hlater
    | succ k =>
      have hrest := ih (i + 1) k ((p.doEnter t).2.settle t)
      rw [eventsOf_cons_later (i := i) rfl, hrest, Nat.succ_add_eq_add_succ]
      rfl

theorem eventsOf_leaveAll (i k : Nat) (around : List Tree) (passes : List Pass) (t : Tree) :
    eventsOf (i + k) (leaveAll i passes t).journal =
      (Call.onLeave k around t passes).filterMap (Call.event? (i + k)) := by
  induction passes generalizing i k t with
  | nil => cases k <;> rfl
  | cons p passes ih =>
    cases k with
    | zero =>
      have hcall : (Call.onLeave 0 around t (p :: passes)).filterMap (Call.event? i) =
          ((p.doLeave t).map fun answer => Event.leave i t answer.2).toList := by
        show [Call.leave around p t].filterMap _ = _
        cases h : p.doLeave t <;> simp [Call.event?, h]
      -- the first event is the one of this pass, and the later passes have later positions
      have hfirst : ∀ tally answer q u, eventsOf i
          ((leaveAll (i + 1) passes u).cons q ⟨tally, [.leave i t answer]⟩).journal =
            [.leave i t answer] := by
        intro tally answer q u
        rw [Outcome.journal_cons]
        exact eventsOf_cons_here rfl (le_pass_of_mem_leaveAll (i + 1) passes u)
      rw [Nat.add_zero, hcall, leaveAll]
      cases p.doLeave t with
      | none => rfl
      | some answer =>
        obtain ⟨q, u | u | _⟩ := answer
        · exact hfirst _ _ q u
        · exact hfirst _ _ q _
        · exact eventsOf_cons_here rfl (List.forall_mem_nil _)
    | succ k =>
      have hcall : Call.onLeave (k + 1) around t (p :: passes) =
          (reaches (k + 1) (p :: passes) t).toList.flatMap fun u =>
            passes[k]?.toList.map fun q => .leave around q u := rfl
      have hrest : ∀ tally answer q u, eventsOf (i + (k + 1))
          ((leaveAll (i + 1) passes u).cons q ⟨tally, [.leave i t answer]⟩).journal =
            (Call.onLeave k around u passes).filterMap (Call.event? (i + (k + 1))) := by
        intro tally answer q u
        have hk : i + 1 + k = i + (k + 1) := by omega
        have hu := ih (i + 1) k u
        have hlater := eventsOf_cons_later (e := .leave i t answer) (i := i) rfl k
          (leaveAll (i + 1) passes u).journal
        rw [hk] at hu hlater
        rw [Outcome.journal_cons]
        exact hlater.trans hu
      rw [hcall, leaveAll, reaches]
      cases p.doLeave t with
      | none => rfl
      | some answer =>
        obtain ⟨q, u | u | _⟩ := answer
        · exact hrest _ _ q u
        · exact hrest _ _ q _
        · exact eventsOf_cons_later (i := i) rfl k _

/-- The record has the events of the watched pass. -/
def Recorded (k : Nat) (α : Type) (w : WatchM α) : Prop :=
  ∀ passes, (w passes).2.filterMap (Call.event? k) = eventsOf k (w passes).1.journal

theorem closed_recorded (k : Nat) : Closed (Recorded k) where
  pure _ _ := rfl
  bind {α β w f} hw hf := by
    intro passes
    have hcalls := hw passes
    cases h : (w passes).1 with
    | failed why ps x =>
      rw [h] at hcalls
      rw [WatchM.bind_failed h]
      exact hcalls
    | done a ps x =>
      have hx : (w passes).1.journal = x.journal := by rw [h]; rfl
      rw [WatchM.bind_done h, List.filterMap_append, hcalls, hf a ps, hx, Outcome.journal_after,
        eventsOf_append]

theorem recorded_watchVisit (k limit : Nat) (around : List Tree) (t : Tree) :
    Recorded k _ (watchVisit k limit around t) := by
  induction limit generalizing around t with
  | zero => exact fun _ => rfl
  | succ limit ih =>
    have hrequire : ∀ (u : Tree) (slot : Slot) (c : Option Tree), Recorded k _
        (WatchM.noting (WalkM.require u.kind slot c) fun _ => []) := by
      intro u slot c passes
      cases c <;> rfl
    have henter : Recorded k _ (WatchM.noting (WalkM.enter t) (Call.onEnter k around t)) := by
      intro passes
      have hevents := eventsOf_enterAll 0 k around passes t
      rw [Nat.zero_add] at hevents
      exact hevents.symm
    have hleave : ∀ u, Recorded k _ (WatchM.noting (WalkM.leave u) (Call.onLeave k around u)) := by
      intro u passes
      have hevents := eventsOf_leaveAll 0 k around passes u
      rw [Nat.zero_add] at hevents
      exact hevents.symm
    intro passes
    refine (closed_recorded k).bind henter (fun ⟨u, skip⟩ => ?_) passes
    have hinner := (closed_recorded k).inner (ih (receives k passes t :: around)) u (hrequire u) skip
    exact (closed_recorded k).bind hinner hleave

/-- The calls that the record has are those of the journal, with the same answers. -/
theorem watch_events (k limit : Nat) (ts : Forest) (passes : List Pass) :
    (watch k limit ts passes).2.filterMap (Call.event? k) =
      eventsOf k (walk limit ts passes).journal := by
  rw [← watch_fst k limit ts passes]
  exact (closed_recorded k).collect (recorded_watchVisit k limit []) ts passes

end Graft
