import Graft.Proofs.Lasting
import Graft.Proofs.Visits
import Graft.Tree.Make

/-! # The order of hooks

Passes of any kind and state take part in a run in turn. In a run that succeeds the calls of hooks are
those before the walk, then those of the visits of all trees, then those after the walk, and the tally
counts what the passes answered (`Completed`). In a run that loses a required child some visits were
entered and not left, and these are the ones around the lost child (`Interrupted`).

A walk is told visit by visit: what one visit does follows from what entering and leaving do
(`enterAll_told`, `leaveAll_told`) and from the loop through the children (`Traces.each_done`,
`Traces.each_lost`).
-/

set_option autoImplicit false

namespace Graft

/-! ## Entering and leaving -/

/-- What entering a tree gives when the passes answer as listed. -/
structure EnteredBy (i : Nat) (t : Tree) (answers : List Entering) (e : Entered) : Prop where
  tree : e.tree = answers.foldl (fun t a => a.settle t) t
  skip : e.skip = answers.any Entering.skips
  replaced : e.replaced = (enterEvents i t answers).countP Event.replaces
  events : e.events = enterEvents i t answers

theorem enterAll_told (i : Nat) (passes : List Pass) (t : Tree) :
    ∃ answers, answers.length = passes.length ∧ EnteredBy i t answers (enterAll i passes t) ∧
      (enterAll i passes t).passes.length = passes.length := by
  induction passes generalizing i t with
  | nil => exact ⟨[], rfl, ⟨rfl, rfl, rfl, rfl⟩, rfl⟩
  | cons p passes ih =>
    obtain ⟨answers, hlength, hentered, hpasses⟩ := ih (i + 1) ((p.doEnter t).2.settle t)
    refine ⟨(p.doEnter t).2 :: answers, congrArg (· + 1) hlength, ⟨?_, ?_, ?_, ?_⟩,
      congrArg (· + 1) hpasses⟩
    · exact hentered.tree
    · exact congrArg ((p.doEnter t).2.skips || ·) hentered.skip
    · have hreplaces : (p.doEnter t).2.replaces =
          if Event.replaces (.enter i t (p.doEnter t).2) then 1 else 0 := by
        cases (p.doEnter t).2 <;> rfl
      rw [enterEvents, List.countP_cons, ← hentered.replaced, ← hreplaces]
      exact Nat.add_comm _ _
    · exact congrArg (.enter i t (p.doEnter t).2 :: ·) hentered.events

/-- The account of leaving a tree when the passes answer as listed. -/
def leaveAccount (i : Nat) (t : Tree) (answers : List Leaving) : Account where
  tally :=
    { replaced := (leaveEvents i t answers).countP Event.replaces
      removed := (leaveEvents i t answers).countP Event.removes }
  journal := leaveEvents i t answers

theorem leaveAccount_cons {i : Nat} {t u : Tree} {a : Leaving} (hu : a.settle t = some u)
    (answers : List Leaving) :
    leaveAccount i t (a :: answers) =
      ⟨{ replaced := a.replaces }, [.leave i t a]⟩ ++ leaveAccount (i + 1) u answers := by
  have hevents : leaveEvents i t (a :: answers) = .leave i t a :: leaveEvents (i + 1) u answers := by
    rw [leaveEvents, hu, Option.elim_some]
  rw [leaveAccount, hevents, List.countP_cons, List.countP_cons]
  cases a with
  | remove => contradiction
  | keep v => simp [leaveAccount, Account.append_def, Tally.add_def, Event.replaces, Event.removes,
      Leaving.replaces]
  | replace v => simp [leaveAccount, Account.append_def, Tally.add_def, Event.replaces, Event.removes,
      Leaving.replaces, Nat.add_comm]

theorem leaveAll_told {i : Nat} {passes left : List Pass} {t : Tree} {result : Option Tree}
    {x : Account} (h : leaveAll i passes t = .done result left x) :
    ∃ answers, LeaveInTurn passes.length answers ∧ result = leftAs t answers ∧
      x = leaveAccount i t answers ∧ left.length = passes.length := by
  induction passes generalizing i t left x with
  | nil =>
    cases h
    exact ⟨[], .nil, rfl, rfl, rfl⟩
  | cons p passes ih =>
    obtain ⟨q, a, -, ⟨rfl, rfl, rfl, rfl⟩ | ⟨u, rest, y, hu, hrest, rfl, rfl⟩⟩ := leaveAll_cons_done h
    · exact ⟨[.remove], .removed _, rfl, rfl, rfl⟩
    · obtain ⟨answers, hturn, hresult, rfl, hlength⟩ := ih hrest
      have ha : a.removes = false := by
        cases a <;> first | rfl | contradiction
      refine ⟨a :: answers, .cons ha hturn, ?_, (leaveAccount_cons hu answers).symm,
        congrArg (· + 1) hlength⟩
      rw [leftAs, hu, hresult, Option.bind_some]

/-- Leaving a tree loses no child. -/
theorem leaveAll_failed {i : Nat} {passes left : List Pass} {t : Tree} {why : Failure} {x : Account}
    (h : leaveAll i passes t = .failed why left x) : ∃ kind, why = .neverEntered kind := by
  induction passes generalizing i t left x with
  | nil => contradiction
  | cons p passes ih =>
    rw [leaveAll] at h
    split at h
    · cases h
      exact ⟨t.kind, rfl⟩
    · obtain ⟨rest, y, hrest⟩ := Outcome.of_cons_failed h
      exact ih hrest
    · obtain ⟨rest, y, hrest⟩ := Outcome.of_cons_failed h
      exact ih hrest
    · contradiction

/-! ## Visits that were not left -/

/-- A visit that was entered and not left, with the visits of children that came to their end. -/
structure Opened where
  received : Tree
  entering : List Entering
  children : List Visit

namespace Opened

/-- The tree after all passes entered it. -/
def entered (o : Opened) : Tree := o.entering.foldl (fun t a => a.settle t) o.received

def journal (o : Opened) : List Event :=
  enterEvents 0 o.received o.entering ++ o.children.flatMap Visit.journal

/-- The slot that comes after the children whose visits came to their end. -/
def next? (o : Opened) : Option (Option Slot × Tree) := o.entered.form.slots[o.children.length]?

/-- All passes entered the tree, none skipped the children, and the children were visited in source
order up to some point. -/
structure InTurn (n : Nat) (o : Opened) : Prop where
  entering : o.entering.length = n
  walked : o.entering.any Entering.skips = false
  children : o.children.map Visit.received = o.entered.form.children.take o.children.length
  inside : ∀ v ∈ o.children.flatMap Visit.all, v.InTurn n

end Opened

/-- The visits that were entered and not left lead from a tree to the visit in which a child was
removed, each being the visit of the next child of the one before. The last of them is of the given
kind, and the child stood in the given slot. -/
inductive Leads (n : Nat) (lost : Visit) (slot : Slot) : Tree → List Opened → Kind → Prop
  | here {o : Opened} (ho : o.InTurn n) (hnext : o.next? = some (some slot, lost.received))
    (hturns : ∀ v ∈ lost.all, v.InTurn n) (hlost : lost.result = none) :
    Leads n lost slot o.received [o] o.entered.kind
  | inside {o : Opened} {c : Option Slot × Tree} {path : List Opened} {parent : Kind}
    (ho : o.InTurn n) (hnext : o.next? = some c) (h : Leads n lost slot c.2 path parent) :
    Leads n lost slot o.received (o :: path) parent

/-! ## Walks -/

/-- A way of visiting trees with `n` passes that can be told from its records. -/
structure Traces (n : Nat) (visit : Tree → WalkM (Option Tree)) : Prop where
  done : ∀ {t : Tree} {passes ps : List Pass} {r : Option Tree} {x : Account}, passes.length = n →
    visit t passes = .done r ps x →
      ps.length = n ∧ ∃ v : Visit, v.received = t ∧ v.result = r ∧ Told n [v] x
  lost : ∀ {t : Tree} {passes ps : List Pass} {parent : Kind} {slot : Slot} {x : Account},
    passes.length = n → visit t passes = .failed (.lostChild parent slot) ps x →
      ∃ path lost, Leads n lost slot t path parent ∧
        x.journal = path.flatMap Opened.journal ++ lost.journal

/-- In a loop through slots a child was lost, from a required slot of a tree of the given kind or
further inside. -/
inductive Breaks (n : Nat) (kind : Kind) (slot : Slot) (lost : Visit) :
    Option Slot × Tree → List Opened → Kind → Prop
  | here (hturns : ∀ v ∈ lost.all, v.InTurn n) (hlost : lost.result = none) :
    Breaks n kind slot lost (some slot, lost.received) [] kind
  | inside {c : Option Slot × Tree} {path : List Opened} {parent : Kind}
    (h : Leads n lost slot c.2 path parent) : Breaks n kind slot lost c path parent

namespace Traces
variable {n : Nat} {visit : Tree → WalkM (Option Tree)} (h : Traces n visit) {kind : Kind}
include h

theorem each_done {l : List (Option Slot × Tree)} {passes ps : List Pass} {rs : List (Option Tree)}
    {x : Account} (hn : passes.length = n)
    (heach : each (WalkM.place kind visit) l passes = .done rs ps x) :
    ps.length = n ∧ ∃ vs : List Visit, vs.map Visit.received = l.map (·.2) ∧
      vs.map Visit.result = rs ∧ Told n vs x := by
  induction l generalizing passes rs x with
  | nil =>
    cases heach
    exact ⟨hn, [], rfl, rfl, .nil⟩
  | cons c l ih =>
    obtain ⟨r, qs, y, z, hplace, hrest, rfl⟩ := WalkM.of_bind_done heach
    obtain ⟨rs', qs', y', z', heach', hpure, rfl⟩ := WalkM.of_bind_done hrest
    cases hpure
    obtain ⟨hqs, v, hv, hr, htold⟩ := h.done hn (WalkM.place_done hplace)
    obtain ⟨hps, vs, hvs, hrs, htolds⟩ := ih hqs heach'
    refine ⟨hps, v :: vs, ?_, ?_, ?_⟩
    · rw [List.map_cons, List.map_cons, hv, hvs]
    · rw [List.map_cons, hr, hrs]
    · rw [Account.append_empty]
      exact htold.append htolds

theorem each_lost {l : List (Option Slot × Tree)} {passes ps : List Pass} {parent : Kind}
    {slot : Slot} {x : Account} (hn : passes.length = n)
    (heach : each (WalkM.place kind visit) l passes = .failed (.lostChild parent slot) ps x) :
    ∃ (vs : List Visit) (c : _) (path : List Opened) (lost : Visit), l[vs.length]? = some c ∧
      vs.map Visit.received = (l.map (·.2)).take vs.length ∧
      (∀ v ∈ vs.flatMap Visit.all, v.InTurn n) ∧ Breaks n kind slot lost c path parent ∧
      x.journal = vs.flatMap Visit.journal ++ (path.flatMap Opened.journal ++ lost.journal) := by
  induction l generalizing passes x with
  | nil => contradiction
  | cons c l ih =>
    obtain hplace | ⟨r, qs, y, z, hplace, hrest, rfl⟩ := WalkM.of_bind_failed heach
    · obtain hvisit | ⟨slot', hslot, hwhy, hvisit⟩ := WalkM.place_failed hplace
      · obtain ⟨path, lost, hleads, hjournal⟩ := h.lost hn hvisit
        exact ⟨[], c, path, lost, rfl, rfl, List.forall_mem_nil _, .inside hleads, hjournal⟩
      · cases hwhy
        obtain ⟨-, v, hv, hr, htold⟩ := h.done hn hvisit
        have hc : c = (some slot, v.received) := by rw [← hslot, hv]
        have hall : ∀ u ∈ v.all, u.InTurn n := by
          have hturns := htold.turns
          rwa [List.flatMap_singleton] at hturns
        have hjournal := htold.journal
        rw [List.flatMap_singleton] at hjournal
        exact ⟨[], c, [], v, rfl, rfl, List.forall_mem_nil _, hc ▸ .here hall hr, hjournal⟩
    · obtain heach' | ⟨rs, qs', y', z', -, hpure, -⟩ := WalkM.of_bind_failed hrest
      · obtain ⟨hqs, v, hv, -, htold⟩ := h.done hn (WalkM.place_done hplace)
        obtain ⟨vs, c', path, lost, hget, hvs, hturns, hbreaks, hjournal⟩ := ih hqs heach'
        refine ⟨v :: vs, c', path, lost, hget, ?_, ?_, hbreaks, ?_⟩
        · rw [List.map_cons, hv, hvs, List.map_cons, List.length_cons, List.take_succ_cons]
        · have hv := htold.turns
          rw [List.flatMap_singleton] at hv
          rw [List.flatMap_cons, List.forall_mem_append]
          exact ⟨hv, hturns⟩
        · have hy := htold.journal
          rw [List.flatMap_singleton] at hy
          have happend : (y ++ z).journal = y.journal ++ z.journal := rfl
          rw [happend, hy, hjournal, List.flatMap_cons, List.append_assoc]
      · contradiction

end Traces

/-- A visit is told from its own calls and from the visits of the children. -/
theorem Told.visit {n : Nat} {v : Visit} {e : Entered} {y : Account} (hv : v.InTurn n)
    (he : EnteredBy 0 v.received v.entering e) (hy : Told n v.children y) :
    Told n [v] (⟨{ visited := 1, replaced := e.replaced, skipped := e.skip.toNat }, e.events⟩ ++
      (y ++ leaveAccount 0 v.rebuilt v.leaving)) where
  turns := by
    rw [List.flatMap_singleton, Visit.all_eq, List.forall_mem_cons]
    exact ⟨hv, hy.turns⟩
  journal := by
    rw [List.flatMap_singleton, Visit.journal_eq, ← hy.journal, List.append_assoc]
    exact congrArg (· ++ (y.journal ++ leaveEvents 0 v.rebuilt v.leaving)) he.events
  tally := by
    have hremoves := countP_enterEvents_eq_zero (p := Event.removes) (fun _ _ _ => rfl) 0 v.received
      v.entering
    have hskips : e.skip = v.skips := he.skip
    have hcons : Tally.total (v.share :: (v.children.flatMap Visit.all).map Visit.share) =
        v.share + Tally.total ((v.children.flatMap Visit.all).map Visit.share) := rfl
    rw [List.flatMap_singleton, Visit.all_eq, List.map_cons, hcons, ← hy.tally]
    simp only [Account.append_tally, leaveAccount, Tally.add_def, Visit.share, Visit.own,
      List.countP_append, hremoves, he.replaced, hskips, Tally.mk.injEq]
    omega

/-- The children of a tree that was entered, unless they are skipped. -/
def inner (visit : Tree → WalkM (Option Tree)) (t : Tree) (skip : Bool) : WalkM Tree :=
  if skip then pure t else WalkM.children visit t

theorem visit_succ (limit : Nat) (t : Tree) :
    visit (limit + 1) t = WalkM.enter t >>= fun u => inner (visit limit) u.1 u.2 >>= WalkM.leave := by
  rw [visit]
  refine congrArg (WalkM.enter t >>= ·) (funext fun u => ?_)
  obtain ⟨u, skip⟩ := u
  cases skip <;> rfl

theorem Traces.inner_done {n : Nat} {visit : Tree → WalkM (Option Tree)} (h : Traces n visit)
    {t u : Tree} {skip : Bool} {passes ps : List Pass} {x : Account} (hn : passes.length = n)
    (hinner : inner visit t skip passes = .done u ps x) :
    ps.length = n ∧ ∃ vs : List Visit,
      vs.map Visit.received = (if skip then [] else t.form.children) ∧
      u = (if skip then t else ⟨t.form.refill (vs.map Visit.result), t.attrs⟩) ∧ Told n vs x := by
  cases skip with
  | true =>
    cases hinner
    exact ⟨hn, [], rfl, rfl, .nil⟩
  | false =>
    have hchildren : WalkM.children visit t passes = .done u ps x := hinner
    rw [WalkM.children_eq] at hchildren
    obtain ⟨rs, qs, y, z, heach, hpure, rfl⟩ := WalkM.of_bind_done hchildren
    cases hpure
    obtain ⟨hps, vs, hvs, hrs, htold⟩ := h.each_done hn heach
    rw [Form.map_snd_slots] at hvs
    rw [Account.append_empty, ← hrs]
    exact ⟨hps, vs, hvs, rfl, htold⟩

theorem Traces.inner_lost {n : Nat} {visit : Tree → WalkM (Option Tree)} (h : Traces n visit)
    {t : Tree} {skip : Bool} {passes ps : List Pass} {parent : Kind} {slot : Slot} {x : Account}
    (hn : passes.length = n)
    (hinner : inner visit t skip passes = .failed (.lostChild parent slot) ps x) :
    skip = false ∧ ∃ (vs : List Visit) (c : _) (path : List Opened) (lost : Visit),
      t.form.slots[vs.length]? = some c ∧
      vs.map Visit.received = t.form.children.take vs.length ∧
      (∀ v ∈ vs.flatMap Visit.all, v.InTurn n) ∧ Breaks n t.kind slot lost c path parent ∧
      x.journal = vs.flatMap Visit.journal ++ (path.flatMap Opened.journal ++ lost.journal) := by
  cases skip with
  | true => contradiction
  | false =>
    have hchildren : WalkM.children visit t passes = .failed (.lostChild parent slot) ps x := hinner
    rw [WalkM.children_eq] at hchildren
    obtain heach | ⟨rs, qs, y, z, -, hpure, -⟩ := WalkM.of_bind_failed hchildren
    · have hlost := h.each_lost hn heach
      rw [Form.map_snd_slots] at hlost
      exact ⟨rfl, hlost⟩
    · contradiction

theorem Traces.visit_done {n limit : Nat} (h : Traces n (visit limit)) {t : Tree}
    {passes ps : List Pass} {r : Option Tree} {x : Account} (hn : passes.length = n)
    (hvisit : visit (limit + 1) t passes = .done r ps x) :
    ps.length = n ∧ ∃ v : Visit, v.received = t ∧ v.result = r ∧ Told n [v] x := by
  rw [visit_succ] at hvisit
  obtain ⟨u, qs, y, z, henter, hrest, rfl⟩ := WalkM.of_bind_done hvisit
  obtain ⟨w, qs', y', z', hinner, hleave, rfl⟩ := WalkM.of_bind_done hrest
  cases henter
  obtain ⟨answers, hlength, hentered, hpasses⟩ := enterAll_told 0 passes t
  obtain ⟨hqs, vs, hvs, hw, htold⟩ := h.inner_done (hpasses.trans hn) hinner
  obtain ⟨left, hturn, hresult, rfl, hps⟩ := leaveAll_told hleave
  simp only [hentered.tree, hentered.skip] at hvs hw
  have hv : (⟨t, answers, vs, left⟩ : Visit).InTurn n := ⟨hlength.trans hn, hvs, hqs ▸ hturn⟩
  have hrebuilt : (⟨t, answers, vs, left⟩ : Visit).rebuilt = w := hw.symm
  refine ⟨hps.trans hqs, ⟨t, answers, vs, left⟩, rfl, ?_, ?_⟩
  · rw [Visit.result_eq, hrebuilt, hresult]
  · rw [← hrebuilt]
    exact .visit hv hentered htold

theorem Traces.visit_lost {n limit : Nat} (h : Traces n (visit limit)) {t : Tree}
    {passes ps : List Pass} {parent : Kind} {slot : Slot} {x : Account} (hn : passes.length = n)
    (hvisit : visit (limit + 1) t passes = .failed (.lostChild parent slot) ps x) :
    ∃ path lost, Leads n lost slot t path parent ∧
      x.journal = path.flatMap Opened.journal ++ lost.journal := by
  rw [visit_succ] at hvisit
  obtain henter | ⟨u, qs, y, z, henter, hrest, rfl⟩ := WalkM.of_bind_failed hvisit
  · contradiction
  cases henter
  obtain hinner | ⟨w, qs', y', z', -, hleave, -⟩ := WalkM.of_bind_failed hrest
  · obtain ⟨answers, hlength, hentered, hpasses⟩ := enterAll_told 0 passes t
    obtain ⟨hskip, vs, c, path, lost, hget, hvs, hturns, hbreaks, hjournal⟩ :=
      h.inner_lost (hpasses.trans hn) hinner
    rw [hentered.skip] at hskip
    simp only [hentered.tree] at hget hvs hbreaks
    have ho : (⟨t, answers, vs⟩ : Opened).InTurn n := ⟨hlength.trans hn, hskip, hvs, hturns⟩
    refine ⟨⟨t, answers, vs⟩ :: path, lost, ?_, ?_⟩
    · cases hbreaks with
      | here hlost hnone => exact .here ho hget hlost hnone
      | inside hleads => exact .inside ho hget hleads
    · have happend : ∀ a b : Account, (a ++ b).journal = a.journal ++ b.journal := fun _ _ => rfl
      rw [happend, hentered.events, hjournal, List.flatMap_cons, Opened.journal]
      simp only [List.append_assoc]
  · obtain ⟨kind, hkind⟩ := leaveAll_failed hleave
    contradiction

/-- Every visit can be told from its records. -/
theorem traces_visit (n limit : Nat) : Traces n (visit limit) := by
  induction limit with
  | zero =>
    refine ⟨fun _ h => by contradiction, fun _ h => ?_⟩
    cases h
  | succ limit ih => exact ⟨ih.visit_done, ih.visit_lost⟩

/-! ## Runs -/

theorem beforeAll_told (i : Nat) (passes : List Pass) (ts : Forest) :
    (beforeAll i passes ts).passes.length = passes.length ∧
      ∃ handed : List Forest, handed.length = passes.length ∧
        (beforeAll i passes ts).events = handed.mapIdx fun k us => .before (i + k) us := by
  induction passes generalizing i ts with
  | nil => exact ⟨rfl, [], rfl, rfl⟩
  | cons p passes ih =>
    obtain ⟨hpasses, handed, hlength, hevents⟩ := ih (i + 1) (p.doBefore ts).2
    refine ⟨congrArg (· + 1) hpasses, ts :: handed, congrArg (· + 1) hlength, ?_⟩
    have hstep : (beforeAll i (p :: passes) ts).events =
        .before i ts :: (beforeAll (i + 1) passes (p.doBefore ts).2).events := rfl
    rw [hstep, hevents, List.mapIdx_cons]
    simp only [Nat.add_zero, Nat.add_assoc, Nat.add_comm 1]

theorem afterAll_told (i : Nat) (passes : List Pass) (ts : Forest) :
    ∃ finished : List Forest, finished.length = passes.length ∧
      (afterAll i passes ts).events = finished.mapIdx fun k us => .after (i + k) us := by
  induction passes generalizing i ts with
  | nil => exact ⟨[], rfl, rfl⟩
  | cons p passes ih =>
    obtain ⟨finished, hlength, hevents⟩ := ih (i + 1) (p.doAfter ts).2
    refine ⟨ts :: finished, congrArg (· + 1) hlength, ?_⟩
    have hstep : (afterAll i (p :: passes) ts).events =
        .after i ts :: (afterAll (i + 1) passes (p.doAfter ts).2).events := rfl
    rw [hstep, hevents, List.mapIdx_cons]
    simp only [Nat.add_zero, Nat.add_assoc, Nat.add_comm 1]

/-- The calls of hooks in a run of `n` passes that succeeds, with its tally. The walk goes through the
given trees. -/
structure Completed (n : Nat) (trees : Forest) (journal : List Event) (tally : Tally)
    (visits : List Visit) : Prop where
  order : ∃ handed finished : List Forest, handed.length = n ∧ finished.length = n ∧
    journal = handed.mapIdx Event.before ++ visits.flatMap Visit.journal ++
      finished.mapIdx Event.after
  received : visits.map Visit.received = trees
  turns : ∀ v ∈ visits.flatMap Visit.all, v.InTurn n
  visited : tally.visited = (visits.flatMap Visit.all).length
  entered : ∀ j < n, journal.countP (Event.enters j) = tally.visited
  left : ∀ j < n, journal.countP (Event.leaves j) + journal.countP (Event.removesBefore j) =
    tally.visited
  replaced : tally.replaced = journal.countP Event.replaces
  removed : tally.removed = journal.countP Event.removes
  skipped : tally.skipped = (visits.flatMap Visit.all).countP Visit.skips

/-- The calls of hooks in a run of `n` passes that loses a required child. The visits that were entered
and not left lead from one of the given trees to the lost child. -/
structure Interrupted (n : Nat) (trees : Forest) (journal : List Event) (parent : Kind) (slot : Slot)
    (visits : List Visit) (path : List Opened) (lost : Visit) : Prop where
  order : ∃ handed : List Forest, handed.length = n ∧
    journal = handed.mapIdx Event.before ++ visits.flatMap Visit.journal ++
      (path.flatMap Opened.journal ++ lost.journal)
  received : visits.map Visit.received = trees.take visits.length
  turns : ∀ v ∈ visits.flatMap Visit.all, v.InTurn n
  leads : ∃ t, trees[visits.length]? = some t ∧ Leads n lost slot t path parent
  unleft : ∀ j < n, journal.countP (Event.enters j) =
    journal.countP (Event.leaves j) + journal.countP (Event.removesBefore j) + path.length

/-! ## Counting over a run -/

/-- Calls before and after the walk are not among those of visits. -/
theorem countP_mapIdx_eq_zero {p : Event → Bool} {f : Nat → Forest → Event}
    (hp : ∀ i ts, p (f i ts) = false) (tss : List Forest) : (tss.mapIdx f).countP p = 0 := by
  refine List.countP_eq_zero.mpr fun e he => ?_
  obtain ⟨i, hi, rfl⟩ := List.mem_mapIdx.mp he
  simp [hp]

theorem countP_leads {n j : Nat} {lost : Visit} {slot : Slot} {t : Tree} {path : List Opened}
    {parent : Kind} (h : Leads n lost slot t path parent) (hj : j < n) :
    (path.flatMap Opened.journal ++ lost.journal).countP (Event.enters j) =
      (path.flatMap Opened.journal ++ lost.journal).countP (Event.leaves j) +
        (path.flatMap Opened.journal ++ lost.journal).countP (Event.removesBefore j) +
          path.length := by
  -- a visit that was not left has one call on entering more than those of its children
  have hopened : ∀ {o : Opened}, o.InTurn n → o.journal.countP (Event.enters j) =
      o.journal.countP (Event.leaves j) + o.journal.countP (Event.removesBefore j) + 1 := by
    intro o ho
    have hlength : 0 ≤ j ∧ j < 0 + o.entering.length := by
      rw [ho.entering]
      omega
    have henters := Visit.countP_enters_journal ho.inside hj
    have hleaves := Visit.countP_leaves_journal ho.inside hj
    simp only [Opened.journal, List.countP_append, countP_enterEvents_enters, if_pos hlength,
      countP_enterEvents_eq_zero (p := Event.leaves j) (fun _ _ _ => rfl),
      countP_enterEvents_eq_zero (p := Event.removesBefore j) (fun _ _ _ => rfl)]
    omega
  induction h with
  | @here o ho _ hturns _ =>
    have hall : ∀ v ∈ [lost].flatMap Visit.all, v.InTurn n := by rwa [List.flatMap_singleton]
    have henters := Visit.countP_enters_journal hall hj
    have hleaves := Visit.countP_leaves_journal hall hj
    have hself := hopened ho
    simp only [List.flatMap_singleton] at henters hleaves
    simp only [List.flatMap_singleton, List.countP_append, List.length_singleton]
    omega
  | @inside o c path parent ho _ _ ih =>
    have hself := hopened ho
    simp only [List.countP_append] at ih
    simp only [List.flatMap_cons, List.countP_append, List.length_cons]
    omega

theorem completed_of_told {n : Nat} {visits : List Visit} {x : Account} (h : Told n visits x)
    {handed finished : List Forest} (hhanded : handed.length = n) (hfinished : finished.length = n) :
    Completed n (visits.map Visit.received)
      (handed.mapIdx Event.before ++ x.journal ++ finished.mapIdx Event.after) x.tally visits := by
  have hcount : ∀ {p : Event → Bool}, (∀ i ts, p (.before i ts) = false) →
      (∀ i ts, p (.after i ts) = false) →
        (handed.mapIdx Event.before ++ x.journal ++ finished.mapIdx Event.after).countP p =
          x.journal.countP p := by
    intro p hbefore hafter
    rw [List.countP_append, List.countP_append, countP_mapIdx_eq_zero hbefore,
      countP_mapIdx_eq_zero hafter, Nat.zero_add, Nat.add_zero]
  refine ⟨⟨handed, finished, hhanded, hfinished, h.journal ▸ rfl⟩, rfl, h.turns, h.visited,
    fun j hj => ?_, fun j hj => ?_, ?_, ?_, h.skipped⟩
  · rw [hcount (fun _ _ => rfl) (fun _ _ => rfl), h.journal, h.visited]
    exact Visit.countP_enters_journal h.turns hj
  · rw [hcount (fun _ _ => rfl) (fun _ _ => rfl), hcount (fun _ _ => rfl) (fun _ _ => rfl), h.journal,
      h.visited]
    exact Visit.countP_leaves_journal h.turns hj
  · rw [hcount (fun _ _ => rfl) (fun _ _ => rfl), h.replaced]
  · rw [hcount (fun _ _ => rfl) (fun _ _ => rfl), h.removed]

theorem interrupted_of_leads {n : Nat} {trees : Forest} {visits : List Visit} {t : Tree}
    {path : List Opened} {lost : Visit} {parent : Kind} {slot : Slot} {handed : List Forest}
    (hhanded : handed.length = n) (ht : trees[visits.length]? = some t)
    (hvisits : visits.map Visit.received = trees.take visits.length)
    (hturns : ∀ v ∈ visits.flatMap Visit.all, v.InTurn n) (h : Leads n lost slot t path parent) :
    Interrupted n trees (handed.mapIdx Event.before ++ visits.flatMap Visit.journal ++
      (path.flatMap Opened.journal ++ lost.journal)) parent slot visits path lost := by
  refine ⟨⟨handed, hhanded, rfl⟩, hvisits, hturns, ⟨t, ht, h⟩, fun j hj => ?_⟩
  have hcount : ∀ {p : Event → Bool}, (∀ i ts, p (.before i ts) = false) →
      (handed.mapIdx Event.before ++ visits.flatMap Visit.journal ++
        (path.flatMap Opened.journal ++ lost.journal)).countP p =
          (visits.flatMap Visit.journal).countP p +
            (path.flatMap Opened.journal ++ lost.journal).countP p := by
    intro p hbefore
    rw [List.countP_append, List.countP_append, countP_mapIdx_eq_zero hbefore, Nat.zero_add]
  have henters := Visit.countP_enters_journal hturns hj
  have hleaves := Visit.countP_leaves_journal hturns hj
  have hleads := countP_leads h hj
  rw [hcount (fun _ _ => rfl), hcount (fun _ _ => rfl), hcount (fun _ _ => rfl)]
  omega

theorem walk_completed {n limit : Nat} {ts us : Forest} {passes ps : List Pass} {x : Account}
    (hn : passes.length = n) (h : walk limit ts passes = .done us ps x) :
    ps.length = n ∧ ∃ visits : List Visit, visits.map Visit.received = ts ∧ Told n visits x := by
  rw [walk_eq .block] at h
  obtain ⟨rs, qs, y, z, heach, hpure, rfl⟩ := WalkM.of_bind_done h
  cases hpure
  obtain ⟨hps, visits, hvisits, -, htold⟩ := (traces_visit n limit).each_done hn heach
  rw [map_snd_loose] at hvisits
  rw [Account.append_empty]
  exact ⟨hps, visits, hvisits, htold⟩

theorem walk_interrupted {n limit : Nat} {ts : Forest} {passes ps : List Pass} {parent : Kind}
    {slot : Slot} {x : Account} (hn : passes.length = n)
    (h : walk limit ts passes = .failed (.lostChild parent slot) ps x) :
    ∃ (visits : List Visit) (t : Tree) (path : List Opened) (lost : Visit),
      ts[visits.length]? = some t ∧ visits.map Visit.received = ts.take visits.length ∧
      (∀ v ∈ visits.flatMap Visit.all, v.InTurn n) ∧ Leads n lost slot t path parent ∧
      x.journal = visits.flatMap Visit.journal ++ (path.flatMap Opened.journal ++ lost.journal) := by
  rw [walk_eq .block] at h
  obtain heach | ⟨rs, qs, y, z, -, hpure, -⟩ := WalkM.of_bind_failed h
  · obtain ⟨visits, c, path, lost, hget, hvisits, hturns, hbreaks, hjournal⟩ :=
      (traces_visit n limit).each_lost hn heach
    rw [loose, List.getElem?_map, Option.map_eq_some_iff] at hget
    obtain ⟨t, ht, rfl⟩ := hget
    rw [map_snd_loose] at hvisits
    -- the trees of a forest stand in no required slot
    cases hbreaks with
    | inside hleads => exact ⟨visits, t, path, lost, ht, hvisits, hturns, hleads, hjournal⟩
  · contradiction

/-- Two passes, one that skips arrays and one that removes them. -/
def skipThenRemove : List Pass :=
  [{ Pass.idle with enter := fun s t => (s, if t.kind = .array then .skip t else .keep t) },
    { Pass.idle with leave := fun s t => some (s, if t.kind = .array then .remove else .keep t) }]

end Graft
