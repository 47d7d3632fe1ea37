import Graft.Proofs.Lasting
import Graft.Proofs.StockRuns
import Graft.Tree.Make

/-! # The depth of the timing pass among other passes

The timing pass may share a walk with passes of any kind and state. Those after it must not turn a
function-like tree into another or the other way round on entering (`EntersAlike`), since the timing
pass has counted by then what it received. Those before it must not do so on leaving, nor remove a
function-like tree (`LeavesAlike`), since the timing pass would then miss the end of a body that it
has counted.

Under these conditions the depth is, at each call on entering, the number of function-like trees that
the pass received on entering the visits around; it is never left at a depth where it refuses; and it
is back at zero when the walk has succeeded (`depth_balanced`). One visit takes the depth from where
it stands to the depth of the children and back (`stands_enterAll`, `stands_leaveAll`), and a walk is
visits one after the other.
-/

set_option autoImplicit false

namespace Graft

/-! ## Conditions on passes -/

/-- The tree that a pass hands back on entering. -/
def Entering.tree : Entering → Tree
  | keep u => u
  | replace u => u
  | skip u => u

/-- What a pass hands back on leaving is function-like exactly when the tree is, and no function-like
tree is removed. -/
def Leaving.Alike (t : Tree) : Leaving → Prop
  | keep u => u.isFunctionLike = t.isFunctionLike
  | replace u => u.isFunctionLike = t.isFunctionLike
  | remove => t.isFunctionLike = false

/-- On entering, the pass hands back a function-like tree exactly when it receives one. -/
def Pass.EntersAlike : Pass → Prop :=
  Pass.Always fun q => ∀ t, (q.doEnter t).2.tree.isFunctionLike = t.isFunctionLike

def Pass.LeavesAlike : Pass → Prop :=
  Pass.Always fun q => ∀ t r answer, q.doLeave t = some (r, answer) → answer.Alike t

/-! ## Where the timing pass stands -/

/-- The timing pass is at position `k` and at depth `d`, and the passes around it keep to their
conditions. -/
inductive Stands : Nat → Nat → List Pass → Prop
  | here (t : Timing) (after : List Pass) (h : ∀ p ∈ after, p.EntersAlike) :
    Stands 0 t.depth (t.pass :: after)
  | later {k d : Nat} {passes : List Pass} (p : Pass) (hp : p.LeavesAlike) (h : Stands k d passes) :
    Stands (k + 1) d (p :: passes)

theorem Stands.of_append {before after : List Pass} (t : Timing)
    (hbefore : ∀ p ∈ before, p.LeavesAlike) (hafter : ∀ p ∈ after, p.EntersAlike) :
    Stands before.length t.depth (before ++ t.pass :: after) := by
  induction before with
  | nil => exact .here t after hafter
  | cons p before ih =>
    rw [List.forall_mem_cons] at hbefore
    exact .later p hbefore.1 (ih hbefore.2)

theorem Stands.getElem {k d : Nat} {passes : List Pass} (h : Stands k d passes) :
    ∃ t : Timing, passes[k]? = some t.pass ∧ t.depth = d := by
  induction h with
  | here t after _ => exact ⟨t, rfl, rfl⟩
  | later p _ _ ih => exact ih

theorem isFunctionLike_settle (t : Tree) (answer : Entering) :
    (answer.settle t).isFunctionLike = answer.tree.isFunctionLike := by
  cases answer <;> rfl

theorem Timing.isFunctionLike_enter (t : Timing) (u : Tree) :
    (t.enter u).2.tree.isFunctionLike = u.isFunctionLike := by
  rw [← isFunctionLike_settle u]
  exact Stock.isFunctionLike_enter t.depth (.timing t) u

theorem Timing.depth_enter (t : Timing) (u : Tree) : (t.enter u).1.depth = u.inside t.depth := by
  rw [Timing.enter, Tree.inside]
  cases u.isFunctionLike with
  | true => rfl
  | false =>
    rw [if_neg Bool.false_ne_true]
    split <;> rfl

/-! ## Before the walk -/

theorem stands_beforeAll {k d : Nat} {passes : List Pass} (h : Stands k d passes) (i : Nat)
    (ts : Forest) : Stands k 0 (beforeAll i passes ts).passes := by
  induction h generalizing i ts with
  | here t after h =>
    exact .here { t with depth := 0 } _ (always_beforeAll (i + 1) after ts h)
  | later p hp _ ih => exact .later _ (hp.doBefore ts) (ih (i + 1) _)

/-! ## Entering -/

theorem entersAlike_enterAll (i : Nat) (passes : List Pass) (t : Tree)
    (h : ∀ p ∈ passes, p.EntersAlike) :
    (∀ p ∈ (enterAll i passes t).passes, p.EntersAlike) ∧
      (enterAll i passes t).tree.isFunctionLike = t.isFunctionLike := by
  induction passes generalizing i t with
  | nil => exact ⟨h, rfl⟩
  | cons p passes ih =>
    rw [List.forall_mem_cons] at h
    have hrest := ih (i + 1) ((p.doEnter t).2.settle t) h.2
    refine ⟨List.forall_mem_cons.mpr ⟨h.1.doEnter t, hrest.1⟩, hrest.2.trans ?_⟩
    rw [isFunctionLike_settle]
    exact h.1.now t

/-- Entering takes the timing pass to the depth of the children, and what is entered is function-like
exactly when what the timing pass received is. -/
theorem stands_enterAll {k d : Nat} {passes : List Pass} (h : Stands k d passes) (i : Nat)
    (t : Tree) :
    Stands k ((receives k passes t).inside d) (enterAll i passes t).passes ∧
      (enterAll i passes t).tree.isFunctionLike = (receives k passes t).isFunctionLike := by
  induction h generalizing i t with
  | here s after h =>
    have hrest := entersAlike_enterAll (i + 1) after ((s.enter t).2.settle t) h
    refine ⟨?_, hrest.2.trans ?_⟩
    · rw [receives, ← s.depth_enter]
      exact .here (s.enter t).1 _ hrest.1
    · rw [isFunctionLike_settle]
      exact s.isFunctionLike_enter t
  | later p hp _ ih =>
    have hrest := ih (i + 1) ((p.doEnter t).2.settle t)
    exact ⟨.later _ (hp.doEnter t) hrest.1, hrest.2⟩

/-! ## Leaving -/

theorem Leaving.Alike.settle {t u : Tree} {answer : Leaving} (h : answer.Alike t)
    (hu : answer.settle t = some u) : u.isFunctionLike = t.isFunctionLike := by
  cases answer with
  | keep v =>
    cases hu
    exact h
  | replace v =>
    cases hu
    exact h
  | remove => contradiction

theorem Timing.doLeave_pass {s : Timing} {d : Nat} {t : Tree} (h : s.depth = t.inside d) :
    s.pass.doLeave t = some (({ s with depth := d } : Timing).pass, .keep t) := by
  obtain ⟨timer, noValue, depth⟩ := s
  have hdepth : depth = t.inside d := h
  rw [hdepth]
  exact Stock.doLeave_pass d (.timing ⟨timer, noValue, d⟩) t

/-- Leaving takes the timing pass back to the depth of the tree. -/
theorem stands_leaveAll {k d e : Nat} {passes : List Pass} (h : Stands k e passes) {i : Nat}
    {t : Tree} (he : e = t.inside d) {result : Option Tree} {left : List Pass} {x : Account}
    (hleave : leaveAll i passes t = .done result left x) : Stands k d left := by
  induction h generalizing i t left x with
  | here s after hafter =>
    obtain ⟨q, answer, hq, hcases⟩ := leaveAll_cons_done hleave
    rw [Timing.doLeave_pass he] at hq
    cases hq
    obtain ⟨hremove, -⟩ | ⟨u, rest, y, -, hrest, rfl, -⟩ := hcases
    · contradiction
    · exact .here { s with depth := d } rest (always_leaveAll hafter hrest)
  | later p hp hstands ih =>
    obtain ⟨q, answer, hq, ⟨rfl, -, rfl, -⟩ | ⟨u, rest, y, hu, hrest, rfl, -⟩⟩ :=
      leaveAll_cons_done hleave
    -- a tree that is removed before the timing pass leaves it was not counted
    · have hlike : t.isFunctionLike = false := hp.now t q .remove hq
      rw [Tree.inside, hlike, Bool.toNat_false, Nat.add_zero] at he
      subst he
      exact .later q (hp.doLeave hq) hstands
    · have hlike := (hp.now t q answer hq).settle hu
      have hinside : u.inside d = t.inside d := by rw [Tree.inside, hlike, Tree.inside]
      exact .later q (hp.doLeave hq) (ih (he.trans hinside.symm) hrest)

theorem isFunctionLike_reaches {k d : Nat} {passes : List Pass} (h : Stands k d passes) {t u : Tree}
    (hu : reaches k passes t = some u) : u.isFunctionLike = t.isFunctionLike := by
  induction h generalizing t with
  | here s after _ =>
    cases hu
    rfl
  | later p hp _ ih =>
    rw [reaches, Option.bind_eq_some_iff] at hu
    obtain ⟨⟨q, answer⟩, hq, hu⟩ := hu
    obtain ⟨v, hv, hu⟩ := Option.bind_eq_some_iff.mp hu
    exact (ih hu).trans ((hp.now t q answer hq).settle hv)

/-! ## Visits and walks -/

/-- A call at which the timing pass is at the right depth: on entering, the number of function-like
trees around; on leaving, one where it does not refuse the tree. -/
def Call.Balanced : Call → Prop
  | .enter around p _ => p.reading = some (around.countP Tree.isFunctionLike)
  | .leave _ p t => p.doLeave t ≠ none

/-- A part of a walk that makes balanced calls from here and, if it succeeds, leaves the timing pass at
depth `d`. -/
def BalancedAt (k d : Nat) {α : Type} (w : WatchM α) (passes : List Pass) : Prop :=
  (∀ call ∈ (w passes).2, call.Balanced) ∧ ∀ a ps x, (w passes).1 = .done a ps x → Stands k d ps

theorem BalancedAt.bind {k d : Nat} {α β : Type} {w : WatchM α} {f : α → WatchM β}
    {passes : List Pass} (hcalls : ∀ call ∈ (w passes).2, call.Balanced)
    (hf : ∀ a ps x, (w passes).1 = .done a ps x → BalancedAt k d (f a) ps) :
    BalancedAt k d (w >>= f) passes := by
  constructor
  · cases hout : (w passes).1 with
    | failed why ps x =>
      rw [WatchM.bind_failed hout]
      exact hcalls
    | done a ps x =>
      rw [WatchM.bind_done hout]
      exact List.forall_mem_append.mpr ⟨hcalls, (hf a ps x hout).1⟩
  · intro b qs y hdone
    obtain ⟨a, ps, x, z, ha, hb⟩ := WatchM.of_bind_done hdone
    exact (hf a ps x ha).2 b qs z hb

def Balances (k d : Nat) (α : Type) (w : WatchM α) : Prop :=
  ∀ passes, Stands k d passes → BalancedAt k d w passes

theorem closed_balances (k d : Nat) : Closed (Balances k d) where
  pure a passes h := by
    refine ⟨List.forall_mem_nil _, fun a ps x hdone => ?_⟩
    cases hdone
    exact h
  bind {α β w f} hw hf := by
    intro passes h
    obtain ⟨hcalls, hstands⟩ := hw passes h
    exact .bind hcalls fun a ps x ha => hf a ps (hstands a ps x ha)

theorem balances_require (k d : Nat) (parent : Kind) (slot : Slot) (c : Option Tree) :
    Balances k d _ (WatchM.noting (WalkM.require parent slot c) fun _ => []) := by
  intro passes hstands
  refine ⟨List.forall_mem_nil _, fun a ps x hdone => ?_⟩
  cases c with
  | none => contradiction
  | some c =>
    cases hdone
    exact hstands

theorem kind_inner {visit : Tree → WatchM (Option Tree)} {t u : Tree} {skip : Bool}
    {passes ps : List Pass} {x : Account}
    (h : (WatchM.inner visit t skip passes).1 = .done u ps x) : u.kind = t.kind := by
  cases skip with
  | true =>
    cases h
    rfl
  | false =>
    obtain ⟨form, qs, y, z, hform, hu⟩ := WatchM.of_bind_done h
    cases hu
    exact Form.rebuild_kind (P := fun w => ∀ passes form ps x, (w passes).1 = .done form ps x →
        form.kind = t.form.kind) t.form _ visit
      (fun f hf passes form ps x hdone => by cases hdone; exact hf)
      (fun w f hf passes form ps x hdone => by
        obtain ⟨a, qs, y, z, -, ha⟩ := WatchM.of_bind_done hdone
        exact hf a qs form ps z ha)
      passes form _ y hform

theorem balanced_onEnter {k : Nat} {around : List Tree} {passes : List Pass}
    (h : Stands k (around.countP Tree.isFunctionLike) passes) (t : Tree) :
    ∀ call ∈ Call.onEnter k around t passes, call.Balanced := by
  obtain ⟨s, hs, hdepth⟩ := h.getElem
  rw [Call.onEnter, hs]
  refine List.forall_mem_cons.mpr ⟨?_, List.forall_mem_nil _⟩
  exact congrArg some hdepth

theorem balanced_onLeave {k d : Nat} {passes : List Pass} {u : Tree}
    (h : Stands k (u.inside d) passes) (around : List Tree) :
    ∀ call ∈ Call.onLeave k around u passes, call.Balanced := by
  obtain ⟨s, hs, hdepth⟩ := h.getElem
  rw [Call.onLeave, hs]
  cases hreaches : reaches k passes u with
  | none => exact List.forall_mem_nil _
  | some v =>
    refine List.forall_mem_cons.mpr ⟨?_, List.forall_mem_nil _⟩
    have hlike := isFunctionLike_reaches h hreaches
    have hinside : s.depth = v.inside d := by rw [hdepth, Tree.inside, Tree.inside, hlike]
    rw [Call.Balanced, Timing.doLeave_pass hinside]
    exact Option.some_ne_none _

/-- A visit makes balanced calls and leaves the depth as it found it. -/
theorem balances_watchVisit (k limit : Nat) (around : List Tree) (t : Tree) :
    Balances k (around.countP Tree.isFunctionLike) _ (watchVisit k limit around t) := by
  induction limit generalizing around t with
  | zero => exact fun passes _ => ⟨List.forall_mem_nil _, fun a ps x hdone => by contradiction⟩
  | succ limit ih =>
    intro passes h
    obtain ⟨hentered, hlike⟩ := stands_enterAll h 0 t
    -- the depth of the children counts the received tree among those around them
    have hcount : (receives k passes t :: around).countP Tree.isFunctionLike =
        (receives k passes t).inside (around.countP Tree.isFunctionLike) := by
      rw [List.countP_cons, Tree.inside]
      cases (receives k passes t).isFunctionLike <;> rfl
    have hvisit := ih (receives k passes t :: around)
    rw [hcount] at hvisit
    obtain ⟨hinner, hstands⟩ := (closed_balances k _).inner hvisit (enterAll 0 passes t).tree
      (balances_require k _ _) (enterAll 0 passes t).skip _ hentered
    have hleave : ∀ u ps x, (WatchM.inner (watchVisit k limit (receives k passes t :: around))
        (enterAll 0 passes t).tree (enterAll 0 passes t).skip (enterAll 0 passes t).passes).1 =
          .done u ps x → Stands k (u.inside (around.countP Tree.isFunctionLike)) ps := by
      intro u ps x hu
      have hkind : u.isFunctionLike = (receives k passes t).isFunctionLike := by
        rw [← hlike, Tree.isFunctionLike, kind_inner hu, Tree.isFunctionLike]
      rw [Tree.inside, hkind]
      exact hstands u ps x hu
    refine .bind (balanced_onEnter h t) fun entered ps x hdone => ?_
    cases hdone
    refine .bind hinner fun u ps x hu => ?_
    refine ⟨balanced_onLeave (hleave u ps x hu) around, fun result left y hleft => ?_⟩
    exact stands_leaveAll (hleave u ps x hu) rfl hleft

theorem balances_watch (k limit : Nat) (ts : Forest) : Balances k 0 _ (watch k limit ts) :=
  (closed_balances k 0).collect (balances_watchVisit k limit []) ts

/-! ## Stock passes among others -/

theorem Timing.keep_of_leave {s s' : Timing} {t : Tree} {answer : Leaving}
    (h : s.leave t = some (s', answer)) : answer = .keep t ∧ s' = { s with depth := s'.depth } := by
  rw [Timing.leave] at h
  split at h
  · split at h
    · contradiction
    · cases h
      exact ⟨rfl, rfl⟩
  · cases h
    exact ⟨rfl, rfl⟩

theorem Stock.keep_of_doLeave {s : Stock} {depth : Nat} {q : Pass} {t : Tree} {answer : Leaving}
    (h : (s.pass depth).doLeave t = some (q, answer)) : answer = .keep t ∧ ∃ d, q = s.pass d := by
  cases s with
  | timing timing =>
    simp only [pass, Pass.doLeave, Timing.pass] at h
    split at h
    · next s' _ hleave =>
      cases h
      obtain ⟨hkeep, hs'⟩ := Timing.keep_of_leave hleave
      refine ⟨hkeep, s'.depth, ?_⟩
      rw [hs']
      rfl
    · contradiction
  | bypass b =>
    cases h
    exact ⟨rfl, depth, rfl⟩

/-- A stock pass becomes nothing but itself at another depth. -/
theorem Stock.becomes_pass (s : Stock) (depth : Nat) {q : Pass} (h : (s.pass depth).Becomes q) :
    ∃ d, q = s.pass d := by
  generalize hp : s.pass depth = p at h
  induction h generalizing depth with
  | refl p => exact ⟨depth, hp.symm⟩
  | before ts _ ih =>
    subst hp
    rw [doBefore_pass] at ih
    exact ih 0 rfl
  | enter t _ ih =>
    subst hp
    rw [doEnter_pass] at ih
    exact ih _ rfl
  | leave t answer hq _ ih =>
    subst hp
    obtain ⟨-, d, rfl⟩ := keep_of_doLeave hq
    exact ih d rfl
  | after ts _ ih =>
    subst hp
    rw [doAfter_pass] at ih
    exact ih depth rfl

theorem Stock.becomes_given (s : Stock) {q : Pass} (h : s.given.Becomes q) :
    ∃ depth, q = s.pass depth := by
  cases s with
  | timing t => exact becomes_pass (.timing t) t.depth h
  | bypass b => exact becomes_pass (.bypass b) 0 h

theorem Stock.entersAlike_given (s : Stock) : s.given.EntersAlike := by
  intro q hq t
  obtain ⟨depth, rfl⟩ := s.becomes_given hq
  cases s with
  | timing s => exact Timing.isFunctionLike_enter { s with depth := depth } t
  | bypass b =>
    rw [← isFunctionLike_settle t]
    exact Stock.isFunctionLike_enter 0 (.bypass b) t

theorem Stock.leavesAlike_given (s : Stock) : s.given.LeavesAlike := by
  intro q hq t r answer hanswer
  obtain ⟨depth, rfl⟩ := s.becomes_given hq
  rw [(keep_of_doLeave hanswer).1]
  rfl

/-! ## Runs -/

/-- The calls of the pass at position `k` in the walk of a run. -/
def calls (k limit : Nat) (passes : List Pass) (ts : Forest) : List Call :=
  (watch k limit (beforeAll 0 passes ts).trees (beforeAll 0 passes ts).passes).2

/-- The depth of the pass at position `k` is right in the walk of a run, with visits nested at most
`limit` deep. -/
structure DepthBalanced (k limit : Nat) (passes : List Pass) (ts : Forest) : Prop where
  /-- The calls are those of the journal. -/
  recorded : (calls k limit passes ts).filterMap (Call.event? k) =
    eventsOf k (walk limit (beforeAll 0 passes ts).trees (beforeAll 0 passes ts).passes).journal
  /-- On entering, the depth counts the function-like trees that the pass received on entering the
  visits around. -/
  entering : ∀ around p t, .enter around p t ∈ calls k limit passes ts →
    p.reading = some (around.countP Tree.isFunctionLike)
  /-- On leaving, the pass never finds that it has not entered. -/
  leaving : ∀ around p t, .leave around p t ∈ calls k limit passes ts → p.doLeave t ≠ none
  /-- After a walk that succeeds the depth is zero. -/
  ending : ∀ us walked account,
    walk limit (beforeAll 0 passes ts).trees (beforeAll 0 passes ts).passes =
      .done us walked account → ∃ p, walked[k]? = some p ∧ p.reading = some 0

/-- The depth of a timing pass is right among any passes that keep to their conditions, however deep
the walk goes and whether it ends well or not. Timing and bypass passes keep to both conditions. -/
theorem depth_balanced (before after : List Pass) (t : Timing) (limit : Nat) (ts : Forest)
    (hbefore : ∀ p ∈ before, p.LeavesAlike) (hafter : ∀ p ∈ after, p.EntersAlike) :
    DepthBalanced before.length limit (before ++ t.pass :: after) ts ∧
      ∀ s : Stock, s.given.LeavesAlike ∧ s.given.EntersAlike := by
  have hstart := stands_beforeAll (.of_append t hbefore hafter) 0 ts
  obtain ⟨hcalls, hend⟩ := balances_watch before.length limit
    (beforeAll 0 (before ++ t.pass :: after) ts).trees _ hstart
  refine ⟨⟨watch_events .., ?_, ?_, ?_⟩, fun s => ⟨s.leavesAlike_given, s.entersAlike_given⟩⟩
  · exact fun around p u hmem => hcalls _ hmem
  · exact fun around p u hmem => hcalls _ hmem
  · intro us walked account hwalk
    rw [← watch_fst before.length] at hwalk
    obtain ⟨s, hs, hdepth⟩ := (hend us walked account hwalk).getElem
    exact ⟨s.pass, hs, congrArg some hdepth⟩

/-- A timing pass between a bypass pass and another timing pass, over a closure that returns. -/
theorem depth_balanced_between :
    (∀ p ∈ [(Bypass.ofSettings {}).pass], p.LeavesAlike) ∧
    (∀ p ∈ [(Timing.ofSettings {}).pass], p.EntersAlike) ∧
    DepthBalanced 1 3 [(Bypass.ofSettings {}).pass, (Timing.ofSettings {}).pass,
      (Timing.ofSettings {}).pass] [Make.closure [] [Make.ret none]] := by
  have hbefore : ∀ p ∈ [(Bypass.ofSettings {}).pass], p.LeavesAlike :=
    List.forall_mem_singleton.mpr (Stock.bypass (.ofSettings {})).leavesAlike_given
  have hafter : ∀ p ∈ [(Timing.ofSettings {}).pass], p.EntersAlike :=
    List.forall_mem_singleton.mpr (Stock.timing (.ofSettings {})).entersAlike_given
  exact ⟨hbefore, hafter, (depth_balanced _ _ (Timing.ofSettings {}) 3 _ hbefore hafter).1⟩

end Graft
