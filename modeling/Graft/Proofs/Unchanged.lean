import Graft.Proofs.Lasting
import Graft.Proofs.Refill
import Graft.Tree.Make

/-! # Runs without change

A pass is faithful when it changes trees only by replacing or removing them: what it keeps or skips it
hands back as it was, and so the forest before and after the walk. A run of faithful passes that reports
no change gives back the forest that it was given, and if nothing was skipped it visited every node once
(`run_unchanged`).

A walk takes every tree apart and puts it together again, so this is shown part by part: each part that
reports no change gives back what it was made of (`Retains`).
-/

set_option autoImplicit false

namespace Graft

/-! ## Faithful passes -/

/-- On entering `t`, another tree comes only as a replacement. -/
def Entering.Faithful (t : Tree) : Entering → Prop
  | keep u => u = t
  | skip u => u = t
  | replace _ => True

def Leaving.Faithful (t : Tree) : Leaving → Prop
  | keep u => u = t
  | _ => True

structure Pass.HandsBack (p : Pass) : Prop where
  before : ∀ ts, (p.doBefore ts).2 = ts
  enter : ∀ t, (p.doEnter t).2.Faithful t
  leave : ∀ t q answer, p.doLeave t = some (q, answer) → answer.Faithful t
  after : ∀ ts, (p.doAfter ts).2 = ts

def Pass.Faithful : Pass → Prop := Pass.Always Pass.HandsBack

theorem Tally.changed_eq_false_iff {x : Tally} :
    x.changed = false ↔ x.replaced = 0 ∧ x.removed = 0 := by
  simp [changed]

theorem Tally.changed_add {x y : Tally} :
    (x + y).changed = false ↔ x.changed = false ∧ y.changed = false := by
  simp only [changed_eq_false_iff, add_def]
  omega

/-! ## Entering and leaving -/

theorem enterAll_unchanged {i : Nat} {passes : List Pass} {t : Tree} (h : ∀ p ∈ passes, p.Faithful)
    (hreplaced : (enterAll i passes t).replaced = 0) : (enterAll i passes t).tree = t := by
  induction passes generalizing i t with
  | nil => rfl
  | cons p passes ih =>
    obtain ⟨hp, hpasses⟩ := List.forall_mem_cons.mp h
    have hsum : (p.doEnter t).2.replaces +
        (enterAll (i + 1) passes ((p.doEnter t).2.settle t)).replaced = 0 := hreplaced
    have hfaithful := hp.now.enter t
    have hsettle : (p.doEnter t).2.settle t = t := by
      cases hanswer : (p.doEnter t).2 with
      | keep u =>
        rw [hanswer] at hfaithful
        exact hfaithful
      | skip u =>
        rw [hanswer] at hfaithful
        exact hfaithful
      | replace u =>
        rw [hanswer] at hsum
        simp [Entering.replaces] at hsum
    rw [hsettle] at hsum
    have htree : (enterAll i (p :: passes) t).tree =
        (enterAll (i + 1) passes ((p.doEnter t).2.settle t)).tree := rfl
    rw [htree, hsettle]
    exact ih hpasses (by omega)

theorem leaveAll_unchanged {i : Nat} {passes left : List Pass} {t : Tree} {result : Option Tree}
    {x : Account} (h : ∀ p ∈ passes, p.Faithful) (hleave : leaveAll i passes t = .done result left x)
    (hx : x.tally.changed = false) :
    result = some t ∧ x.tally.visited = 0 ∧ x.tally.skipped = 0 := by
  induction passes generalizing i t left x with
  | nil =>
    cases hleave
    exact ⟨rfl, rfl, rfl⟩
  | cons p passes ih =>
    obtain ⟨hp, hpasses⟩ := List.forall_mem_cons.mp h
    obtain ⟨q, answer, hq, ⟨rfl, -, -, rfl⟩ | ⟨u, rest, y, hu, hrest, -, rfl⟩⟩ :=
      leaveAll_cons_done hleave
    · contradiction
    · obtain ⟨hhere, hy⟩ := Tally.changed_add.mp hx
      have hfaithful := hp.now.leave t q answer hq
      cases answer with
      | remove => contradiction
      | replace v => contradiction
      | keep v =>
        cases hu
        have hkept : u = t := hfaithful
        subst hkept
        obtain ⟨hresult, hvisited, hskipped⟩ := ih hpasses hrest hy
        exact ⟨hresult, by simp [Tally.add_def, hvisited], by simp [Tally.add_def, hskipped]⟩

/-! ## Walks -/

/-- A part of a walk with faithful passes. If it succeeds and reports no change it gives the value, and
if it skips nothing it makes so many visits. -/
def Retains {α : Type} (w : WalkM α) (a : α) (count : Nat) : Prop :=
  ∀ ⦃passes ps : List Pass⦄ ⦃b : α⦄ ⦃x : Account⦄, (∀ p ∈ passes, p.Faithful) →
    w passes = .done b ps x → x.tally.changed = false →
    b = a ∧ (∀ p ∈ ps, p.Faithful) ∧ (x.tally.skipped = 0 → x.tally.visited = count)

namespace Retains
variable {α β γ : Type}

theorem pure (a : α) : Retains (Pure.pure a) a 0 := by
  intro passes ps b x h hdone _
  cases hdone
  exact ⟨rfl, h, fun _ => rfl⟩

theorem bind {w : WalkM α} {f : α → WalkM β} {a : α} {b : β} {m n : Nat} (hw : Retains w a m)
    (hf : Retains (f a) b n) : Retains (w >>= f) b (m + n) := by
  intro passes ps c z h hdone hz
  obtain ⟨a', qs, x, y, hfirst, hrest, rfl⟩ := WalkM.of_bind_done hdone
  obtain ⟨hx, hy⟩ := Tally.changed_add.mp hz
  obtain ⟨rfl, hqs, hm⟩ := hw h hfirst hx
  obtain ⟨rfl, hps, hn⟩ := hf hqs hrest hy
  refine ⟨rfl, hps, fun hskipped => ?_⟩
  rw [Account.append_tally, Tally.add_def] at hskipped ⊢
  obtain ⟨hxs, hys⟩ := Nat.add_eq_zero_iff.mp hskipped
  rw [hm hxs, hn hys]

theorem map {w : WalkM α} {a : α} {n : Nat} (f : α → β) (hw : Retains w a n) :
    Retains (w >>= fun a => Pure.pure (f a)) (f a) n :=
  hw.bind (f := fun a => Pure.pure (f a)) (pure (f a))

theorem each {step : γ → WalkM β} {g : γ → β} {count : γ → Nat} (cs : List γ)
    (h : ∀ c ∈ cs, Retains (step c) (g c) (count c)) :
    Retains (each step cs) (cs.map g) ((cs.map count).foldr (· + ·) 0) := by
  induction cs with
  | nil => exact pure []
  | cons c cs ih =>
    obtain ⟨hc, hcs⟩ := List.forall_mem_cons.mp h
    exact hc.bind ((ih hcs).map (g c :: ·))

theorem place {visit : Tree → WalkM (Option Tree)} {c : Option Slot × Tree} {n : Nat} (parent : Kind)
    (h : Retains (visit c.2) (some c.2) n) : Retains (WalkM.place parent visit c) (some c.2) n := by
  intro passes ps b x hpasses hdone hx
  exact h hpasses (WalkM.place_done hdone) hx

theorem children {visit : Tree → WalkM (Option Tree)} {t : Tree}
    (h : ∀ c ∈ t.form.children, Retains (visit c) (some c) c.count) :
    Retains (WalkM.children visit t) t ((t.form.children.map Tree.count).foldr (· + ·) 0) := by
  have hslots : ∀ c ∈ t.form.slots, Retains (WalkM.place t.kind visit c) (some c.2) c.2.count := by
    intro c hc
    refine place t.kind (h c.2 ?_)
    rw [← Form.map_snd_slots]
    exact List.mem_map_of_mem hc
  have hform : t.form.refill (t.form.slots.map fun c => some c.2) = t.form := by
    have hplaced : (fun c : Option Slot × Tree => some c.2) = placed (fun _ => true) fun c => c := by
      funext ⟨slot, c⟩
      cases slot <;> rfl
    rw [hplaced, Form.refill_placed, Form.prune_true, Form.map_id]
  have htree := (each t.form.slots hslots).map fun results =>
    (⟨t.form.refill results, t.attrs⟩ : Tree)
  rw [hform, Tree.mk_form_attrs] at htree
  rw [WalkM.children_eq, ← Form.map_snd_slots, List.map_map]
  exact htree

theorem leave (t : Tree) : Retains (WalkM.leave t) (some t) 0 := by
  intro passes ps b x h hdone hx
  obtain ⟨rfl, hvisited, -⟩ := leaveAll_unchanged h hdone hx
  exact ⟨rfl, always_leaveAll h hdone, fun _ => hvisited⟩

theorem visit (limit : Nat) (t : Tree) : Retains (visit limit t) (some t) t.count := by
  induction limit generalizing t with
  | zero =>
    intro passes ps b x _ hdone _
    contradiction
  | succ limit ih =>
    intro passes ps b z h hdone hz
    obtain ⟨⟨u, skip⟩, qs, x, y, henter, hrest, rfl⟩ := WalkM.of_bind_done hdone
    obtain ⟨hx, hy⟩ := Tally.changed_add.mp hz
    cases henter
    have hreplaced : (enterAll 0 passes t).replaced = 0 := (Tally.changed_eq_false_iff.mp hx).1
    have hpasses := always_enterAll 0 passes t h
    rw [enterAll_unchanged h hreplaced] at hrest
    cases hskip : (enterAll 0 passes t).skip with
    | true =>
      rw [hskip] at hrest
      obtain ⟨rfl, hps, -⟩ := (pure t).bind (leave t) hpasses hrest hy
      refine ⟨rfl, hps, fun hskipped => ?_⟩
      simp [Tally.add_def] at hskipped
    | false =>
      rw [hskip] at hrest
      obtain ⟨rfl, hps, hcount⟩ := (children fun c _ => ih c).bind (leave t) hpasses hrest hy
      refine ⟨rfl, hps, fun hskipped => ?_⟩
      simp only [Account.append_tally, Tally.add_def] at hskipped ⊢
      rw [hcount (Nat.add_eq_zero_iff.mp hskipped).2, ← t.mk_form_attrs, Tree.count_mk]
      rfl

theorem walk (limit : Nat) (ts : Forest) : Retains (walk limit ts) ts ts.count := by
  induction ts with
  | nil => exact pure []
  | cons t ts ih => exact (visit limit t).bind (ih.map (t :: ·))

end Retains

/-! ## Runs -/

theorem beforeAll_trees {i : Nat} {passes : List Pass} {ts : Forest} (h : ∀ p ∈ passes, p.Faithful) :
    (beforeAll i passes ts).trees = ts := by
  induction passes generalizing i with
  | nil => rfl
  | cons p passes ih =>
    obtain ⟨hp, hpasses⟩ := List.forall_mem_cons.mp h
    have htrees : (beforeAll i (p :: passes) ts).trees =
        (beforeAll (i + 1) passes (p.doBefore ts).2).trees := rfl
    rw [htrees, hp.now.before]
    exact ih hpasses

theorem afterAll_trees {i : Nat} {passes : List Pass} {ts : Forest} (h : ∀ p ∈ passes, p.Faithful) :
    (afterAll i passes ts).trees = ts := by
  induction passes generalizing i with
  | nil => rfl
  | cons p passes ih =>
    obtain ⟨hp, hpasses⟩ := List.forall_mem_cons.mp h
    have htrees : (afterAll i (p :: passes) ts).trees =
        (afterAll (i + 1) passes (p.doAfter ts).2).trees := rfl
    rw [htrees, hp.now.after]
    exact ih hpasses

/-- If a run of faithful passes succeeds and reports no change, its result is the forest that it was
given; and if moreover no pass skipped anything, it visited every node of the forest. -/
theorem run_unchanged (limit : Nat) (passes : List Pass) (ts us : Forest) (tally : Tally)
    (hpasses : ∀ p ∈ passes, p.Faithful)
    (hrun : (runWithin limit passes ts).result = .ok (us, tally)) (hchanged : tally.changed = false) :
    us = ts ∧ (tally.skipped = 0 → tally.visited = ts.count) := by
  rw [runWithin, beforeAll_trees hpasses] at hrun
  cases hwalk : walk limit ts (beforeAll 0 passes ts).passes with
  | failed why ps x =>
    rw [hwalk] at hrun
    contradiction
  | done walked ps x =>
    rw [hwalk] at hrun
    cases hrun
    obtain ⟨rfl, hps, hcount⟩ :=
      Retains.walk limit ts (always_beforeAll 0 passes ts hpasses) hwalk hchanged
    exact ⟨afterAll_trees hps, hcount⟩

/-- A pass that keeps trees until it has entered more than `n`, and from then on removes what it
leaves. -/
def Pass.rationing (n : Nat) : Pass where
  State := Nat
  name := "rationing"
  state := 0
  enter := fun k t => (k + 1, .keep t)
  leave := fun k t => some (k, if n < k then .remove else .keep t)

theorem Pass.faithful_rationing (n : Nat) : (rationing n).Faithful := by
  refine .of_state fun k => ⟨fun _ => rfl, fun _ => rfl, fun t q answer hq => ?_, fun _ => rfl⟩
  cases hq
  split
  · trivial
  · rfl

/-- Two statements of three nodes do not exhaust a ration of three. -/
theorem run_unchanged_rationing :
    (runWithin 2 [.rationing 3] [Make.echo [Make.null], Make.null]).result =
        .ok ([Make.echo [Make.null], Make.null], ⟨3, 0, 0, 0⟩) ∧
      3 = Forest.count [Make.echo [Make.null], Make.null] := by
  have hrun : (runWithin 2 [.rationing 3] [Make.echo [Make.null], Make.null]).result =
      .ok ([Make.echo [Make.null], Make.null], ⟨3, 0, 0, 0⟩) := rfl
  have hfaithful : ∀ p ∈ [Pass.rationing 3], p.Faithful :=
    List.forall_mem_singleton.mpr (Pass.faithful_rationing 3)
  exact ⟨hrun, (run_unchanged 2 [.rationing 3] _ _ _ hfaithful hrun rfl).2 rfl⟩

end Graft
