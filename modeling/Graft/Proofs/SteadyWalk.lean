import Graft.Proofs.FormLaws
import Graft.Proofs.Slots
import Graft.Walk.Runner

/-! # Steady walks

A part of a walk is steady when it succeeds and hands its passes back as it received them. A walk
through the children of a form is steady as soon as the visits of the children are, and then it maps
the visits over the form and adds up their accounts (`Yields.rebuild`). So a visit is known from what
entering and leaving do and from the visits of the children (`Yields.visit`).
-/

set_option autoImplicit false

namespace Graft

/-! ## Totals -/

namespace Tally

theorem add_def (a b : Tally) :
    a + b = ⟨a.visited + b.visited, a.replaced + b.replaced, a.removed + b.removed,
      a.skipped + b.skipped⟩ := rfl

@[simp] theorem zero_add (a : Tally) : ({} : Tally) + a = a := by
  simp [add_def]

@[simp] theorem add_zero (a : Tally) : a + ({} : Tally) = a := rfl

theorem add_assoc (a b c : Tally) : a + b + c = a + (b + c) := by
  simp [add_def, Nat.add_assoc]

/-- What several parts of a walk did. -/
def total (ts : List Tally) : Tally := ts.foldr (· + ·) {}

theorem total_append (as bs : List Tally) : total (as ++ bs) = total as + total bs := by
  induction as with
  | nil => rw [List.nil_append]; exact (zero_add _).symm
  | cons a as ih =>
    have hcons : ∀ cs, total (a :: cs) = a + total cs := fun _ => rfl
    rw [List.cons_append, hcons, ih, hcons, add_assoc]

/-- A counter of the total adds up what it is in the parts. -/
theorem counter_total (counter : Tally → Nat) (hzero : counter {} = 0)
    (hadd : ∀ a b, counter (a + b) = counter a + counter b) (ts : List Tally) :
    counter (total ts) = (ts.map counter).foldr (· + ·) 0 := by
  induction ts with
  | nil => exact hzero
  | cons t ts ih =>
    have hcons : total (t :: ts) = t + total ts := rfl
    rw [hcons, hadd, ih, List.map_cons, List.foldr_cons]

/-- A counter of the total is zero exactly when it is zero in every part. -/
theorem total_eq_zero_iff (counter : Tally → Nat) (hzero : counter {} = 0)
    (hadd : ∀ a b, counter (a + b) = counter a + counter b) (ts : List Tally) :
    counter (total ts) = 0 ↔ ∀ t ∈ ts, counter t = 0 := by
  induction ts with
  | nil => simpa [total] using hzero
  | cons t ts ih =>
    have hcons : total (t :: ts) = t + total ts := rfl
    rw [hcons, hadd, Nat.add_eq_zero_iff, ih, List.forall_mem_cons]

end Tally

namespace Account

theorem append_def (a b : Account) : a ++ b = ⟨a.tally + b.tally, a.journal ++ b.journal⟩ := rfl

@[simp] theorem append_tally (a b : Account) : (a ++ b).tally = a.tally + b.tally := rfl

@[simp] theorem empty_append (a : Account) : ({} : Account) ++ a = a := by
  simp [append_def]

@[simp] theorem append_empty (a : Account) : a ++ ({} : Account) = a := by
  simp [append_def]

theorem append_assoc (a b c : Account) : a ++ b ++ c = a ++ (b ++ c) := by
  simp [append_def, Tally.add_assoc]

def total (as : List Account) : Account := as.foldr (· ++ ·) {}

@[simp] theorem total_nil : total [] = {} := rfl

@[simp] theorem total_cons (a : Account) (as : List Account) : total (a :: as) = a ++ total as := rfl

@[simp] theorem total_append (as bs : List Account) : total (as ++ bs) = total as ++ total bs := by
  induction as with
  | nil => simp
  | cons a as ih => rw [List.cons_append, total_cons, ih, total_cons, append_assoc]

theorem total_tally (as : List Account) : (total as).tally = Tally.total (as.map (·.tally)) := by
  induction as with
  | nil => rfl
  | cons a as ih =>
    rw [total_cons, append_tally, ih]
    rfl

end Account

/-! ## Steady parts of a walk -/

/-- A step that succeeds goes on with its value and its passes. -/
theorem WalkM.bind_done {α β : Type} {w : WalkM α} {f : α → WalkM β} {a : α}
    {passes inner : List Pass} {x : Account} (h : w passes = .done a inner x) :
    (w >>= f) passes = (f a inner).after x := by
  simp only [Bind.bind, h]

/-- The calls of hooks in a part of a walk. -/
def Outcome.journal {α : Type} : Outcome α → List Event
  | .done _ _ account => account.journal
  | .failed _ _ account => account.journal

/-- A part of a walk that succeeds with a value and hands its passes back unchanged. -/
def Yields {α : Type} (w : WalkM α) (passes : List Pass) (value : α) (account : Account) : Prop :=
  w passes = .done value passes account

namespace Yields
variable {α β : Type} {passes : List Pass}

theorem pure (a : α) : Yields (Pure.pure a) passes a {} := rfl

theorem of_eq {w : WalkM α} {a : α} {x y : Account} (h : Yields w passes a x) (e : x = y) :
    Yields w passes a y := e ▸ h

theorem bind {w : WalkM α} {f : α → WalkM β} {a : α} {b : β} {x y : Account}
    (hw : Yields w passes a x) (hf : Yields (f a) passes b y) :
    Yields (w >>= f) passes b (x ++ y) := by
  rw [Yields, WalkM.bind_done hw, hf]
  rfl

/-- A last step that only reshapes the value. -/
theorem map {w : WalkM α} {a : α} {x : Account} (f : α → β) (hw : Yields w passes a x) :
    Yields (w >>= fun a => Pure.pure (f a)) passes (f a) x :=
  (hw.bind (pure (f a))).of_eq (Account.append_empty x)

/-! ## Lists and forms -/

theorem collect {visit : α → WalkM (Option β)} {g : α → β} {acc : α → Account} (as : List α)
    (h : ∀ a ∈ as, Yields (visit a) passes (some (g a)) (acc a)) :
    Yields (Graft.collect visit as) passes (as.map g) (.total (as.map acc)) := by
  induction as with
  | nil => exact pure []
  | cons a as ih =>
    have hrest := ih fun c hc => h c (List.mem_cons_of_mem a hc)
    exact (h a List.mem_cons_self).bind (hrest.map fun bs => (some (g a)).toList ++ bs)

section
variable {required : Slot → α → WalkM β} {optional : α → WalkM (Option β)} {g : α → β}
  {acc : α → Account}

/-- A child that is visited steadily, in whatever slot it stands. -/
structure Steady (passes : List Pass) (required : Slot → α → WalkM β)
    (optional : α → WalkM (Option β)) (g : α → β) (acc : α → Account) (c : α) : Prop where
  required : ∀ slot, Yields (required slot c) passes (g c) (acc c)
  optional : Yields (optional c) passes (some (g c)) (acc c)

/-- Steady steps follow each other, as long as the children that they go through are visited
steadily. -/
theorem inOrder : InOrder fun δ (l : List (Option Slot × α)) (w : WalkM δ) (d : Id δ) =>
    (∀ c ∈ l, Steady passes required optional g acc c.2) →
      Yields w passes d (.total (l.map fun c => acc c.2)) where
  pure d _ := pure d
  bind {_ _ l k w d f e} hw hf h := by
    rw [List.forall_mem_append] at h
    rw [List.map_append, Account.total_append]
    exact (hw h.1).bind (hf d h.2)

/-- A form whose children are visited steadily is rebuilt as its image, with the accounts of the
children in source order. -/
theorem rebuild (form : Form α)
    (hr : ∀ slot, ∀ c ∈ form.children, Yields (required slot c) passes (g c) (acc c))
    (ho : ∀ c ∈ form.children, Yields (optional c) passes (some (g c)) (acc c)) :
    Yields (form.rebuild required optional) passes (form.map g)
      (.total (form.children.map acc)) := by
  have hsteady : ∀ c ∈ form.slots, Steady passes required optional g acc c.2 := by
    intro c hc
    have hmem : c.2 ∈ form.children := form.map_snd_slots ▸ List.mem_map_of_mem hc
    exact ⟨fun slot => hr slot c.2 hmem, ho c.2 hmem⟩
  have hform := inOrder.rebuild_pruned (fun _ => true) g
    (fun slot c h => ((h _ (List.mem_singleton_self _)).required slot).of_eq
      (Account.append_empty _).symm)
    (fun c h => (h _ (List.mem_singleton_self _)).optional.of_eq (Account.append_empty _).symm)
    form hsteady
  rw [form.prune_true] at hform
  rw [← form.map_snd_slots, List.map_map]
  exact hform

end

/-! ## Visits -/

theorem require {visit : Tree → WalkM (Option Tree)} {c u : Tree} {x : Account} (parent : Kind)
    (slot : Slot) (h : Yields (visit c) passes (some u) x) :
    Yields (do
      let c ← visit c
      WalkM.require parent slot c) passes u x :=
  (h.bind (pure u)).of_eq (Account.append_empty x)

/-- The children of a tree, visited steadily. -/
theorem children {visit : Tree → WalkM (Option Tree)} {g : Tree → Tree} {acc : Tree → Account}
    (t : Tree) (h : ∀ c ∈ t.form.children, Yields (visit c) passes (some (g c)) (acc c)) :
    Yields (WalkM.children visit t) passes ⟨t.form.map g, t.attrs⟩
      (.total (t.form.children.map acc)) := by
  have hrequired : ∀ slot, ∀ c ∈ t.form.children, Yields (do
      let c ← visit c
      WalkM.require t.kind slot c) passes (g c) (acc c) :=
    fun slot c hc => (h c hc).require t.kind slot
  have hform := rebuild t.form hrequired h
  exact hform.map fun form => (⟨form, t.attrs⟩ : Tree)

/-- A visit, from entering, the visits of the children of what was entered, and leaving. The passes
may change on entering as long as leaving changes them back. -/
theorem visit {limit replaced : Nat} {t u v : Tree} {inner : List Pass} {events : List Event}
    {g : Tree → Tree} {acc : Tree → Account} {x : Account}
    (henter : enterAll 0 passes t = ⟨v, false, replaced, inner, events⟩)
    (hchildren : ∀ c ∈ v.form.children, Yields (Graft.visit limit c) inner (some (g c)) (acc c))
    (hleave : leaveAll 0 inner ⟨v.form.map g, v.attrs⟩ = .done (some u) passes x) :
    Yields (Graft.visit (limit + 1) t) passes (some u)
      (⟨{ visited := 1, replaced := replaced }, events⟩ ++
        (.total (v.form.children.map acc) ++ x)) := by
  have houter : WalkM.enter t passes = .done (v, false) inner
      ⟨{ visited := 1, replaced := replaced }, events⟩ := by
    rw [WalkM.enter, henter]
    rfl
  have hinner : (WalkM.children (Graft.visit limit) v >>= WalkM.leave) inner =
      .done (some u) passes (.total (v.form.children.map acc) ++ x) := by
    rw [WalkM.bind_done (children v hchildren), WalkM.leave, hleave]
    rfl
  rw [Yields, Graft.visit, WalkM.bind_done houter]
  show ((WalkM.children (Graft.visit limit) v >>= WalkM.leave) inner).after _ = _
  rw [hinner]
  rfl

end Yields

end Graft
