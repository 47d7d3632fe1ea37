import Graft.Proofs.Slots
import Graft.Proofs.SteadyWalk

/-! # Rebuilding, step by step

`Form.rebuild` does nothing with its effects but put them one after the other. So what holds between
two ways of visiting a child, and is kept when steps follow each other, holds between the two ways of
rebuilding a form (`Respects.rebuild`), whatever the monads are; and a rebuilt form is of the kind it
was (`Form.rebuild_kind`).

The first use is the bound on the nesting of visits: a walk that succeeds within a bound is the same
under every larger one (`walk_of_le`).
-/

set_option autoImplicit false

namespace Graft

universe u v

section
variable {m : Type → Type u} {n : Type → Type v} [Monad m] [Monad n]

/-- A relation between the computations of two monads that is kept when steps follow each other. -/
structure Respects (R : (α : Type) → m α → n α → Prop) : Prop where
  pure : ∀ {α : Type} (a : α), R α (pure a) (pure a)
  bind : ∀ {α β : Type} {w : m α} {w' : n α} {f : α → m β} {f' : α → n β}, R α w w' →
    (∀ a, R β (f a) (f' a)) → R β (w >>= f) (w' >>= f')

namespace Respects
variable {R : (α : Type) → m α → n α → Prop} (h : Respects R) {α β : Type}
include h

theorem inOrder {γ : Type} : InOrder fun α (_ : List (Option Slot × γ)) w w' => R α w w' where
  pure a := h.pure a
  bind hw hf := h.bind hw hf

theorem collect {f : α → m (Option β)} {f' : α → n (Option β)} (hf : ∀ a, R _ (f a) (f' a))
    (as : List α) : R _ (Graft.collect f as) (Graft.collect f' as) := h.inOrder.collect hf as

theorem rebuild {required : Slot → α → m β} {required' : Slot → α → n β} {optional : α → m (Option β)}
    {optional' : α → n (Option β)} (hr : ∀ slot a, R _ (required slot a) (required' slot a))
    (ho : ∀ a, R _ (optional a) (optional' a)) (form : Form α) :
    R _ (form.rebuild required optional) (form.rebuild required' optional') :=
  h.inOrder.rebuild hr ho form

end Respects

/-- A property of computations that is kept when steps follow each other. -/
structure Closed (P : (α : Type) → m α → Prop) : Prop where
  pure : ∀ {α : Type} (a : α), P α (pure a)
  bind : ∀ {α β : Type} {w : m α} {f : α → m β}, P α w → (∀ a, P β (f a)) → P β (w >>= f)

namespace Closed
variable {P : (α : Type) → m α → Prop} (h : Closed P) {α β : Type}
include h

theorem respects : Respects fun α (w w' : m α) => w = w' ∧ P α w where
  pure a := ⟨rfl, h.pure a⟩
  bind hw hf := by
    refine ⟨?_, h.bind hw.2 fun a => (hf a).2⟩
    rw [hw.1, funext fun a => (hf a).1]

theorem collect {f : α → m (Option β)} (hf : ∀ a, P _ (f a)) (as : List α) :
    P _ (Graft.collect f as) := (h.respects.collect (fun a => ⟨rfl, hf a⟩) as).2

theorem rebuild {required : Slot → α → m β} {optional : α → m (Option β)}
    (hr : ∀ slot a, P _ (required slot a)) (ho : ∀ a, P _ (optional a)) (form : Form α) :
    P _ (form.rebuild required optional) :=
  (h.respects.rebuild (fun slot a => ⟨rfl, hr slot a⟩) (fun a => ⟨rfl, ho a⟩) form).2

end Closed

/-- What every computation has that ends by giving a form of the right kind, a rebuilt form has. -/
theorem Form.rebuild_kind {α β : Type} {P : m (Form β) → Prop} (form : Form α)
    (required : Slot → α → m β) (optional : α → m (Option β))
    (hpure : ∀ f : Form β, f.kind = form.kind → P (Pure.pure f))
    (hbind : ∀ {γ : Type} (w : m γ) (f : γ → m (Form β)), (∀ c, P (f c)) → P (w >>= f)) :
    P (form.rebuild required optional) := by
  cases form
  case branch condition yes no =>
    cases no with
    | none => exact hbind _ _ fun _ => hbind _ _ fun _ => hpure _ rfl
    | some no => exact hbind _ _ fun _ => hbind _ _ fun _ => hbind _ _ fun _ => hpure _ rfl
  all_goals
    rw [rebuild]
    repeat refine hbind _ _ fun _ => ?_
    exact hpure _ rfl

end

/-! ## The bound on the nesting of visits -/

/-- The second computation does what the first does, unless the first is nested too deeply. -/
def SameWithin (α : Type) (w w' : WalkM α) : Prop :=
  ∀ passes, (∃ ps x, w passes = .failed .tooDeep ps x) ∨ w' passes = w passes

theorem SameWithin.refl {α : Type} (w : WalkM α) : SameWithin α w w := fun _ => .inr rfl

theorem respects_sameWithin : Respects SameWithin where
  pure a := .refl (pure a)
  bind {α β w w' f f'} hw hf := by
    intro passes
    obtain ⟨ps, x, hdeep⟩ | hsame := hw passes
    · exact .inl ⟨ps, x, by simp only [Bind.bind, hdeep]⟩
    cases h : w passes with
    | failed why ps x => exact .inr (by simp only [Bind.bind, hsame, h])
    | done a ps x =>
      rw [h] at hsame
      rw [WalkM.bind_done h, WalkM.bind_done hsame]
      obtain ⟨qs, y, hdeep⟩ | hrest := hf a ps
      · exact .inl ⟨qs, x ++ y, by rw [hdeep]; rfl⟩
      · exact .inr (by rw [hrest])

theorem sameWithin_children {visit visit' : Tree → WalkM (Option Tree)}
    (h : ∀ c, SameWithin _ (visit c) (visit' c)) (t : Tree) :
    SameWithin _ (WalkM.children visit t) (WalkM.children visit' t) := by
  have hrequired : ∀ slot c, SameWithin _
      (do let c ← visit c; WalkM.require t.kind slot c)
      (do let c ← visit' c; WalkM.require t.kind slot c) :=
    fun slot c => respects_sameWithin.bind (h c) fun _ => .refl _
  exact respects_sameWithin.bind (respects_sameWithin.rebuild hrequired h t.form) fun _ => .refl _

theorem sameWithin_visit (limit : Nat) (t : Tree) :
    SameWithin _ (visit limit t) (visit (limit + 1) t) := by
  induction limit generalizing t with
  | zero => exact fun passes => .inl ⟨passes, {}, rfl⟩
  | succ limit ih =>
    refine respects_sameWithin.bind (.refl (WalkM.enter t)) fun ⟨u, skip⟩ => ?_
    cases skip with
    | true => exact .refl (pure u >>= WalkM.leave)
    | false => exact respects_sameWithin.bind (sameWithin_children ih u) fun _ => .refl _

/-- A walk that succeeds within a bound does the same under every larger one. -/
theorem walk_of_le {limit limit' : Nat} (hle : limit ≤ limit') {ts us : Forest}
    {passes walked : List Pass} {account : Account}
    (h : walk limit ts passes = .done us walked account) :
    walk limit' ts passes = .done us walked account := by
  induction hle with
  | refl => exact h
  | @step limit' _ ih =>
    obtain ⟨ps, x, hdeep⟩ | hsame :=
      respects_sameWithin.collect (fun t => sameWithin_visit limit' t) ts passes
    · rw [walk, hdeep] at ih
      contradiction
    · rw [walk, hsame]
      exact ih

end Graft
