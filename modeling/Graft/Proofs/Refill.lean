import Graft.Proofs.Slots
import Graft.Proofs.SteadyWalk

/-! # Results in their places

Rebuilding a form is one loop through its slots, whose results are then put in the places of the
children (`Form.rebuild_eq`). For a walk this says that the children of a tree are visited one after
the other (`WalkM.children_eq`). Where the results are images of the children, some of them missing,
the form that comes out is the pruned form, mapped (`Form.refill_placed`).
-/

set_option autoImplicit false

namespace Graft

universe u

/-! ## One loop -/

/-- A computation that draws on a supply of results. -/
def Supply (β α : Type) := List (Option β) → α × List (Option β)

instance (β : Type) : Monad (Supply β) where
  pure a results := (a, results)
  bind w f results := f (w results).1 (w results).2

def Supply.next {β : Type} : Supply β (Option β)
  | [] => (none, [])
  | result :: rest => (result, rest)

/-- The form with the results in place of its children, slot by slot. A child without a result leaves
its list or its optional slot; in a required slot it stays. -/
def Form.refill {γ : Type} (form : Form γ) (results : List (Option γ)) : Form γ :=
  (form.rebuild (fun _ c => do
    let result ← Supply.next
    pure (result.getD c)) (fun _ => Supply.next) results).1

section
variable {m : Type → Type u} [Monad m] [LawfulMonad m] {γ : Type}

/-- The first computation is a loop through a list of children, from whose results the second one draws
the value. What follows may go on with a loop of its own. -/
def Supplies (step : Option Slot × γ → m (Option γ)) (α : Type) (l : List (Option Slot × γ)) (w : m α)
    (s : Supply γ α) : Prop :=
  ∀ (β : Type) (k : List (Option Slot × γ)) (f : α → List (Option γ) → m β),
    (w >>= fun a => each step k >>= f a) =
      each step (l ++ k) >>= fun results => f (s results).1 (s results).2

theorem inOrder_supplies (step : Option Slot × γ → m (Option γ)) : InOrder (Supplies step) where
  pure a := by
    intro β k f
    rw [pure_bind]
    rfl
  bind {α β l k w w' f f'} hw hf := by
    intro δ j g
    have hrest : ∀ a, (f a >>= fun b => each step j >>= g b) =
        each step (k ++ j) >>= fun results => g (f' a results).1 (f' a results).2 :=
      fun a => hf a δ j g
    rw [bind_assoc, funext hrest, hw δ (k ++ j), List.append_assoc]
    rfl

theorem supplies_next (step : Option Slot × γ → m (Option γ)) (c : Option Slot × γ) :
    Supplies step _ [c] (step c) Supply.next := by
  intro β k f
  rw [List.singleton_append, each]
  simp only [bind_assoc, pure_bind]
  rfl

/-- Rebuilding a form is a loop through its slots. -/
theorem Form.rebuild_eq (step : Option Slot × γ → m (Option γ)) (form : Form γ) :
    form.rebuild (fun slot c => do
      let result ← step (some slot, c)
      pure (result.getD c)) (fun c => step (none, c)) =
    (do
      let results ← each step form.slots
      pure (form.refill results)) := by
  have hrequired : ∀ slot c, Supplies step _ [(some slot, c)]
      (step (some slot, c) >>= fun result => pure (result.getD c))
      (Supply.next >>= fun result => pure (result.getD c)) := by
    intro slot c
    exact (inOrder_supplies step).map (fun result => result.getD c) (supplies_next step _)
  have hform := (inOrder_supplies step).rebuild hrequired (fun c => supplies_next step (none, c)) form
    (Form γ) [] fun form _ => pure form
  have hempty : each step [] = pure [] := rfl
  simp only [hempty, pure_bind, bind_pure, List.append_nil] at hform
  exact hform

end

/-! ## Pruned forms -/

section
variable {γ : Type} (keep : γ → Bool) (g : γ → γ)

/-- What becomes of a child in its slot, where only those outside of required slots may vanish. -/
def placed : Option Slot × γ → Option γ
  | (some _, c) => some (g c)
  | (none, c) => kept keep g c

/-- The computation draws the results of the children and gives the value. -/
def Draws (α : Type) (l : List (Option Slot × γ)) (w : Supply γ α) (a : Id α) : Prop :=
  ∀ rest, w (l.map (placed keep g) ++ rest) = (a, rest)

theorem inOrder_draws : InOrder (Draws keep g) where
  pure a := fun _ => rfl
  bind {α β l k w a f b} hw hf := by
    intro rest
    have hstep : (w >>= f) ((l ++ k).map (placed keep g) ++ rest) =
        f (w ((l ++ k).map (placed keep g) ++ rest)).1 (w ((l ++ k).map (placed keep g) ++ rest)).2 := rfl
    rw [hstep, List.map_append, List.append_assoc, hw]
    exact hf a rest

/-- Results that are images of the children, some of them missing, make the pruned form. -/
theorem Form.refill_placed (form : Form γ) :
    form.refill (form.slots.map (placed keep g)) = (form.prune keep).map g := by
  have hrequired : ∀ slot c, Draws keep g _ [(some slot, c)]
      (Supply.next >>= fun result => pure (result.getD c)) (pure (g c)) := fun _ _ _ => rfl
  have hoptional : ∀ c, Draws keep g _ [(none, c)] Supply.next (pure (kept keep g c)) := fun _ _ => rfl
  have hdraws := (inOrder_draws keep g).rebuild_pruned keep g hrequired hoptional form []
  rw [List.append_nil] at hdraws
  rw [refill, hdraws]
  rfl

end

/-! ## Walks -/

theorem Outcome.after_empty {α : Type} (o : Outcome α) : o.after {} = o := by
  cases o <;> simp [after]

theorem Outcome.after_after {α : Type} (x y : Account) (o : Outcome α) :
    (o.after y).after x = o.after (x ++ y) := by
  cases o <;> simp [after, Account.append_assoc]

namespace WalkM
variable {α β δ : Type}

/-- A step that fails goes no further. -/
theorem bind_failed {w : WalkM α} {f : α → WalkM β} {why : Failure} {passes inner : List Pass}
    {x : Account} (h : w passes = .failed why inner x) :
    (w >>= f) passes = .failed why inner x := by
  simp only [Bind.bind, h]

theorem of_bind_done {w : WalkM α} {f : α → WalkM β} {b : β} {passes ps : List Pass} {z : Account}
    (h : (w >>= f) passes = .done b ps z) :
    ∃ a qs x y, w passes = .done a qs x ∧ f a qs = .done b ps y ∧ z = x ++ y := by
  cases hw : w passes with
  | failed why qs x =>
    rw [bind_failed hw] at h
    contradiction
  | done a qs x =>
    rw [bind_done hw] at h
    cases hf : f a qs with
    | failed why rs y =>
      rw [hf] at h
      contradiction
    | done c rs y =>
      rw [hf] at h
      cases h
      exact ⟨a, qs, x, y, rfl, hf, rfl⟩

theorem of_bind_failed {w : WalkM α} {f : α → WalkM β} {why : Failure} {passes ps : List Pass}
    {z : Account} (h : (w >>= f) passes = .failed why ps z) :
    w passes = .failed why ps z ∨
      ∃ a qs x y, w passes = .done a qs x ∧ f a qs = .failed why ps y ∧ z = x ++ y := by
  cases hw : w passes with
  | failed why qs x =>
    rw [bind_failed hw] at h
    cases h
    exact .inl rfl
  | done a qs x =>
    rw [bind_done hw] at h
    cases hf : f a qs with
    | done c rs y =>
      rw [hf] at h
      contradiction
    | failed why rs y =>
      rw [hf] at h
      cases h
      exact .inr ⟨a, qs, x, y, rfl, hf, rfl⟩

theorem map_id (w : WalkM α) : id <$> w = w := by
  funext passes
  have hmap : (id <$> w) passes = (w >>= fun a => pure (id a)) passes := rfl
  rw [hmap]
  cases h : w passes with
  | failed why ps x => exact bind_failed h
  | done a ps x =>
    rw [bind_done h]
    exact congrArg (Outcome.done a ps) (Account.append_empty x)

theorem bind_bind (w : WalkM α) (f : α → WalkM β) (g : β → WalkM δ) :
    w >>= f >>= g = w >>= fun a => f a >>= g := by
  funext passes
  cases h : w passes with
  | failed why ps x => rw [bind_failed h, bind_failed (bind_failed h)]
  | done a ps x =>
    rw [bind_done h]
    cases hf : f a ps with
    | failed why qs y =>
      have hbind : (w >>= f) passes = .failed why qs (x ++ y) := by rw [bind_done h, hf]; rfl
      rw [bind_failed hbind, bind_failed hf]
      rfl
    | done b qs y =>
      have hbind : (w >>= f) passes = .done b qs (x ++ y) := by rw [bind_done h, hf]; rfl
      rw [bind_done hbind, bind_done hf, Outcome.after_after]

instance : LawfulMonad WalkM :=
  LawfulMonad.mk' WalkM map_id (fun _ _ => funext fun _ => Outcome.after_empty _) bind_bind

/-- Visits a child in its slot; in a required slot it has to stay. -/
def place (parent : Kind) (visit : Tree → WalkM (Option Tree)) : Option Slot × Tree → WalkM (Option Tree)
  | (none, c) => visit c
  | (some slot, c) => do
    let result ← visit c
    let t ← require parent slot result
    pure (some t)

theorem place_done {parent : Kind} {visit : Tree → WalkM (Option Tree)} {c : Option Slot × Tree}
    {r : Option Tree} {passes ps : List Pass} {x : Account}
    (h : place parent visit c passes = .done r ps x) : visit c.2 passes = .done r ps x := by
  obtain ⟨slot, c⟩ := c
  cases slot with
  | none => exact h
  | some slot =>
    obtain ⟨result, qs, y, z, hvisit, hrest, rfl⟩ := of_bind_done h
    cases result with
    | none => contradiction
    | some t =>
      cases hrest
      exact hvisit.trans (congrArg _ (Account.append_empty y).symm)

theorem place_failed {parent : Kind} {visit : Tree → WalkM (Option Tree)} {c : Option Slot × Tree}
    {why : Failure} {passes ps : List Pass} {x : Account}
    (h : place parent visit c passes = .failed why ps x) :
    visit c.2 passes = .failed why ps x ∨
      ∃ slot, c.1 = some slot ∧ why = .lostChild parent slot ∧ visit c.2 passes = .done none ps x := by
  obtain ⟨slot, c⟩ := c
  cases slot with
  | none => exact .inl h
  | some slot =>
    obtain hvisit | ⟨result, qs, y, z, hvisit, hrest, rfl⟩ := of_bind_failed h
    · exact .inl hvisit
    · cases result with
      | some t => contradiction
      | none =>
        cases hrest
        exact .inr ⟨slot, rfl, rfl, hvisit.trans (congrArg _ (Account.append_empty y).symm)⟩

/-- The children of a tree are visited slot by slot, and what the visits give is put in their places. -/
theorem children_eq (visit : Tree → WalkM (Option Tree)) (t : Tree) :
    WalkM.children visit t = (do
      let results ← each (place t.kind visit) t.form.slots
      pure ⟨t.form.refill results, t.attrs⟩) := by
  have hrequired : (fun slot c => visit c >>= require t.kind slot) = fun slot c =>
      place t.kind visit (some slot, c) >>= fun result => pure (result.getD c) := by
    funext slot c
    simp only [place, bind_assoc, pure_bind, Option.getD_some, bind_pure]
  have hform := Form.rebuild_eq (place t.kind visit) t.form
  rw [← hrequired] at hform
  have hoptional : (fun c => place t.kind visit (none, c)) = visit := rfl
  rw [hoptional] at hform
  rw [WalkM.children, hform, bind_assoc]
  simp only [pure_bind]

end WalkM

/-- A forest is walked like the slots of a list. -/
theorem walk_eq (parent : Kind) (limit : Nat) (ts : Forest) :
    walk limit ts = (do
      let results ← each (WalkM.place parent (visit limit)) (loose ts)
      pure (results.flatMap Option.toList)) := by
  rw [walk]
  induction ts with
  | nil => rfl
  | cons t ts ih =>
    have hstep : each (WalkM.place parent (visit limit)) (loose (t :: ts)) = (do
        let result ← visit limit t
        let results ← each (WalkM.place parent (visit limit)) (loose ts)
        pure (result :: results)) := rfl
    rw [collect, ih, hstep]
    simp only [bind_assoc, pure_bind, List.flatMap_cons]

end Graft
