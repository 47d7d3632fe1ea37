import Graft.Proofs.SteadyWalk

/-! # Plans

A plan says what several passes together make of a tree on entering it, at each depth of nesting in
function-like trees, and it comes with a measure that falls from a tree to the children of what is
made of it. So a plan has a result: `rewrite` unfolds as a walk does (`rewrite_eq`), and it is the
only function that does (`eq_rewrite`).

Passes follow a plan when they enter as it says and give back on leaving what they took on entering
(`Follows`). Then a visit gives the result of the plan and its tally (`Follows.visit`), once the
visits may be nested deeper than the measure.
-/

set_option autoImplicit false

namespace Graft

/-- How deeply the children of a tree are nested in function-like trees, when the tree itself is
nested `depth` deep. -/
def Tree.inside (depth : Nat) (t : Tree) : Nat := depth + t.isFunctionLike.toNat

structure Plan where
  /-- What stands in place of a tree once all passes entered it. -/
  enter : Nat → Tree → Tree
  /-- How many passes replaced the tree on entering. -/
  replaced : Nat → Tree → Nat
  levels : Tree → Nat
  descends : ∀ depth t, ∀ c ∈ (enter depth t).form.children, levels c < levels t

namespace Plan

/-! ## Results -/

/-- What a walk makes of a tree and its tally, down to a number of levels. -/
def within (p : Plan) : Nat → Nat → Tree → Tree × Tally
  | 0, _, t => (t, {})
  | limit + 1, depth, t =>
    let form := (p.enter depth t).form.map (p.within limit (t.inside depth))
    (⟨form.map Prod.fst, (p.enter depth t).attrs⟩,
      { visited := 1, replaced := p.replaced depth t } + .total (form.children.map Prod.snd))

def rewrite (p : Plan) (depth : Nat) (t : Tree) : Tree := (p.within (p.levels t + 1) depth t).1

def tally (p : Plan) (depth : Nat) (t : Tree) : Tally := (p.within (p.levels t + 1) depth t).2

variable (p : Plan)

theorem within_eq_within (m n depth : Nat) (t : Tree) (hm : p.levels t < m) (hn : p.levels t < n) :
    p.within m depth t = p.within n depth t := by
  -- induction on the smaller supply of levels; the children of what is entered need one level less
  induction m generalizing n depth t with
  | zero => omega
  | succ m ih =>
    obtain ⟨n, rfl⟩ : ∃ k, n = k + 1 := ⟨n - 1, by omega⟩
    have hform : (p.enter depth t).form.map (p.within m (t.inside depth)) =
        (p.enter depth t).form.map (p.within n (t.inside depth)) := by
      refine Form.map_congr _ fun c hc => ?_
      have hlt := p.descends depth t c hc
      exact ih n (t.inside depth) c (by omega) (by omega)
    rw [within, within, hform]

theorem within_eq {limit : Nat} (depth : Nat) {t : Tree} (h : p.levels t < limit) :
    p.within limit depth t = (p.rewrite depth t, p.tally depth t) :=
  p.within_eq_within limit (p.levels t + 1) depth t h (Nat.lt_succ_self _)

theorem enter_map_within (depth : Nat) (t : Tree) :
    (p.enter depth t).form.map (p.within (p.levels t) (t.inside depth)) =
      (p.enter depth t).form.map fun c => (p.rewrite (t.inside depth) c, p.tally (t.inside depth) c) :=
  Form.map_congr _ fun c hc => p.within_eq (t.inside depth) (p.descends depth t c hc)

/-- The result of a plan unfolds as a walk does: enter the tree, then go on with the children of
what was made of it. -/
theorem rewrite_eq (depth : Nat) (t : Tree) :
    p.rewrite depth t =
      ⟨(p.enter depth t).form.map (p.rewrite (t.inside depth)), (p.enter depth t).attrs⟩ := by
  rw [rewrite, within, enter_map_within]
  simp only [Form.map_map]

theorem tally_eq (depth : Nat) (t : Tree) :
    p.tally depth t = { visited := 1, replaced := p.replaced depth t } +
      .total ((p.enter depth t).form.children.map (p.tally (t.inside depth))) := by
  rw [tally, within, enter_map_within]
  simp only [Form.children_map, List.map_map]
  rfl

/-- What holds of a tree whenever it holds of the children of what is made of it holds of every
tree. -/
theorem induction {motive : Nat → Tree → Prop}
    (step : ∀ depth t, (∀ c ∈ (p.enter depth t).form.children, motive (t.inside depth) c) →
      motive depth t) (depth : Nat) (t : Tree) : motive depth t := by
  suffices h : ∀ n depth t, p.levels t < n → motive depth t from h _ depth t (Nat.lt_succ_self _)
  intro n
  induction n with
  | zero => omega
  | succ n ih =>
    intro depth t ht
    refine step depth t fun c hc => ih (t.inside depth) c ?_
    have hlt := p.descends depth t c hc
    omega

/-- Whatever unfolds as the walk does is the result of the plan. -/
theorem eq_rewrite (R : Nat → Tree → Tree)
    (hR : ∀ depth t, R depth t =
      ⟨(p.enter depth t).form.map (R (t.inside depth)), (p.enter depth t).attrs⟩)
    (depth : Nat) (t : Tree) : R depth t = p.rewrite depth t := by
  induction depth, t using p.induction with
  | step depth t ih => rw [hR, rewrite_eq, Form.map_congr _ ih]

theorem tally_removed (depth : Nat) (t : Tree) : (p.tally depth t).removed = 0 := by
  induction depth, t using p.induction with
  | step depth t ih =>
    rw [tally_eq]
    refine Nat.add_eq_zero_iff.mpr ⟨rfl, ?_⟩
    refine (Tally.total_eq_zero_iff Tally.removed rfl (fun _ _ => rfl) _).mpr ?_
    rwa [List.forall_mem_map]

theorem tally_replaced_eq_zero_iff (depth : Nat) (t : Tree) :
    (p.tally depth t).replaced = 0 ↔ p.replaced depth t = 0 ∧
      ∀ c ∈ (p.enter depth t).form.children, (p.tally (t.inside depth) c).replaced = 0 := by
  rw [tally_eq, Tally.add_def, Nat.add_eq_zero_iff,
    Tally.total_eq_zero_iff Tally.replaced rfl (fun _ _ => rfl), List.forall_mem_map]

/-! ## Passes that follow a plan -/

/-- The passes enter as the plan says, and give back on leaving what they took on entering. They are
given by the depth at which they stand. -/
structure Follows (passes : Nat → List Pass) : Prop where
  enters : ∀ depth t, ∃ events, enterAll 0 (passes depth) t =
    ⟨p.enter depth t, false, p.replaced depth t, passes (t.inside depth), events⟩
  leaves : ∀ depth t u, u.kind = (p.enter depth t).kind →
    ∃ events, leaveAll 0 (passes (t.inside depth)) u = .done (some u) (passes depth) ⟨{}, events⟩

variable {p} {passes : Nat → List Pass}

theorem Follows.visit (h : p.Follows passes) (limit depth : Nat) (t : Tree)
    (hlimit : p.levels t < limit) :
    Yields (Graft.visit limit t) (passes depth) (some (p.rewrite depth t))
      ⟨p.tally depth t, (Graft.visit limit t (passes depth)).journal⟩ := by
  induction limit generalizing depth t with
  | zero => omega
  | succ limit ih =>
    obtain ⟨events, henter⟩ := h.enters depth t
    have hchildren : ∀ c ∈ (p.enter depth t).form.children,
        Yields (Graft.visit limit c) (passes (t.inside depth)) (some (p.rewrite (t.inside depth) c))
          ⟨p.tally (t.inside depth) c,
            (Graft.visit limit c (passes (t.inside depth))).journal⟩ := by
      intro c hc
      have hlt := p.descends depth t c hc
      exact ih (t.inside depth) c (by omega)
    have hkind : (p.rewrite depth t).kind = (p.enter depth t).kind := by
      rw [rewrite_eq]
      exact Form.kind_map _ _
    -- the passes stand one deeper in a function-like tree until they leave it
    obtain ⟨left, hleave⟩ := h.leaves depth t (p.rewrite depth t) hkind
    rw [rewrite_eq] at hleave ⊢
    have hvisit := Yields.visit henter hchildren hleave
    refine hvisit.of_eq ?_
    rw [hvisit, tally_eq]
    simp only [Account.append_def, Account.total_tally, List.map_map, Function.comp_def,
      Tally.add_zero, Outcome.journal]

/-- A walk gives the results of the plan for the trees of a forest, in order, and hands back the
passes as they were. -/
theorem Follows.walk (h : p.Follows passes) (limit depth : Nat) (ts : Forest)
    (hlimit : ∀ t ∈ ts, p.levels t < limit) :
    ∃ account, Yields (Graft.walk limit ts) (passes depth) (ts.map (p.rewrite depth)) account ∧
      account.tally = .total (ts.map (p.tally depth)) := by
  have hwalk := Yields.collect ts fun t ht => h.visit limit depth t (hlimit t ht)
  refine ⟨_, hwalk, ?_⟩
  rw [Account.total_tally, List.map_map]
  rfl

end Plan

end Graft
