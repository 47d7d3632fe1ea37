import Graft.Pass.Bypass
import Graft.Pass.Timing
import Graft.Proofs.Plan
import Graft.Proofs.Redirect

/-! # Stock passes

The timing pass and the bypass pass, in any number and order. On entering a tree a stock pass keeps
it, or puts an end mark into a top-level return, or redirects an access (`enter_cases`); on leaving it
keeps every tree. The depth of a timing pass is the nesting in function-like trees, the same for all
of them.
-/

set_option autoImplicit false

namespace Graft

inductive Stock where
  | timing (t : Timing)
  | bypass (b : Bypass)

namespace Stock

/-! ## Hooks -/

/-- The pass, at a depth of nesting in function-like trees. -/
def pass (depth : Nat) : Stock → Pass
  | timing t => ({ t with depth := depth } : Timing).pass
  | bypass b => b.pass

def answer (depth : Nat) : Stock → Tree → Entering
  | timing t, tree => (Timing.enter { t with depth := depth } tree).2
  | bypass b, tree => (b.enter tree).2

/-- What stands after the pass entered a tree. -/
def enter (depth : Nat) (s : Stock) (t : Tree) : Tree := (s.answer depth t).settle t

/-- What the pass makes of a forest after the walk. -/
def close : Stock → Forest → Forest
  | timing t, ts => t.bracket ts
  | bypass _, ts => ts

theorem inherit_self (form : Form Tree) (attrs : Attributes) :
    (⟨form, attrs⟩ : Tree).inherit attrs = ⟨form, attrs⟩ := by
  rw [Tree.inherit, Attributes.orElse, ite_self]
  rfl

/-- What entering does: nothing, an end mark in a top-level return, or a redirected access. -/
theorem enter_cases (depth : Nat) (s : Stock) (t : Tree) :
    s.answer depth t = .keep t ∧ s.enter depth t = t ∨
    (∃ timing value, s = .timing timing ∧ depth = 0 ∧ t.form = .ret value ∧
      (s.answer depth t).replaces = 1 ∧ (s.answer depth t).skips = false ∧
      s.enter depth t = ⟨.ret (some (timing.endMarkFor value)), t.attrs⟩) ∨
    ∃ b access, s = .bypass b ∧ b.Redirects t.form access ∧
      (s.answer depth t).replaces = 1 ∧ (s.answer depth t).skips = false ∧
      s.enter depth t = b.redirect access t := by
  cases s with
  | timing timing =>
    rw [enter, answer, Timing.enter]
    by_cases hf : t.isFunctionLike
    · exact .inl (by rw [if_pos hf]; exact ⟨rfl, rfl⟩)
    rw [if_neg hf]
    split
    · next value hform hdepth =>
      exact .inr (.inl ⟨timing, value, rfl, hdepth, hform, rfl, rfl, inherit_self _ _⟩)
    · exact .inl ⟨rfl, rfl⟩
  | bypass b =>
    rw [enter, answer, Bypass.enter]
    split
    · next access haccess =>
      rw [Bypass.access?_eq_some_iff] at haccess
      exact .inr (.inr ⟨b, access, rfl, haccess, rfl, rfl, inherit_self _ _⟩)
    · exact .inl ⟨rfl, rfl⟩

theorem enter_bypass_of_redirects (depth : Nat) {b : Bypass} {t : Tree} {access : Access}
    (h : b.Redirects t.form access) : (bypass b).enter depth t = b.redirect access t := by
  rw [← Bypass.access?_eq_some_iff] at h
  rw [enter, answer, Bypass.enter, h]
  exact inherit_self _ _

theorem enter_bypass_of_not_redirects (depth : Nat) {b : Bypass} {t : Tree}
    (h : ∀ access, ¬b.Redirects t.form access) : (bypass b).enter depth t = t := by
  rw [← Bypass.access?_eq_none_iff] at h
  rw [enter, answer, Bypass.enter, h]
  rfl

theorem keep_bypass_of_not_redirects (depth : Nat) {b : Bypass} {t : Tree}
    (h : ∀ access, ¬b.Redirects t.form access) : (bypass b).answer depth t = .keep t := by
  rw [← Bypass.access?_eq_none_iff] at h
  rw [answer, Bypass.enter, h]

theorem replaces_bypass_of_redirects (depth : Nat) {b : Bypass} {t : Tree} {access : Access}
    (h : b.Redirects t.form access) : ((bypass b).answer depth t).replaces = 1 := by
  rw [← Bypass.access?_eq_some_iff] at h
  rw [answer, Bypass.enter, h]
  rfl

/-- Entering with the bypass pass commutes with a transparent map of the children, whatever the
attributes of the tree. -/
theorem enter_bypass_map (depth : Nat) (b : Bypass) {g : Tree → Tree} (hg : Bypass.Transparent g)
    (t : Tree) (attrs : Attributes) :
    (bypass b).enter depth ⟨t.form.map g, attrs⟩ =
      ⟨((bypass b).enter depth t).form.map g, attrs⟩ := by
  by_cases h : ∃ access, b.Redirects t.form access
  · obtain ⟨access, h⟩ := h
    have hmap : b.Redirects (⟨t.form.map g, attrs⟩ : Tree).form access := h.map hg
    rw [enter_bypass_of_redirects depth h, enter_bypass_of_redirects depth hmap]
    show (⟨.staticCall _ _ (Access.arguments (t.form.map g)), attrs⟩ : Tree) = _
    rw [h.arguments_map hg]
    rfl
  · have hnot := not_exists.mp h
    have hmap : ∀ access, ¬b.Redirects (⟨t.form.map g, attrs⟩ : Tree).form access :=
      fun access h => hnot access (h.of_map hg)
    rw [enter_bypass_of_not_redirects depth hnot, enter_bypass_of_not_redirects depth hmap]

theorem enter_timing_ret (t : Timing) (value : Option Tree) (attrs : Attributes) :
    (timing t).enter 0 ⟨.ret value, attrs⟩ = ⟨.ret (some (t.endMarkFor value)), attrs⟩ :=
  inherit_self _ _

theorem keep_timing_of_not_ret (depth : Nat) (t : Timing) {u : Tree}
    (h : u.kind = .ret → depth ≠ 0) :
    (timing t).answer depth u = .keep u ∧ (timing t).enter depth u = u := by
  obtain hkeep | ⟨_, value, -, hdepth, hform, -⟩ | ⟨b, _, hs, -⟩ := (timing t).enter_cases depth u
  · exact hkeep
  · have hkind : u.kind = .ret := by rw [Tree.kind, hform]; rfl
    exact absurd hdepth (h hkind)
  · contradiction

theorem skips_answer (depth : Nat) (s : Stock) (t : Tree) : (s.answer depth t).skips = false := by
  obtain ⟨h, -⟩ | ⟨_, _, -, -, -, -, h, -⟩ | ⟨_, _, -, -, -, h, -⟩ := s.enter_cases depth t
  · rw [h]
    rfl
  · exact h
  · exact h

theorem attrs_enter (depth : Nat) (s : Stock) (t : Tree) : (s.enter depth t).attrs = t.attrs := by
  obtain ⟨-, h⟩ | ⟨_, _, -, -, -, -, -, h⟩ | ⟨_, _, -, -, -, -, h⟩ := s.enter_cases depth t
  · rw [h]
  · rw [h]
  · rw [h]
    rfl

theorem isFunctionLike_enter (depth : Nat) (s : Stock) (t : Tree) :
    (s.enter depth t).isFunctionLike = t.isFunctionLike := by
  obtain ⟨-, h⟩ | ⟨timing, value, -, -, hform, -, -, h⟩ | ⟨b, access, -, haccess, -, -, h⟩ :=
    s.enter_cases depth t
  · rw [h]
  · rw [h, Tree.isFunctionLike, Tree.isFunctionLike, Tree.kind, Tree.kind, hform]
    rfl
  · rw [h]
    exact haccess.not_isFunctionLike.symm

theorem inside_enter (d depth : Nat) (s : Stock) (t : Tree) :
    (s.enter depth t).inside d = t.inside d := by
  rw [Tree.inside, isFunctionLike_enter, Tree.inside]

theorem doBefore_pass (depth : Nat) (s : Stock) (ts : Forest) :
    (s.pass depth).doBefore ts = (s.pass 0, ts) := by
  cases s <;> rfl

theorem doEnter_pass (depth : Nat) (s : Stock) (t : Tree) :
    (s.pass depth).doEnter t = (s.pass (t.inside depth), s.answer depth t) := by
  cases s with
  | timing timing =>
    cases hf : t.isFunctionLike with
    | true => simp [pass, answer, Pass.doEnter, Timing.pass, Timing.enter, Tree.inside, hf]
    | false =>
      simp only [pass, answer, Pass.doEnter, Timing.pass, Timing.enter, Tree.inside, hf,
        Bool.false_eq_true, if_false]
      split <;> rfl
  | bypass b =>
    simp only [pass, answer, Pass.doEnter, Bypass.pass, Bypass.enter]
    split <;> rfl

theorem doLeave_pass (depth : Nat) (s : Stock) (t : Tree) :
    (s.pass (t.inside depth)).doLeave t = some (s.pass depth, .keep t) := by
  cases s with
  | timing timing =>
    cases hf : t.isFunctionLike <;>
      simp [pass, Pass.doLeave, Timing.pass, Timing.leave, Tree.inside, hf]
  | bypass b => rfl

theorem doAfter_pass (depth : Nat) (s : Stock) (ts : Forest) :
    (s.pass depth).doAfter ts = (s.pass depth, s.close ts) := by
  cases s <;> rfl

/-! ## Several stock passes -/

/-- What stands after all passes entered a tree. -/
def enters (depth : Nat) : List Stock → Tree → Tree
  | [], t => t
  | s :: rest, t => enters depth rest (s.enter depth t)

/-- How many of the passes replace the tree on entering. -/
def replacements (depth : Nat) : List Stock → Tree → Nat
  | [], _ => 0
  | s :: rest, t => (s.answer depth t).replaces + replacements depth rest (s.enter depth t)

/-- What the passes make of a forest after the walk. -/
def closes : List Stock → Forest → Forest
  | [], ts => ts
  | s :: rest, ts => closes rest (s.close ts)

theorem beforeAll_map_pass (depth i : Nat) (ps : List Stock) (ts : Forest) :
    ∃ events, beforeAll i (ps.map (pass depth)) ts = ⟨ts, ps.map (pass 0), events⟩ := by
  induction ps generalizing i with
  | nil => exact ⟨[], rfl⟩
  | cons s ps ih =>
    obtain ⟨events, h⟩ := ih (i + 1)
    refine ⟨.before i ts :: events, ?_⟩
    simp only [List.map_cons, beforeAll, doBefore_pass, h]

theorem enterAll_map_pass (depth i : Nat) (ps : List Stock) (t : Tree) :
    ∃ events, enterAll i (ps.map (pass depth)) t =
      ⟨enters depth ps t, false, replacements depth ps t, ps.map (pass (t.inside depth)), events⟩ := by
  induction ps generalizing i t with
  | nil => exact ⟨[], rfl⟩
  | cons s ps ih =>
    -- the later passes see what this one made of the tree, at the same depth as the tree itself
    obtain ⟨events, h⟩ := ih (i + 1) (s.enter depth t)
    rw [inside_enter] at h
    rw [enter] at h
    refine ⟨.enter i t (s.answer depth t) :: events, ?_⟩
    simp only [List.map_cons, enterAll, doEnter_pass, h, skips_answer, Bool.false_or]
    rfl

theorem isFunctionLike_enters (depth : Nat) (ps : List Stock) (t : Tree) :
    (enters depth ps t).isFunctionLike = t.isFunctionLike := by
  induction ps generalizing t with
  | nil => rfl
  | cons s ps ih => rw [enters, ih, isFunctionLike_enter]

theorem leaveAll_map_pass (depth i : Nat) (ps : List Stock) (t : Tree) :
    ∃ events, leaveAll i (ps.map (pass (t.inside depth))) t =
      .done (some t) (ps.map (pass depth)) ⟨{}, events⟩ := by
  induction ps generalizing i with
  | nil => exact ⟨[], rfl⟩
  | cons s ps ih =>
    obtain ⟨events, h⟩ := ih (i + 1)
    refine ⟨.leave i t (.keep t) :: events, ?_⟩
    simp only [List.map_cons, leaveAll, doLeave_pass, h]
    rfl

theorem afterAll_map_pass (depth i : Nat) (ps : List Stock) (ts : Forest) :
    ∃ events, afterAll i (ps.map (pass depth)) ts =
      ⟨closes ps ts, ps.map (pass depth), events⟩ := by
  induction ps generalizing i ts with
  | nil => exact ⟨[], rfl⟩
  | cons s ps ih =>
    obtain ⟨events, h⟩ := ih (i + 1) (s.close ts)
    refine ⟨.after i ts :: events, ?_⟩
    simp only [List.map_cons, afterAll, doAfter_pass, h]
    rfl

end Stock

end Graft
