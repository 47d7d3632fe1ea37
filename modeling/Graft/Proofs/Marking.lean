import Graft.Proofs.StockPlan

/-! # Marked returns

`mark` puts an end mark into every return that stands in no function-like tree, and leaves
function-like trees as they are. It is what a walk of the timing pass does (`rewrite_timing`): the
depth that the pass counts is zero exactly outside of function-like trees. After the walk the fragment
is bracketed (`run_timing`).
-/

set_option autoImplicit false

namespace Graft.Timing

/-! ## Marking -/

/-- The tree with an end mark in each of its top-level returns. -/
def mark (t : Timing) : Tree → Tree :=
  Tree.recurse fun form attrs =>
    if form.kind.isFunctionLike then ⟨form.map Prod.fst, attrs⟩
    else
      match form with
      | .ret value => ⟨.ret (some (t.endMarkFor (value.map Prod.snd))), attrs⟩
      | form => ⟨form.map Prod.snd, attrs⟩

variable (t : Timing)

theorem mark_of_isFunctionLike {u : Tree} (h : u.isFunctionLike = true) : t.mark u = u := by
  obtain ⟨form, attrs⟩ := u
  have hkind : (form.map fun c => (c, t.mark c)).kind.isFunctionLike = true := by
    rw [Form.kind_map]
    exact h
  rw [mark, Tree.recurse_mk]
  refine (if_pos hkind).trans ?_
  rw [Form.map_map, Form.map_id]

theorem mark_ret (value : Option Tree) (attrs : Attributes) :
    t.mark ⟨.ret value, attrs⟩ = ⟨.ret (some (t.endMarkFor (value.map t.mark))), attrs⟩ := by
  rw [mark, Tree.recurse_mk]
  cases value <;> rfl

theorem mark_of_kind_ne {u : Tree} (h : u.isFunctionLike = false) (hret : u.kind ≠ .ret) :
    t.mark u = ⟨u.form.map t.mark, u.attrs⟩ := by
  obtain ⟨form, attrs⟩ := u
  have hmap : (form.map fun c => (c, t.mark c)).map Prod.snd = form.map t.mark :=
    Form.map_map _ _ _
  rw [mark, Tree.recurse_mk]
  rw [mark] at hmap
  rw [← hmap]
  cases form <;> first | rfl | contradiction

theorem mark_branch (condition : Tree) (yes : Forest) (no : Option Forest) (attrs : Attributes) :
    t.mark ⟨.branch condition yes no, attrs⟩ =
      ⟨.branch (t.mark condition) (yes.map t.mark) (no.map (·.map t.mark)), attrs⟩ :=
  t.mark_of_kind_ne rfl fun h => nomatch h

theorem mark_loop (condition : Tree) (body : Forest) (attrs : Attributes) :
    t.mark ⟨.loop condition body, attrs⟩ = ⟨.loop (t.mark condition) (body.map t.mark), attrs⟩ :=
  t.mark_of_kind_ne rfl fun h => nomatch h

theorem mark_block (statements : Forest) (attrs : Attributes) :
    t.mark ⟨.block statements, attrs⟩ = ⟨.block (statements.map t.mark), attrs⟩ :=
  t.mark_of_kind_ne rfl fun h => nomatch h

theorem mark_eq_cases (u : Tree) :
    (u.isFunctionLike = true ∧ t.mark u = u) ∨
    (∃ value attrs, u = ⟨.ret value, attrs⟩ ∧
      t.mark u = ⟨.ret (some (t.endMarkFor (value.map t.mark))), attrs⟩) ∨
    (u.isFunctionLike = false ∧ u.kind ≠ .ret ∧ t.mark u = ⟨u.form.map t.mark, u.attrs⟩) := by
  cases hlike : u.isFunctionLike with
  | true => exact .inl ⟨rfl, t.mark_of_isFunctionLike hlike⟩
  | false =>
    by_cases hret : u.kind = .ret
    · obtain ⟨form, attrs⟩ := u
      cases form with
      | ret value => exact .inr (.inl ⟨value, attrs, rfl, t.mark_ret value attrs⟩)
      | _ => contradiction
    · exact .inr (.inr ⟨rfl, hret, t.mark_of_kind_ne hlike hret⟩)

@[simp] theorem attrs_mark (u : Tree) : (t.mark u).attrs = u.attrs := by
  obtain ⟨-, h⟩ | ⟨value, attrs, rfl, h⟩ | ⟨-, -, h⟩ := t.mark_eq_cases u <;> rw [h]

@[simp] theorem kind_mark (u : Tree) : (t.mark u).kind = u.kind := by
  obtain ⟨-, h⟩ | ⟨value, attrs, rfl, h⟩ | ⟨-, -, h⟩ := t.mark_eq_cases u
  · rw [h]
  · rw [h]
    rfl
  · rw [h]
    exact Form.kind_map _ _

/-- Marking goes through an end mark to its value. -/
theorem mark_endMarkFor (value : Option Tree) :
    t.mark (t.endMarkFor value) = t.endMarkFor (value.map t.mark) := by
  cases value with
  | none => rfl
  | some v =>
    have h : t.mark (t.endMark v) = ⟨(t.endMark v).form.map t.mark, v.attrs⟩ :=
      t.mark_of_kind_ne rfl (fun h => nomatch h)
    rw [endMarkFor, h, Option.map_some, endMarkFor, endMark, endMark, attrs_mark]
    rfl

/-! ## Bracketing -/

/-- The ways in which a fragment may end, as far as closing it goes. -/
theorem last_cases (last : Tree) :
    last.isExpression = true ∨
    (∃ expr attrs, last = ⟨.expression expr, attrs⟩) ∨
    (∃ value attrs, last = ⟨.ret value, attrs⟩) ∨
    (last.isExpression = false ∧ last.kind ≠ .expression ∧ last.kind ≠ .ret) := by
  by_cases hexpr : last.isExpression = true
  · exact .inl hexpr
  by_cases hstatement : last.kind = .expression
  · obtain ⟨form, attrs⟩ := last
    cases form with
    | expression expr => exact .inr (.inl ⟨expr, attrs, rfl⟩)
    | _ => contradiction
  by_cases hret : last.kind = .ret
  · obtain ⟨form, attrs⟩ := last
    cases form with
    | ret value => exact .inr (.inr (.inl ⟨value, attrs, rfl⟩))
    | _ => contradiction
  exact .inr (.inr (.inr ⟨Bool.eq_false_iff.mpr hexpr, hstatement, hret⟩))

theorem finish_of_isExpression {last : Tree} (h : last.isExpression = true) :
    t.finish last = [t.endMark last] := if_pos h

theorem finish_of_kind_ne {last : Tree} (hexpr : last.isExpression = false)
    (hstatement : last.kind ≠ .expression) (hret : last.kind ≠ .ret) :
    t.finish last = [last, t.endMarkAlone.asStatement] := by
  rw [finish, if_neg (Bool.eq_false_iff.mp hexpr)]
  obtain ⟨form, attrs⟩ := last
  cases form <;> first | rfl | contradiction

theorem bracket_nil : t.bracket [] = t.finish t.startMark.asStatement := rfl

theorem bracket_concat (ts : Forest) (last : Tree) :
    t.bracket (ts ++ [last]) = t.startMark.asStatement :: (ts ++ t.finish last) := by
  have hlast : (t.startMark.asStatement :: (ts ++ [last])).getLast? = some last := by
    rw [← List.cons_append, List.getLast?_concat]
  have hinit : (t.startMark.asStatement :: (ts ++ [last])).dropLast =
      t.startMark.asStatement :: ts := by
    rw [← List.cons_append, List.dropLast_concat]
  rw [bracket, hlast, hinit]
  rfl

/-- A map of trees that takes the marks to marks and keeps what bracketing looks at. -/
structure Carries (t : Timing) (g : Tree → Tree) : Prop where
  isExpression : ∀ u, (g u).isExpression = u.isExpression
  kind : ∀ u, u.isExpression = false → (g u).kind = u.kind
  endMark : ∀ v, g (t.endMark v) = t.endMark (g v)
  endMarkAlone : g t.endMarkAlone.asStatement = t.endMarkAlone.asStatement
  startMark : g t.startMark.asStatement = t.startMark.asStatement
  expression : ∀ attrs, ∃ attrs', ∀ expr, g ⟨.expression expr, attrs⟩ = ⟨.expression (g expr), attrs'⟩

section
variable {t : Timing} {g : Tree → Tree} (hg : t.Carries g)
include hg

theorem Carries.map_finish (last : Tree) : (t.finish last).map g = t.finish (g last) := by
  obtain hexpr | ⟨expr, attrs, rfl⟩ | ⟨value, attrs, rfl⟩ | ⟨hexpr, hstatement, hret⟩ :=
    last_cases last
  · have himage : (g last).isExpression = true := (hg.isExpression last).trans hexpr
    rw [t.finish_of_isExpression hexpr, t.finish_of_isExpression himage, List.map_singleton,
      hg.endMark]
  · obtain ⟨attrs', hstatement⟩ := hg.expression attrs
    show [g ⟨.expression (t.endMark expr), attrs⟩] = _
    rw [hstatement, hstatement, hg.endMark]
    rfl
  · have himage : ∃ value' attrs', g ⟨.ret value, attrs⟩ = ⟨.ret value', attrs'⟩ := by
      have hkind := hg.kind ⟨.ret value, attrs⟩ rfl
      generalize g ⟨.ret value, attrs⟩ = u at hkind ⊢
      obtain ⟨form, attrs'⟩ := u
      cases form with
      | ret value' => exact ⟨value', attrs', rfl⟩
      | _ => contradiction
    obtain ⟨value', attrs', himage⟩ := himage
    show [g ⟨.ret value, attrs⟩] = _
    rw [himage]
    rfl
  · have himage : (g last).isExpression = false := (hg.isExpression last).trans hexpr
    rw [t.finish_of_kind_ne hexpr hstatement hret, List.map_cons, List.map_singleton,
      hg.endMarkAlone]
    rw [← hg.kind last hexpr] at hstatement hret
    rw [t.finish_of_kind_ne himage hstatement hret]

theorem Carries.map_bracket (ts : Forest) : (t.bracket ts).map g = t.bracket (ts.map g) := by
  obtain rfl | ⟨init, last, rfl⟩ := List.eq_nil_or_concat ts
  · rw [t.bracket_nil, hg.map_finish, hg.startMark]
    rfl
  · rw [List.concat_eq_append, t.bracket_concat, List.map_append, List.map_singleton,
      t.bracket_concat, List.map_cons, List.map_append, hg.map_finish, hg.startMark]

end

/-! ## The walk of the timing pass -/

/-- What the pass makes of a tree at a depth of nesting in function-like trees. -/
def markAt (depth : Nat) (u : Tree) : Tree := if depth = 0 then t.mark u else u

@[simp] theorem markAt_zero (u : Tree) : t.markAt 0 u = t.mark u := rfl

theorem markAt_of_ne {depth : Nat} (h : depth ≠ 0) (u : Tree) : t.markAt depth u = u := if_neg h

/-- Marking unfolds as a walk of the timing pass does. -/
theorem markAt_eq (depth : Nat) (u : Tree) :
    t.markAt depth u = ⟨((Stock.timing t).enter depth u).form.map (t.markAt (u.inside depth)),
      ((Stock.timing t).enter depth u).attrs⟩ := by
  by_cases hdepth : depth = 0
  · subst hdepth
    obtain ⟨hlike, h⟩ | ⟨value, attrs, rfl, h⟩ | ⟨hlike, hret, h⟩ := t.mark_eq_cases u
    · have hret : u.kind = .ret → 0 ≠ 0 := fun hret => by
        rw [Tree.isFunctionLike, hret] at hlike
        contradiction
      have hinside : u.inside 0 ≠ 0 := by simp [Tree.inside, hlike]
      rw [(Stock.keep_timing_of_not_ret 0 t hret).2, markAt_zero, h,
        Form.map_eq_self _ fun c _ => t.markAt_of_ne hinside c, Tree.mk_form_attrs]
    · rw [Stock.enter_timing_ret, markAt_zero, h]
      show _ = (⟨.ret (some (t.mark (t.endMarkFor value))), attrs⟩ : Tree)
      rw [mark_endMarkFor]
    · have hinside : u.inside 0 = 0 := by simp [Tree.inside, hlike]
      rw [(Stock.keep_timing_of_not_ret 0 t fun h => absurd h hret).2, markAt_zero, h, hinside]
      rfl
  · have hinside : u.inside depth ≠ 0 := by simp [Tree.inside, hdepth]
    rw [(Stock.keep_timing_of_not_ret depth t fun _ => hdepth).2, markAt_of_ne t hdepth,
      Form.map_eq_self _ fun c _ => t.markAt_of_ne hinside c, Tree.mk_form_attrs]

theorem rewrite_timing (depth : Nat) (u : Tree) :
    (Stock.plan [.timing t]).rewrite depth u = t.markAt depth u :=
  ((Stock.plan [.timing t]).eq_rewrite t.markAt t.markAt_eq depth u).symm

/-- A run of the timing pass marks the returns of a fragment and brackets it, wherever the depth of
the pass stood before. -/
theorem run_timing (ts : Forest) :
    (run [t.pass] ts).result = .ok (t.bracket (ts.map t.mark),
      .total (ts.map ((Stock.plan [.timing t]).tally 0))) := by
  obtain ⟨journal, h⟩ := Stock.run_eq [.timing t] t.depth ts
  have hrewrite : (Stock.plan [.timing t]).rewrite 0 = t.mark := funext (rewrite_timing t 0)
  show (run ([Stock.timing t].map (Stock.pass t.depth)) ts).result = _
  rw [h, hrewrite]
  rfl

end Graft.Timing
