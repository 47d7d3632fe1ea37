import Graft.Proofs.Marking
import Graft.Proofs.Translation

/-! # Timing and bypass together

The timing pass and the bypass pass of the same settings give one result however they are combined:
in one walk in either order, or in two runs in either order (`timing_bypass_compose`). They act on
disjoint kinds, so they commute on entering and follow the same plan in both orders (`plan_comm`). In
one walk each sees what the other has just put in place; that is the same as two runs because each
commutes with the map that the other makes of the children (`translate_markAt_eq`,
`markAt_translate_eq`), the marks being calls on runtime classes, which the bypass pass leaves as they
are.
-/

set_option autoImplicit false

namespace Graft

/-! ## Entering in either order -/

section
variable (depth : Nat) (t : Timing) (b : Bypass)

theorem not_redirects_enter_timing {u : Tree} (h : ∀ access, ¬b.Redirects u.form access) :
    ∀ access, ¬b.Redirects ((Stock.timing t).enter depth u).form access := by
  obtain ⟨-, hu⟩ | ⟨_, value, -, -, -, -, -, hu⟩ | ⟨_, _, hs, -⟩ :=
    (Stock.timing t).enter_cases depth u
  · rwa [hu]
  · rw [hu]
    intro access h
    cases h
  · contradiction

theorem enters_comm (u : Tree) :
    Stock.enters depth [.timing t, .bypass b] u = Stock.enters depth [.bypass b, .timing t] u ∧
      Stock.replacements depth [.timing t, .bypass b] u =
        Stock.replacements depth [.bypass b, .timing t] u := by
  simp only [Stock.enters, Stock.replacements]
  by_cases h : ∃ access, b.Redirects u.form access
  · obtain ⟨access, h⟩ := h
    -- the access is no return, and neither is the call in its place
    have hu := Stock.keep_timing_of_not_ret depth t (u := u) fun hret => by
      have := h.isExpression
      rw [← Tree.kind, hret] at this
      contradiction
    have hcall := Stock.keep_timing_of_not_ret depth t (u := b.redirect access u) fun hret => by
      cases hret
    rw [hu.1, hu.2, Stock.enter_bypass_of_redirects depth h, hcall.1, hcall.2]
    exact ⟨rfl, Nat.add_comm _ _⟩
  · have hnot := not_exists.mp h
    have hmarked := not_redirects_enter_timing depth t b hnot
    rw [Stock.enter_bypass_of_not_redirects depth hnot,
      Stock.enter_bypass_of_not_redirects depth hmarked,
      Stock.keep_bypass_of_not_redirects depth hnot,
      Stock.keep_bypass_of_not_redirects depth hmarked]
    exact ⟨rfl, Nat.add_comm _ _⟩

theorem plan_comm : Stock.plan [.timing t, .bypass b] = Stock.plan [.bypass b, .timing t] := by
  have henter : (fun depth u => Stock.enters depth [.timing t, .bypass b] u) =
      fun depth u => Stock.enters depth [.bypass b, .timing t] u :=
    funext fun depth => funext fun u => (enters_comm depth t b u).1
  have hreplaced : (fun depth u => Stock.replacements depth [.timing t, .bypass b] u) =
      fun depth u => Stock.replacements depth [.bypass b, .timing t] u :=
    funext fun depth => funext fun u => (enters_comm depth t b u).2
  simp only [Stock.plan, henter, hreplaced]
  rfl

end

/-! ## Bypass after timing -/

theorem Timing.markAt_of_kind_ne (t : Timing) (depth : Nat) {u : Tree}
    (hlike : u.isFunctionLike = false) (hret : u.kind ≠ .ret) :
    t.markAt depth u = ⟨u.form.map (t.markAt depth), u.attrs⟩ := by
  by_cases h : depth = 0
  · subst h
    exact t.mark_of_kind_ne hlike hret
  · rw [t.markAt_of_ne h, Form.map_eq_self _ fun c _ => t.markAt_of_ne h c, Tree.mk_form_attrs]

theorem Timing.transparent_markAt (t : Timing) (depth : Nat) :
    Bypass.Transparent (t.markAt depth) where
  kind u := by
    by_cases h : depth = 0
    · subst h
      exact t.kind_mark u
    · rw [t.markAt_of_ne h]
  text _ := t.markAt_of_kind_ne depth rfl fun h => nomatch h
  property _ _ _ := ⟨_, t.markAt_of_kind_ne depth rfl fun h => nomatch h⟩
  staticProperty _ _ _ := ⟨_, t.markAt_of_kind_ne depth rfl fun h => nomatch h⟩

section
variable (s : Settings) (t : Timing)

/-- Marking and then translating unfolds as one walk of the timing and the bypass pass. -/
theorem translate_markAt_eq (depth : Nat) (u : Tree) :
    translate s (t.markAt depth u) =
      ⟨(Stock.enters depth [.timing t, .bypass (.ofSettings s)] u).form.map
          fun c => translate s (t.markAt (u.inside depth) c),
        (Stock.enters depth [.timing t, .bypass (.ofSettings s)] u).attrs⟩ := by
  have hattrs := Stock.attrs_enter depth (.bypass (.ofSettings s)) ((Stock.timing t).enter depth u)
  rw [t.markAt_eq depth u, translate_eq s depth,
    Stock.enter_bypass_map depth _ (t.transparent_markAt (u.inside depth)), Form.map_map, ← hattrs]
  rfl

theorem rewrite_timing_bypass (u : Tree) :
    (Stock.plan [.timing t, .bypass (.ofSettings s)]).rewrite 0 u = translate s (t.mark u) :=
  ((Stock.plan [.timing t, .bypass (.ofSettings s)]).eq_rewrite
    (fun depth u => translate s (t.markAt depth u)) (translate_markAt_eq s t) 0 u).symm

end

/-! ## Timing after bypass -/

section
variable (s : Settings)

theorem attrs_translate (u : Tree) : (translate s u).attrs = u.attrs := by
  rw [translate_mk]

/-- A call on the timer class stays what it is, with its arguments translated. -/
theorem translate_timerCall (method : String) (args : List (Arg Tree)) (attrs : Attributes) :
    translate s ⟨.staticCall (.named s.timerName) (.named method) args, attrs⟩ =
      ⟨.staticCall (.named s.timerName) (.named method) (args.map (·.map (translate s))), attrs⟩ := by
  rw [translate_mk, translateForm, if_pos s.exempts_timerName, translateArgs_eq]
  rfl

theorem translate_marker : translate s (.marker s.noValueName) = .marker s.noValueName := by
  have h : (s.exempts (.named s.noValueName.qualify) || !s.redirectConstruction) = true := by
    rw [show s.noValueName.qualify = s.noValueName from rfl, s.exempts_noValueName, Bool.true_or]
  rw [Tree.marker, Tree.bare, translate_mk, translateForm, if_pos h]
  rfl

theorem translate_startMark :
    translate s (Timing.ofSettings s).startMark = (Timing.ofSettings s).startMark :=
  translate_timerCall s "markStart" [] .empty

theorem translate_endMark (u : Tree) :
    translate s ((Timing.ofSettings s).endMark u) = (Timing.ofSettings s).endMark (translate s u) := by
  refine (translate_timerCall s "markEnd" [.plain u] u.attrs).trans ?_
  rw [← attrs_translate s u]
  rfl

theorem translate_endMarkAlone :
    translate s (Timing.ofSettings s).endMarkAlone = (Timing.ofSettings s).endMarkAlone := by
  refine (translate_timerCall s "markEnd" [.plain (.marker s.noValueName)] .empty).trans ?_
  rw [List.map_cons, Arg.map, Arg.plain, translate_marker]
  rfl

theorem translate_endMarkFor (value : Option Tree) :
    translate s ((Timing.ofSettings s).endMarkFor value) =
      (Timing.ofSettings s).endMarkFor (value.map (translate s)) := by
  cases value with
  | none => exact translate_endMarkAlone s
  | some v => exact translate_endMark s v

theorem enter_timing_translate (depth : Nat) (u : Tree) :
    (Stock.timing (.ofSettings s)).enter depth ⟨u.form.map (translate s), u.attrs⟩ =
      ⟨((Stock.timing (.ofSettings s)).enter depth u).form.map (translate s),
        ((Stock.timing (.ofSettings s)).enter depth u).attrs⟩ := by
  have hkind : (⟨u.form.map (translate s), u.attrs⟩ : Tree).kind = u.kind := Form.kind_map _ _
  by_cases h : u.kind = .ret ∧ depth = 0
  · obtain ⟨hret, rfl⟩ := h
    obtain ⟨form, attrs⟩ := u
    cases form with
    | ret value =>
      show (Stock.timing (.ofSettings s)).enter 0 ⟨.ret (value.map (translate s)), attrs⟩ = _
      rw [Stock.enter_timing_ret, Stock.enter_timing_ret, ← translate_endMarkFor]
      rfl
    | _ => contradiction
  · have hu : u.kind = .ret → depth ≠ 0 := fun hret hdepth => h ⟨hret, hdepth⟩
    rw [(Stock.keep_timing_of_not_ret depth _ hu).2,
      (Stock.keep_timing_of_not_ret depth _ (hkind.symm ▸ hu)).2]

theorem inside_translate (depth : Nat) (u : Tree) : (translate s u).inside depth = u.inside depth := by
  have hlike : (translate s u).isFunctionLike = u.isFunctionLike := by
    rw [translate_eq s depth u, Tree.isFunctionLike, Tree.kind, Form.kind_map]
    exact Stock.isFunctionLike_enter depth _ u
  rw [Tree.inside, hlike, Tree.inside]

/-- Translating and then marking unfolds as one walk of the bypass and the timing pass. -/
theorem markAt_translate_eq (depth : Nat) (u : Tree) :
    (Timing.ofSettings s).markAt depth (translate s u) =
      ⟨(Stock.enters depth [.bypass (.ofSettings s), .timing (.ofSettings s)] u).form.map
          fun c => (Timing.ofSettings s).markAt (u.inside depth) (translate s c),
        (Stock.enters depth [.bypass (.ofSettings s), .timing (.ofSettings s)] u).attrs⟩ := by
  rw [Timing.markAt_eq, inside_translate, translate_eq s depth u, enter_timing_translate,
    Form.map_map]
  rfl

theorem rewrite_bypass_timing (u : Tree) :
    (Stock.plan [.bypass (.ofSettings s), .timing (.ofSettings s)]).rewrite 0 u =
      (Timing.ofSettings s).mark (translate s u) :=
  ((Stock.plan [.bypass (.ofSettings s), .timing (.ofSettings s)]).eq_rewrite
    (fun depth u => (Timing.ofSettings s).markAt depth (translate s u))
    (markAt_translate_eq s) 0 u).symm

theorem mark_translate (u : Tree) :
    (Timing.ofSettings s).mark (translate s u) = translate s ((Timing.ofSettings s).mark u) := by
  rw [← rewrite_bypass_timing, ← rewrite_timing_bypass, plan_comm]

/-! ## The bracket -/

theorem translate_of_not_isExpression {u : Tree} (h : u.isExpression = false) :
    translate s u = ⟨u.form.map (translate s), u.attrs⟩ := by
  rw [translate_mk, translateForm_of_not_redirects s fun access hr => ?_]
  exact Bool.false_ne_true (h.symm.trans hr.isExpression)

theorem isExpression_translate (u : Tree) : (translate s u).isExpression = u.isExpression := by
  by_cases h : ∃ access, (Bypass.ofSettings s).Redirects u.form access
  · obtain ⟨access, h⟩ := h
    rw [translate_mk, translateForm_of_redirects s h]
    exact h.isExpression.symm
  · rw [translate_mk, translateForm_of_not_redirects s (not_exists.mp h)]
    exact congrArg Kind.isExpression (Form.kind_map _ _)

theorem translate_asStatement (u : Tree) :
    translate s u.asStatement = (translate s u).asStatement := by
  rw [Tree.asStatement, Tree.asStatement, attrs_translate, translate_mk]
  rfl

theorem map_translate_bracket (ts : Forest) :
    ((Timing.ofSettings s).bracket ts).map (translate s) =
      (Timing.ofSettings s).bracket (ts.map (translate s)) := by
  refine Timing.Carries.map_bracket ⟨isExpression_translate s, fun u h => ?_, translate_endMark s,
    ?_, ?_, fun attrs => ⟨attrs, fun expr => translate_of_not_isExpression s rfl⟩⟩ ts
  · rw [translate_of_not_isExpression s h]
    exact Form.kind_map _ _
  · rw [translate_asStatement, translate_endMarkAlone]
  · rw [translate_asStatement, translate_startMark]

/-! ## One walk and two runs -/

theorem run_timing_bypass (ts : Forest) :
    (run [(Timing.ofSettings s).pass, (Bypass.ofSettings s).pass] ts).result =
      .ok ((Timing.ofSettings s).bracket (ts.map fun u => translate s ((Timing.ofSettings s).mark u)),
        .total (ts.map ((Stock.plan [.timing (.ofSettings s), .bypass (.ofSettings s)]).tally 0))) := by
  obtain ⟨journal, h⟩ := Stock.run_eq [.timing (.ofSettings s), .bypass (.ofSettings s)] 0 ts
  have hrewrite := funext (rewrite_timing_bypass s (.ofSettings s))
  show (run ([Stock.timing (.ofSettings s), .bypass (.ofSettings s)].map (Stock.pass 0)) ts).result = _
  rw [h, hrewrite]
  rfl

theorem run_bypass_timing (ts : Forest) :
    (run [(Bypass.ofSettings s).pass, (Timing.ofSettings s).pass] ts).result =
      .ok ((Timing.ofSettings s).bracket (ts.map fun u => translate s ((Timing.ofSettings s).mark u)),
        .total (ts.map ((Stock.plan [.timing (.ofSettings s), .bypass (.ofSettings s)]).tally 0))) := by
  obtain ⟨journal, h⟩ := Stock.run_eq [.bypass (.ofSettings s), .timing (.ofSettings s)] 0 ts
  have hrewrite := funext (rewrite_timing_bypass s (.ofSettings s))
  show (run ([Stock.bypass (.ofSettings s), .timing (.ofSettings s)].map (Stock.pass 0)) ts).result = _
  rw [h, ← plan_comm, hrewrite]
  rfl

/-- The timing and the bypass pass of the same settings give one result in one walk in either order,
with the same tally, and in two runs in either order. -/
theorem timing_bypass_compose (ts : Forest) :
    ∃ us tally,
      (run [(Timing.ofSettings s).pass, (Bypass.ofSettings s).pass] ts).result = .ok (us, tally) ∧
      (run [(Bypass.ofSettings s).pass, (Timing.ofSettings s).pass] ts).result = .ok (us, tally) ∧
      (∃ timed first second, (run [(Timing.ofSettings s).pass] ts).result = .ok (timed, first) ∧
        (run [(Bypass.ofSettings s).pass] timed).result = .ok (us, second)) ∧
      (∃ bypassed first second,
        (run [(Bypass.ofSettings s).pass] ts).result = .ok (bypassed, first) ∧
        (run [(Timing.ofSettings s).pass] bypassed).result = .ok (us, second)) := by
  have htimed := run_bypass s ((Timing.ofSettings s).bracket (ts.map (Timing.ofSettings s).mark))
  have hbypassed := (Timing.ofSettings s).run_timing (ts.map (translate s))
  -- both second runs end in the bracket of the same trees
  rw [map_translate_bracket, List.map_map] at htimed
  rw [List.map_map, show (Timing.ofSettings s).mark ∘ translate s =
    translate s ∘ (Timing.ofSettings s).mark from funext (mark_translate s)] at hbypassed
  exact ⟨_, _, run_timing_bypass s ts, run_bypass_timing s ts,
    ⟨_, _, _, (Timing.ofSettings s).run_timing ts, htimed⟩,
    ⟨_, _, _, run_bypass s ts, hbypassed⟩⟩

end

end Graft
