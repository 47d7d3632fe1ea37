import Graft.Proofs.Marking

/-! # The result of the timing pass

What the timing pass makes of a fragment, told from the settings alone and without the marks, the
depth and the bracket of the pass. `timed` is a recursion over the fragment: a closure, an arrow
function, a function or a method stays as it is, a return hands its value to `markEnd`, and every
other tree keeps all but its children. `closed` puts `markStart` in front and closes the last
element. A run gives exactly this, wherever the depth of the pass stood, and leaves the depth at zero
(`run_timing_exact`).
-/

set_option autoImplicit false

namespace Graft

namespace Settings

/-! ## The calls -/

def startCall (s : Settings) : Tree :=
  ⟨.staticCall (.named ⟨s.timerName.parts, true⟩) (.named "markStart") [], .empty⟩

/-- The construction of the class that stands for a missing value. -/
def missingValue (s : Settings) : Tree := ⟨.construct (.named ⟨s.noValueName.parts, true⟩) [], .empty⟩

def endCall (s : Settings) (value : Tree) (attrs : Attributes) : Tree :=
  ⟨.staticCall (.named ⟨s.timerName.parts, true⟩) (.named "markEnd") [⟨value, false, false⟩], attrs⟩

/-! ## The trees -/

/-- The tree with `markEnd` around the value of each return that stands in no function-like tree. -/
def timed (s : Settings) : Tree → Tree :=
  Tree.recurse fun form attrs =>
    match form with
    -- the first components are the children as they were
    | .closure .. | .arrow .. | .function .. | .method .. => ⟨form.map Prod.fst, attrs⟩
    | .ret (some (value, timedValue)) => ⟨.ret (some (s.endCall timedValue value.attrs)), attrs⟩
    | .ret none => ⟨.ret (some (s.endCall s.missingValue .empty)), attrs⟩
    | form => ⟨form.map Prod.snd, attrs⟩

/-! ## The end of the fragment -/

/-- The last element of a fragment: a bare expression or an expression statement gives its value to
`markEnd`, a return stays, and after anything else stands a `markEnd` without a value. -/
def closeLast (s : Settings) (last : Tree) : Forest :=
  match last.form with
  | .expression expr => [⟨.expression (s.endCall expr expr.attrs), last.attrs⟩]
  | .ret _ => [last]
  | form =>
    if form.kind.isExpression then [s.endCall last last.attrs]
    else [last, ⟨.expression (s.endCall s.missingValue .empty), .empty⟩]

def closeEnd (s : Settings) : Forest → Forest
  | [] => []
  | [last] => s.closeLast last
  | t :: u :: rest => t :: s.closeEnd (u :: rest)

/-- The fragment between its calls; where it is empty, `markEnd` takes `markStart` as its value. -/
def closed (s : Settings) : Forest → Forest
  | [] => [⟨.expression (s.endCall s.startCall .empty), .empty⟩]
  | t :: rest => ⟨.expression s.startCall, .empty⟩ :: s.closeEnd (t :: rest)

/-! ## Marks and bracket of the pass -/

section
variable (s : Settings)

theorem endMark_ofSettings (value : Tree) :
    (Timing.ofSettings s).endMark value = s.endCall value value.attrs := rfl

theorem endMarkAlone_ofSettings :
    (Timing.ofSettings s).endMarkAlone = s.endCall s.missingValue .empty := rfl

theorem timed_of_isFunctionLike {u : Tree} (h : u.isFunctionLike = true) : s.timed u = u := by
  obtain ⟨form, attrs⟩ := u
  have hself : (form.map fun c => (c, s.timed c)).map Prod.fst = form := by
    rw [Form.map_map, Form.map_id]
  rw [timed, Tree.recurse_mk]
  rw [timed] at hself
  cases form
  case closure | arrow | function | method => exact congrArg (Tree.mk · attrs) hself
  all_goals contradiction

theorem timed_of_kind_ne {u : Tree} (h : u.isFunctionLike = false) (hret : u.kind ≠ .ret) :
    s.timed u = ⟨u.form.map s.timed, u.attrs⟩ := by
  obtain ⟨form, attrs⟩ := u
  have hmap : (form.map fun c => (c, s.timed c)).map Prod.snd = form.map s.timed :=
    Form.map_map _ _ _
  rw [timed, Tree.recurse_mk]
  rw [timed] at hmap
  rw [← hmap]
  cases form
  case closure | arrow | function | method => contradiction
  case ret => contradiction
  all_goals rfl

theorem timed_ret_none (attrs : Attributes) :
    s.timed ⟨.ret none, attrs⟩ = ⟨.ret (some (s.endCall s.missingValue .empty)), attrs⟩ := by
  rw [timed, Tree.recurse_mk]
  rfl

theorem timed_ret_some (value : Tree) (attrs : Attributes) :
    s.timed ⟨.ret (some value), attrs⟩ =
      ⟨.ret (some (s.endCall (s.timed value) value.attrs)), attrs⟩ := by
  rw [timed, Tree.recurse_mk]
  rfl

theorem mark_ofSettings (u : Tree) : (Timing.ofSettings s).mark u = s.timed u := by
  induction u using Tree.inductionOn with
  | mk form attrs ih =>
    obtain ⟨hlike, h⟩ | ⟨value, attrs', hu, h⟩ | ⟨hlike, hret, h⟩ :=
      (Timing.ofSettings s).mark_eq_cases ⟨form, attrs⟩
    · rw [h, s.timed_of_isFunctionLike hlike]
    · cases hu
      rw [h]
      cases value with
      | none => rw [timed_ret_none, Option.map_none, Timing.endMarkFor, endMarkAlone_ofSettings]
      | some value =>
        have hvalue := ih value (by simp [Form.children])
        have hattrs := (Timing.ofSettings s).attrs_mark value
        rw [timed_ret_some, Option.map_some, Timing.endMarkFor, endMark_ofSettings, hattrs, hvalue]
    · rw [h, s.timed_of_kind_ne hlike hret, Form.map_congr form ih]

theorem finish_ofSettings (last : Tree) : (Timing.ofSettings s).finish last = s.closeLast last := by
  obtain ⟨form, attrs⟩ := last
  cases form <;> rfl

theorem closeEnd_concat (ts : Forest) (last : Tree) :
    s.closeEnd (ts ++ [last]) = ts ++ s.closeLast last := by
  induction ts with
  | nil => rfl
  | cons t ts ih =>
    have hcons : s.closeEnd (t :: (ts ++ [last])) = t :: s.closeEnd (ts ++ [last]) := by
      cases ts <;> rfl
    rw [List.cons_append, hcons, ih, List.cons_append]

theorem bracket_ofSettings (ts : Forest) : (Timing.ofSettings s).bracket ts = s.closed ts := by
  obtain rfl | ⟨init, last, rfl⟩ := List.eq_nil_or_concat ts
  · rfl
  · have hclosed : s.closed (init ++ [last]) =
        ⟨.expression s.startCall, .empty⟩ :: s.closeEnd (init ++ [last]) := by
      cases init <;> rfl
    rw [List.concat_eq_append, Timing.bracket_concat, hclosed, closeEnd_concat, finish_ofSettings]
    rfl

end

end Settings

/-- From every depth a run of the timing pass succeeds, gives the timed trees of the fragment between
the calls, and leaves the depth at zero. -/
theorem run_timing_exact (s : Settings) (depth : Nat) (ts : Forest) :
    ∃ tally journal, run [({ Timing.ofSettings s with depth := depth } : Timing).pass] ts =
      ⟨.ok (s.closed (ts.map s.timed), tally),
        [({ Timing.ofSettings s with depth := 0 } : Timing).pass], journal⟩ := by
  obtain ⟨journal, hrun⟩ := Stock.run_eq [.timing (.ofSettings s)] depth ts
  have hrewrite : (Stock.plan [.timing (.ofSettings s)]).rewrite 0 = s.timed := by
    funext u
    rw [Timing.rewrite_timing, Timing.markAt_zero, s.mark_ofSettings]
  have hcloses : Stock.closes [.timing (.ofSettings s)] (ts.map s.timed) = s.closed (ts.map s.timed) :=
    s.bracket_ofSettings _
  rw [hrewrite, hcloses] at hrun
  exact ⟨_, journal, hrun⟩

end Graft
