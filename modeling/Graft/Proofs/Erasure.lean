import Graft.Proofs.Marking
import Graft.Proofs.StockRuns
import Graft.Tree.Make

/-! # Erasing attributes

Timing and bypass passes copy attributes, inherit them and drop them, but never look at them: erasing
the attributes of every tree commutes with a run (`run_stock_erase`). A pass enters an erased tree as
it enters the tree, with as many replacements (`enter_erase`), so a walk of the erased forest stays in
step with a walk of the forest at every child of what is entered (`rewrite_erase`, `tally_erase`).
-/

set_option autoImplicit false

namespace Graft

/-! ## Erased trees -/

/-- The tree without attributes at any depth. -/
def Tree.erase : Tree → Tree := recurse fun form _ => .bare (form.map Prod.snd)

def Forest.erase (ts : Forest) : Forest := ts.map Tree.erase

theorem Tree.erase_eq (t : Tree) : t.erase = ⟨t.form.map erase, .empty⟩ := by
  obtain ⟨form, attrs⟩ := t
  rw [erase, recurse_mk, Form.map_map]
  rfl

theorem Tree.kind_erase (t : Tree) : t.erase.kind = t.kind := by
  rw [kind, erase_eq, Form.kind_map, kind]

theorem Tree.inside_erase (depth : Nat) (t : Tree) : t.erase.inside depth = t.inside depth := by
  rw [inside, isFunctionLike, kind_erase, inside, isFunctionLike]

theorem Tree.transparent_erase : Bypass.Transparent erase where
  kind := kind_erase
  text _ := erase_eq _
  property _ _ _ := ⟨.empty, erase_eq _⟩
  staticProperty _ _ _ := ⟨.empty, erase_eq _⟩

/-! ## Marks -/

namespace Timing
variable (t : Timing)

-- the end mark takes the attributes of its value, which are gone on both sides
theorem erase_endMark (v : Tree) : (t.endMark v).erase = t.endMark v.erase := by
  have hattrs : v.erase.attrs = .empty := by rw [v.erase_eq]
  rw [endMark, endMark, hattrs, RuntimeCall.tree, Tree.erase_eq]
  rfl

theorem erase_endMarkAlone : t.endMarkAlone.erase = t.endMarkAlone := Tree.erase_eq _

theorem erase_endMarkFor (value : Option Tree) :
    (t.endMarkFor value).erase = t.endMarkFor (value.map Tree.erase) := by
  cases value with
  | none => exact t.erase_endMarkAlone
  | some v => exact t.erase_endMark v

theorem carries_erase : t.Carries Tree.erase where
  isExpression u := by rw [Tree.isExpression, Tree.kind_erase, Tree.isExpression]
  kind u _ := u.kind_erase
  endMark := t.erase_endMark
  endMarkAlone := by
    rw [Tree.asStatement, Tree.erase_eq, Form.map, erase_endMarkAlone]
    rfl
  startMark := Tree.erase_eq _
  expression attrs := ⟨.empty, fun _ => Tree.erase_eq _⟩

end Timing

/-! ## Entering -/

namespace Stock

/-- A pass enters the erased tree as it enters the tree. -/
theorem enter_erase (depth : Nat) (s : Stock) (t : Tree) :
    s.enter depth t.erase = (s.enter depth t).erase ∧
      (s.answer depth t.erase).replaces = (s.answer depth t).replaces := by
  cases s with
  | timing timing =>
    by_cases hret : t.kind = .ret ∧ depth = 0
    · obtain ⟨hkind, rfl⟩ := hret
      obtain ⟨form, attrs⟩ := t
      cases form with
      | ret value =>
        refine ⟨?_, rfl⟩
        rw [Tree.erase_eq, Form.map, enter_timing_ret, enter_timing_ret, Tree.erase_eq, Form.map,
          Option.map_some, timing.erase_endMarkFor]
      | _ => contradiction
    · have hkept : t.kind = .ret → depth ≠ 0 := fun hkind hdepth => hret ⟨hkind, hdepth⟩
      have herased : t.erase.kind = .ret → depth ≠ 0 := by rwa [t.kind_erase]
      obtain ⟨hanswer, henter⟩ := keep_timing_of_not_ret depth timing hkept
      obtain ⟨hanswer', henter'⟩ := keep_timing_of_not_ret depth timing herased
      rw [henter, henter', hanswer, hanswer']
      exact ⟨rfl, rfl⟩
  | bypass b =>
    have hform : t.erase.form = t.form.map Tree.erase := by rw [t.erase_eq]
    constructor
    · rw [t.erase_eq, enter_bypass_map depth b Tree.transparent_erase t .empty, Tree.erase_eq]
    by_cases h : ∃ access, b.Redirects t.form access
    · obtain ⟨access, h⟩ := h
      have herased : b.Redirects t.erase.form access := hform ▸ h.map Tree.transparent_erase
      rw [replaces_bypass_of_redirects depth h, replaces_bypass_of_redirects depth herased]
    · have hnot := not_exists.mp h
      have herased : ∀ access, ¬b.Redirects t.erase.form access := by
        intro access hr
        rw [hform] at hr
        exact hnot access (hr.of_map Tree.transparent_erase)
      rw [keep_bypass_of_not_redirects depth hnot, keep_bypass_of_not_redirects depth herased]
      rfl

theorem enters_erase (depth : Nat) (ps : List Stock) (t : Tree) :
    enters depth ps t.erase = (enters depth ps t).erase := by
  induction ps generalizing t with
  | nil => rfl
  | cons s ps ih => rw [enters, (enter_erase depth s t).1, ih, enters]

theorem replacements_erase (depth : Nat) (ps : List Stock) (t : Tree) :
    replacements depth ps t.erase = replacements depth ps t := by
  induction ps generalizing t with
  | nil => rfl
  | cons s ps ih =>
    obtain ⟨henter, hreplaces⟩ := enter_erase depth s t
    rw [replacements, henter, hreplaces, ih, replacements]

/-! ## Walks -/

theorem rewrite_erase (ps : List Stock) (depth : Nat) (t : Tree) :
    (plan ps).rewrite depth t.erase = ((plan ps).rewrite depth t).erase := by
  induction depth, t using (plan ps).induction with
  | step depth t ih =>
    have henter : (plan ps).enter depth t.erase = ((plan ps).enter depth t).erase :=
      enters_erase depth ps t
    rw [Plan.rewrite_eq, henter, Tree.inside_erase, Tree.erase_eq ((plan ps).enter depth t),
      Form.map_map, Form.map_congr _ ih, Plan.rewrite_eq, Tree.erase_eq, Form.map_map]

theorem tally_erase (ps : List Stock) (depth : Nat) (t : Tree) :
    (plan ps).tally depth t.erase = (plan ps).tally depth t := by
  induction depth, t using (plan ps).induction with
  | step depth t ih =>
    have henter : (plan ps).enter depth t.erase = ((plan ps).enter depth t).erase :=
      enters_erase depth ps t
    have hreplaced : (plan ps).replaced depth t.erase = (plan ps).replaced depth t :=
      replacements_erase depth ps t
    have hchildren : ((plan ps).enter depth t).form.children.map
          (fun c => (plan ps).tally (t.inside depth) c.erase) =
        ((plan ps).enter depth t).form.children.map ((plan ps).tally (t.inside depth)) :=
      List.map_congr_left ih
    rw [Plan.tally_eq, henter, hreplaced, Tree.inside_erase,
      Tree.erase_eq ((plan ps).enter depth t), Form.children_map, List.map_map, Plan.tally_eq]
    exact congrArg (_ + Tally.total ·) hchildren

theorem closes_erase (ps : List Stock) (ts : Forest) :
    closes ps ts.erase = (closes ps ts).erase := by
  induction ps generalizing ts with
  | nil => rfl
  | cons s ps ih =>
    have hclose : s.close ts.erase = (s.close ts).erase := by
      cases s with
      | timing timing => exact (timing.carries_erase.map_bracket ts).symm
      | bypass b => rfl
    rw [closes, hclose, ih, closes]

/-! ## Runs -/

theorem run_given_erase (ps : List Stock) (ts : Forest) {us : Forest} {tally : Tally}
    (h : (run (ps.map given) ts).result = .ok (us, tally)) :
    (run (ps.map given) ts.erase).result = .ok (us.erase, tally) := by
  rw [run_given] at h
  cases h
  have hwalked : ts.erase.map ((plan ps).rewrite 0) =
      Forest.erase (ts.map ((plan ps).rewrite 0)) := by
    rw [Forest.erase, Forest.erase, List.map_map, List.map_map]
    exact List.map_congr_left fun t _ => rewrite_erase ps 0 t
  have htally : ts.erase.map ((plan ps).tally 0) = ts.map ((plan ps).tally 0) := by
    rw [Forest.erase, List.map_map]
    exact List.map_congr_left fun t _ => tally_erase ps 0 t
  rw [run_given, hwalked, closes_erase, htally]

end Stock

/-- A run of timing and bypass passes, in any number and order and each with its own settings and
depth, commutes with erasing all attributes, and its tally is the same. So forests that differ in
nothing but attributes are rewritten to forests that differ in nothing but attributes. -/
theorem run_stock_erase (ps : List Stock) (ts : Forest) :
    ∃ us tally, (run (ps.map Stock.given) ts).result = .ok (us, tally) ∧
      (run (ps.map Stock.given) ts.erase).result = .ok (us.erase, tally) ∧
      ∀ others : Forest, others.erase = ts.erase →
        ∃ vs, (run (ps.map Stock.given) others).result = .ok (vs, tally) ∧ vs.erase = us.erase := by
  have hrun := Stock.run_given ps ts
  have herased := Stock.run_given_erase ps ts hrun
  refine ⟨_, _, hrun, herased, fun others hsame => ?_⟩
  have hothers := Stock.run_given ps others
  have hagree := Stock.run_given_erase ps others hothers
  rw [hsame, herased, Except.ok.injEq, Prod.mk.injEq] at hagree
  rw [← hagree.2] at hothers
  exact ⟨_, hothers, hagree.1.symm⟩

/-- A return of a property, with a comment and a position. -/
def annotatedReturn : Forest :=
  [⟨.ret (some ⟨.property (Make.var "x") (.named "b"), ⟨some (.point 1 7), []⟩⟩), ⟨none, ["done"]⟩⟩]

def plainReturn : Forest := [Make.ret (some (Make.property (Make.var "x") "b"))]

theorem run_stock_erase_return :
    plainReturn.erase = annotatedReturn.erase ∧
      ∃ us vs tally,
        (run [(Timing.ofSettings {}).pass, (Bypass.ofSettings {}).pass] annotatedReturn).result =
          .ok (us, tally) ∧
        (run [(Timing.ofSettings {}).pass, (Bypass.ofSettings {}).pass] plainReturn).result =
          .ok (vs, tally) ∧
        vs.erase = us.erase := by
  have hsame : plainReturn.erase = annotatedReturn.erase := rfl
  obtain ⟨us, tally, hrun, -, hothers⟩ :=
    run_stock_erase [.timing (.ofSettings {}), .bypass (.ofSettings {})] annotatedReturn
  obtain ⟨vs, hplain, hagree⟩ := hothers plainReturn hsame
  exact ⟨hsame, us, vs, tally, hrun, hplain, hagree⟩

end Graft
