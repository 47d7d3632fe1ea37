import Graft.Proofs.Translation

/-! # The bypass pass is complete

After a run of the bypass pass no access is left at any depth, except on the runtime classes and, if
so set, in constructions (`isBypassed_of_contains`). Where no such access is left the pass finds
nothing to do, so a second run changes nothing; and a run reports a change exactly when its result
differs from what it was given (`tally_replaced_iff`).
-/

set_option autoImplicit false

namespace Graft

/-! ## Trees without access -/

/-- Whether a form is none of the accesses that go through the bypass class. -/
def Settings.isBypassed (s : Settings) : Form Tree → Bool
  | .property _ _ => false
  | .methodCall _ _ _ => false
  | .staticProperty owner _ => s.exempts owner
  | .staticCall owner _ _ => s.exempts owner
  | .classConstant owner _ => s.exempts owner
  | .construct owner _ => s.exempts owner || !s.redirectConstruction
  | _ => true

variable (s : Settings)

theorem Settings.exempts_map (f : Tree → Tree) (r : Reference Tree) :
    s.exempts (r.map f) = s.exempts r := by
  cases r <;> rfl

theorem Settings.isBypassed_map (f : Tree → Tree) (form : Form Tree) :
    s.isBypassed (form.map f) = s.isBypassed form := by
  cases form <;> simp only [Form.map, isBypassed, exempts_map]

theorem isBypassed_of_not_redirects {form : Form Tree}
    (h : ∀ access, ¬(Bypass.ofSettings s).Redirects form access) : s.isBypassed form = true := by
  cases form
  case property object name => exact absurd (.property object name) (h _)
  case methodCall object name args => exact absurd (.methodCall object name args) (h _)
  case staticProperty owner name => exact exempts_of_ne s fun hn => h _ (.staticProperty owner name hn)
  case staticCall owner name args =>
    exact exempts_of_ne s fun hn => h _ (.staticCall owner name args hn)
  case classConstant owner name => exact exempts_of_ne s fun hn => h _ (.classConstant owner name hn)
  case construct owner args =>
    cases hset : s.redirectConstruction with
    | false => simp [Settings.isBypassed, hset]
    | true =>
      have howner := exempts_of_ne s fun hn => h _ (.construct owner args hn hset)
      simp [Settings.isBypassed, howner]
  all_goals rfl

/-- An assignment to a property is redirected as a whole, and its target is an access of its own. -/
theorem not_redirects_of_isBypassed {t : Tree}
    (h : ∀ u, t.Contains u → s.isBypassed u.form = true) (access : Access) :
    ¬(Bypass.ofSettings s).Redirects t.form access := by
  intro hr
  obtain ⟨form, attrs⟩ := t
  have hself := h _ (.here _)
  cases hr with
  | property object name => contradiction
  | methodCall object name args => contradiction
  | staticProperty owner name howner | staticCall owner name args howner
  | classConstant owner name howner =>
    rw [isRuntime_ofSettings] at howner
    exact Bool.false_ne_true (howner.symm.trans hself)
  | construct owner args howner hset =>
    rw [isRuntime_ofSettings] at howner
    have hset : s.redirectConstruction = true := hset
    simp [Settings.isBypassed, howner, hset] at hself
  | assignProperty object name attrs value =>
    have htarget := h _ (.inChild List.mem_cons_self (.here _))
    contradiction
  | assignStaticProperty owner name attrs value howner =>
    have htarget := h _ (.inChild List.mem_cons_self (.here _))
    rw [isRuntime_ofSettings] at howner
    exact Bool.false_ne_true (howner.symm.trans htarget)

/-! ## Completeness -/

/-- What stands after entering is no access, whether the pass kept it or made a call of it. -/
theorem isBypassed_enter (depth : Nat) (t : Tree) :
    s.isBypassed ((Stock.bypass (.ofSettings s)).enter depth t).form = true := by
  by_cases h : ∃ access, (Bypass.ofSettings s).Redirects t.form access
  · obtain ⟨access, h⟩ := h
    rw [Stock.enter_bypass_of_redirects depth h]
    exact s.exempts_bypassName
  · rw [Stock.enter_bypass_of_not_redirects depth (not_exists.mp h)]
    exact isBypassed_of_not_redirects s (not_exists.mp h)

theorem isBypassed_of_contains (t u : Tree) (h : (translate s t).Contains u) :
    s.isBypassed u.form = true := by
  suffices hall : ∀ depth t, ∀ u, (translate s t).Contains u → s.isBypassed u.form = true from
    hall 0 t u h
  intro depth t
  induction depth, t using (Stock.plan [.bypass (.ofSettings s)]).induction with
  | step depth t ih =>
    intro u hu
    rw [translate_eq s depth] at hu
    cases hu with
    | here => exact (s.isBypassed_map _ _).trans (isBypassed_enter s depth t)
    | inChild hc hu =>
      rw [Form.children_map] at hc
      obtain ⟨c, hmem, rfl⟩ := List.mem_map.mp hc
      exact ih c hmem u hu

/-! ## Changes -/

/-- The call in place of an access is never the access itself: it is on the bypass class, which is
exempt. -/
theorem translate_ne_of_redirects {t : Tree} {access : Access}
    (h : (Bypass.ofSettings s).Redirects t.form access) : translate s t ≠ t := by
  intro he
  have hform : t.form = .staticCall (.named s.bypassName) (.named access.method)
      ((Access.arguments t.form).map (·.map (translate s))) := by
    rw [← translateForm_of_redirects s h]
    exact (congrArg Tree.form ((translate_mk s t).symm.trans he)).symm
  rw [hform] at h
  cases h with
  | staticCall owner name args howner =>
    rw [isRuntime_ofSettings, s.exempts_bypassName] at howner
    contradiction

theorem replacements_bypass_eq_zero_iff (depth : Nat) (t : Tree) :
    Stock.replacements depth [.bypass (.ofSettings s)] t = 0 ↔
      ∀ access, ¬(Bypass.ofSettings s).Redirects t.form access := by
  rw [← Bypass.access?_eq_none_iff, Stock.replacements, Stock.replacements, Stock.answer,
    Bypass.enter]
  cases h : (Bypass.ofSettings s).access? t with
  | none => exact iff_of_true rfl rfl
  | some access =>
    refine iff_of_false ?_ ?_
    · intro hzero
      cases hzero
    · intro hnone
      cases hnone

/-- A walk replaces nothing in a tree exactly when the translation leaves the tree as it is. -/
theorem tally_replaced_iff (depth : Nat) (t : Tree) :
    ((Stock.plan [.bypass (.ofSettings s)]).tally depth t).replaced = 0 ↔ translate s t = t := by
  induction depth, t using (Stock.plan [.bypass (.ofSettings s)]).induction with
  | step depth t ih =>
    rw [Plan.tally_replaced_eq_zero_iff]
    by_cases h : ∃ access, (Bypass.ofSettings s).Redirects t.form access
    · obtain ⟨access, h⟩ := h
      refine iff_of_false (fun hzero => ?_) (translate_ne_of_redirects s h)
      exact (replacements_bypass_eq_zero_iff s depth t).mp hzero.1 access h
    · have hnot := not_exists.mp h
      have henter : (Stock.plan [.bypass (.ofSettings s)]).enter depth t = t :=
        Stock.enter_bypass_of_not_redirects depth hnot
      have hzero : (Stock.plan [.bypass (.ofSettings s)]).replaced depth t = 0 :=
        (replacements_bypass_eq_zero_iff s depth t).mpr hnot
      have htranslate : translate s t = t ↔ t.form.map (translate s) = t.form := by
        obtain ⟨form, attrs⟩ := t
        rw [translate_mk, translateForm_of_not_redirects s hnot]
        exact ⟨congrArg Tree.form, congrArg (Tree.mk · attrs)⟩
      rw [henter] at ih ⊢
      rw [htranslate, Form.map_eq_self_iff]
      exact (and_iff_right hzero).trans (forall₂_congr ih)

theorem translate_eq_self {t : Tree} (h : ∀ u, t.Contains u → s.isBypassed u.form = true) :
    translate s t = t := by
  induction t using Tree.inductionOn with
  | mk form attrs ih =>
    rw [translate_mk, translateForm_of_not_redirects s (not_redirects_of_isBypassed s h),
      Form.map_eq_self form fun c hc => ih c hc fun u hu => h u (.inChild hc hu)]

theorem map_translate_eq_self_iff (ts : Forest) :
    ts.map (translate s) = ts ↔ ∀ t ∈ ts, translate s t = t := by
  have h : ts.map (translate s) = ts.map id ↔ ∀ t ∈ ts, translate s t = t := List.map_inj_left
  rwa [List.map_id] at h

theorem total_replaced_bypass_iff (ts : Forest) :
    (Tally.total (ts.map ((Stock.plan [.bypass (.ofSettings s)]).tally 0))).replaced = 0 ↔
      ts.map (translate s) = ts := by
  rw [Tally.total_eq_zero_iff Tally.replaced rfl (fun _ _ => rfl), List.forall_mem_map,
    map_translate_eq_self_iff]
  exact forall₂_congr fun t _ => tally_replaced_iff s 0 t

theorem changed_bypass_iff (ts : Forest) :
    (Tally.total (ts.map ((Stock.plan [.bypass (.ofSettings s)]).tally 0))).changed = true ↔
      ts.map (translate s) ≠ ts := by
  have hremoved : (Tally.total (ts.map ((Stock.plan [.bypass (.ofSettings s)]).tally 0))).removed =
      0 := by
    rw [Tally.total_eq_zero_iff Tally.removed rfl (fun _ _ => rfl), List.forall_mem_map]
    exact fun t _ => Plan.tally_removed _ 0 t
  rw [Tally.changed, hremoved, Ne, ← total_replaced_bypass_iff]
  simp [Nat.pos_iff_ne_zero]

/-- A run of the bypass pass leaves no access at any depth, except on the runtime classes and in
constructions that are not to be redirected; a run over its result changes nothing; and it reports a
change exactly when there is one. -/
theorem run_bypass_complete (ts : Forest) :
    ∃ us tally, (run [(Bypass.ofSettings s).pass] ts).result = .ok (us, tally) ∧
      (∀ t ∈ us, ∀ u, t.Contains u → s.isBypassed u.form = true) ∧
      (∃ again, (run [(Bypass.ofSettings s).pass] us).result = .ok (us, again) ∧
        again.replaced = 0) ∧
      (tally.changed = true ↔ us ≠ ts) := by
  have hdone : ∀ t ∈ ts.map (translate s), ∀ u, t.Contains u → s.isBypassed u.form = true := by
    intro t ht u hu
    obtain ⟨t, -, rfl⟩ := List.mem_map.mp ht
    exact isBypassed_of_contains s t u hu
  have hfix : (ts.map (translate s)).map (translate s) = ts.map (translate s) :=
    (map_translate_eq_self_iff s _).mpr fun t ht => translate_eq_self s (hdone t ht)
  have hagain := run_bypass s (ts.map (translate s))
  rw [hfix] at hagain
  exact ⟨_, _, run_bypass s ts, hdone, ⟨_, hagain, (total_replaced_bypass_iff s _).mpr hfix⟩,
    changed_bypass_iff s ts⟩

end Graft
