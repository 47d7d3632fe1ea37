import Graft.Proofs.Translation
import Graft.Tree.Make
import Graft.Tree.Source

/-! # Targets of assignments

A place is what can stand on the left of an assignment. The bypass pass redirects an assignment to a
property as a whole; every other assignment it keeps, and translates the target like any expression
(`assignsToPlaces_translate`). So a property, or a static property of a class other than the runtime
classes, becomes a call when it is an item of an array on the left, and a call is no place: the targets
stay places exactly if no array on the left has such an item (`run_bypass_places`).
-/

set_option autoImplicit false

namespace Graft

/-! ## Places -/

/-- A variable, a property, a static property, or an array of places. -/
def Tree.isPlace : Tree → Bool :=
  recurse fun form _ =>
    match form with
    | .var _ | .property _ _ | .staticProperty _ _ => true
    | .array items => items.all (·.2)
    | _ => false

theorem Tree.isPlace_array (items : Forest) (attrs : Attributes) :
    isPlace ⟨.array items, attrs⟩ = items.all isPlace := by
  rw [isPlace, recurse_mk]
  simp only [Form.map, List.all_map]
  rfl

/-- Every assignment in the tree, at any depth, satisfies `P`. -/
def Tree.EveryAssign (P : Tree → Tree → Prop) (t : Tree) : Prop :=
  ∀ target value attrs, t.Contains ⟨.assign target value, attrs⟩ → P target value

theorem Tree.everyAssign_mk (P : Tree → Tree → Prop) (form : Form Tree) (attrs : Attributes) :
    EveryAssign P ⟨form, attrs⟩ ↔
      (∀ target value, form = .assign target value → P target value) ∧
        ∀ c ∈ form.children, c.EveryAssign P := by
  constructor
  · intro h
    refine ⟨?_, fun c hc target value attrs hu => h target value attrs (.inChild hc hu)⟩
    rintro target value rfl
    exact h target value attrs (.here _)
  · rintro ⟨hself, hchild⟩ target value attrs hu
    cases hu with
    | here => exact hself target value rfl
    | inChild hc hu => exact hchild _ hc target value attrs hu

/-- Every assignment in the tree is to a place. -/
def Tree.AssignsToPlaces : Tree → Prop :=
  EveryAssign fun target _ => target.isPlace = true

/-- Whether a tree is still a place when the bypass pass has gone through it. -/
def Settings.leavesPlace (s : Settings) : Tree → Bool :=
  Tree.recurse fun form _ =>
    match form with
    | .var _ => true
    | .staticProperty (.named name) _ => s.isRuntime name
    | .array items => items.all (·.2)
    | _ => false

theorem Settings.leavesPlace_array (s : Settings) (items : Forest) (attrs : Attributes) :
    s.leavesPlace ⟨.array items, attrs⟩ = items.all s.leavesPlace := by
  rw [leavesPlace, Tree.recurse_mk]
  simp only [Form.map, List.all_map]
  rfl

theorem Settings.leavesPlace_staticProperty (s : Settings) (owner : Reference Tree) (name : Member Tree)
    (attrs : Attributes) : s.leavesPlace ⟨.staticProperty owner name, attrs⟩ = s.exempts owner := by
  rw [leavesPlace, Tree.recurse_mk]
  cases owner <;> rfl

/-! ## Targets through the translation -/

section
variable (s : Settings)

theorem leavesPlace_of_redirects {form : Form Tree} {access : Access}
    (h : (Bypass.ofSettings s).Redirects form access) (attrs : Attributes) :
    s.leavesPlace ⟨form, attrs⟩ = false := by
  cases h with
  | staticProperty owner name howner =>
    rw [isRuntime_ofSettings] at howner
    rw [Settings.leavesPlace_staticProperty, howner]
  | _ => rw [Settings.leavesPlace, Tree.recurse_mk]; rfl

theorem isPlace_translate (t : Tree) : (translate s t).isPlace = s.leavesPlace t := by
  induction t using Tree.inductionOn with
  | mk form attrs ih =>
    by_cases h : ∃ access, (Bypass.ofSettings s).Redirects form access
    · obtain ⟨access, h⟩ := h
      rw [leavesPlace_of_redirects s h, translate_mk, translateForm_of_redirects s h, Tree.isPlace,
        Tree.recurse_mk]
      rfl
    · have hnot := not_exists.mp h
      rw [translate_mk, translateForm_of_not_redirects s hnot]
      cases form
      case array items =>
        have hitems : ∀ c ∈ items, (translate s c).isPlace = s.leavesPlace c := ih
        rw [Form.map, Tree.isPlace_array, Settings.leavesPlace_array, List.all_map, Bool.eq_iff_iff,
          List.all_eq_true, List.all_eq_true]
        exact forall₂_congr fun c hc => by rw [Function.comp, hitems c hc]
      case staticProperty owner name =>
        have howner := exempts_of_ne s fun hn => hnot _ (.staticProperty owner name hn)
        rw [Settings.leavesPlace_staticProperty, howner, Tree.isPlace, Tree.recurse_mk]
        rfl
      case property object name => exact absurd (.property object name) (hnot _)
      all_goals
        rw [Tree.isPlace, Settings.leavesPlace, Tree.recurse_mk, Tree.recurse_mk]
        rfl

section
variable {P : Tree → Tree → Prop}

theorem everyAssign_text (text : String) : (Tree.text text).EveryAssign P := by
  refine (Tree.everyAssign_mk P _ _).mpr ⟨?_, List.forall_mem_nil _⟩
  intro target value h
  cases h

theorem everyAssign_member (m : Member Tree) :
    m.argument.EveryAssign P ↔ ∀ c ∈ m.children, c.EveryAssign P := by
  cases m with
  | named text => exact iff_of_true (everyAssign_text text) (List.forall_mem_nil _)
  | computed expr => simp [Member.argument, Member.children]

theorem everyAssign_reference (r : Reference Tree) :
    r.argument.EveryAssign P ↔ ∀ c ∈ r.children, c.EveryAssign P := by
  cases r with
  | named name => exact iff_of_true (everyAssign_text name.text) (List.forall_mem_nil _)
  | computed expr => simp [Reference.argument, Reference.children]

/-- The arguments of a redirected access hold the assignments that its parts hold. -/
theorem everyAssign_arguments {b : Bypass} {form : Form Tree} {access : Access}
    (h : b.Redirects form access) :
    (∀ c ∈ Arg.children (Access.arguments form), c.EveryAssign P) ↔
      ∀ c ∈ form.children, c.EveryAssign P := by
  cases h <;>
    simp [Access.arguments, Arg.children, Arg.plain, Form.children, everyAssign_member,
      everyAssign_reference, Tree.everyAssign_mk, or_imp, forall_and, and_assoc]

end

/-- Whether an assignment is redirected as a whole or has a target that stays a place. -/
def Settings.Assignable (target value : Tree) : Prop :=
  (∃ access, (Bypass.ofSettings s).Redirects (.assign target value) access) ∨
    s.leavesPlace target = true

/-- An assignment that the pass keeps has the translated target. -/
theorem assigns_map_translate {form : Form Tree}
    (h : ∀ access, ¬(Bypass.ofSettings s).Redirects form access) :
    (∀ target value, form.map (translate s) = .assign target value → target.isPlace = true) ↔
      ∀ target value, form = .assign target value → s.Assignable target value := by
  constructor
  · rintro hmap target value rfl
    refine .inr ?_
    rw [← isPlace_translate]
    exact hmap _ _ rfl
  · intro hform target value he
    cases form
    case assign target value =>
      cases he
      rw [isPlace_translate]
      exact (hform target value rfl).resolve_left (not_exists.mpr h)
    all_goals cases he

theorem assignsToPlaces_translate (t : Tree) :
    (translate s t).AssignsToPlaces ↔ t.EveryAssign s.Assignable := by
  -- the walk goes on in the arguments of the calls it makes, so the induction is on the walk
  suffices hall : ∀ depth t, (translate s t).AssignsToPlaces ↔ t.EveryAssign s.Assignable from
    hall 0 t
  intro depth t
  induction depth, t using (Stock.plan [.bypass (.ofSettings s)]).induction with
  | step depth t ih =>
    have hchild := forall₂_congr ih
    change (∀ c ∈ ((Stock.bypass (.ofSettings s)).enter depth t).form.children, _) ↔
      (∀ c ∈ ((Stock.bypass (.ofSettings s)).enter depth t).form.children, _) at hchild
    rw [translate_eq s depth, Tree.AssignsToPlaces, Tree.everyAssign_mk, Form.children_map,
      List.forall_mem_map]
    refine (and_congr_right' hchild).trans ?_
    obtain ⟨form, attrs⟩ := t
    rw [Tree.everyAssign_mk]
    by_cases h : ∃ access, (Bypass.ofSettings s).Redirects form access
    · have hself : ∀ target value, form = .assign target value → s.Assignable target value :=
        fun target value he => .inl (he ▸ h)
      obtain ⟨access, h⟩ := h
      rw [Stock.enter_bypass_of_redirects depth h, and_iff_right hself, ← everyAssign_arguments h]
      refine and_iff_right fun target value he => ?_
      cases he
    · have hnot := not_exists.mp h
      rw [Stock.enter_bypass_of_not_redirects depth hnot]
      exact and_congr_left' (assigns_map_translate s hnot)

/-- Of an assignment to a place, only one to an array may be left with a target that is no place. -/
theorem assignable_iff {target value : Tree} (h : target.isPlace = true) :
    s.Assignable target value ↔
      ∀ items attrs, target = ⟨.array items, attrs⟩ → ∀ item ∈ items, s.leavesPlace item = true := by
  obtain ⟨form, attrs⟩ := target
  cases form
  case var name =>
    refine iff_of_true (.inr ?_) (fun items attrs he => nomatch he)
    rw [Settings.leavesPlace, Tree.recurse_mk]
    rfl
  case property object name =>
    exact iff_of_true (.inl ⟨_, .assignProperty object name attrs value⟩) (fun _ _ he => nomatch he)
  case staticProperty owner name =>
    refine iff_of_true ?_ (fun _ _ he => nomatch he)
    by_cases howner : s.exempts owner = true
    · exact .inr (by rw [Settings.leavesPlace_staticProperty, howner])
    · rw [← isRuntime_ofSettings, Bool.not_eq_true] at howner
      exact .inl ⟨_, .assignStaticProperty owner name attrs value howner⟩
  case array items =>
    have hnot : ¬∃ access,
        (Bypass.ofSettings s).Redirects (.assign ⟨.array items, attrs⟩ value) access :=
      fun ⟨access, h⟩ => nomatch h
    rw [Settings.Assignable, or_iff_right hnot, Settings.leavesPlace_array, List.all_eq_true]
    constructor
    · rintro hitems items' attrs' he
      cases he
      exact hitems
    · exact fun hitems => hitems items attrs rfl
  all_goals
    rw [Tree.isPlace, Tree.recurse_mk] at h
    cases h

/-- A run of the bypass pass over assignments to places gives assignments to places exactly if every
item of an array on the left stays a place. -/
theorem run_bypass_places (ts : Forest) (h : ∀ t ∈ ts, t.AssignsToPlaces) :
    ∃ us tally, (run [(Bypass.ofSettings s).pass] ts).result = .ok (us, tally) ∧
      ((∀ u ∈ us, u.AssignsToPlaces) ↔
        ∀ t ∈ ts, t.EveryAssign fun target _ => ∀ items attrs, target = ⟨.array items, attrs⟩ →
          ∀ item ∈ items, s.leavesPlace item = true) := by
  refine ⟨_, _, run_bypass s ts, ?_⟩
  rw [List.forall_mem_map]
  refine forall₂_congr fun t ht => (assignsToPlaces_translate s t).trans ?_
  refine forall₃_congr fun target value attrs => forall_congr' fun hu => ?_
  exact assignable_iff s (h t ht target value attrs hu)

end

/-- `[$a, [$b]] = $c` keeps its target, and `$a->b = $c` becomes a call. -/
theorem run_bypass_places_nested :
    (∀ t ∈ [Make.assign (Make.array [Make.var "a", Make.array [Make.var "b"]]) (Make.var "c"),
        Make.assign (Make.property (Make.var "a") "b") (Make.var "c")], t.AssignsToPlaces) ∧
      ∃ us tally, (run [(Bypass.ofSettings {}).pass]
        [Make.assign (Make.array [Make.var "a", Make.array [Make.var "b"]]) (Make.var "c"),
          Make.assign (Make.property (Make.var "a") "b") (Make.var "c")]).result = .ok (us, tally) ∧
        ∀ u ∈ us, u.AssignsToPlaces := by
  have h : ∀ t ∈ [Make.assign (Make.array [Make.var "a", Make.array [Make.var "b"]]) (Make.var "c"),
      Make.assign (Make.property (Make.var "a") "b") (Make.var "c")], t.AssignsToPlaces := by
    simp [Make.assign, Make.array, Make.var, Make.property, Tree.bare, Tree.AssignsToPlaces,
      Tree.everyAssign_mk, Form.children, Member.children, Tree.isPlace, Tree.recurse_mk, Form.map]
  obtain ⟨us, tally, hrun, hplaces⟩ := run_bypass_places {} _ h
  refine ⟨h, us, tally, hrun, hplaces.mpr ?_⟩
  simp [Make.assign, Make.array, Make.var, Make.property, Tree.bare, Tree.everyAssign_mk, Form.children,
    Member.children, Settings.leavesPlace, Tree.recurse_mk, Form.map]

/-- `[$a->b] = $c` becomes an assignment to an array with a call in it. -/
theorem not_assignsToPlaces_destructured :
    ∃ t u tally,
      t = (Make.assign (Make.array [Make.property (Make.var "a") "b"]) (Make.var "c")).asStatement ∧
        t.AssignsToPlaces ∧ (run [(Bypass.ofSettings {}).pass] [t]).result = .ok ([u], tally) ∧
        u.source = "[\\Instrument\\Bypass::fetchProperty($a, 'b')] = $c;" ∧ ¬u.AssignsToPlaces := by
  refine ⟨_, _, _, rfl, ?_, run_bypass {} _, ?_, ?_⟩
  · simp [Make.assign, Make.array, Make.var, Make.property, Tree.bare, Tree.asStatement,
      Tree.AssignsToPlaces, Tree.everyAssign_mk, Form.children, Member.children, Tree.isPlace,
      Tree.recurse_mk, Form.map]
  · rfl
  · intro h
    have htarget := h _ _ _ (.inChild (List.mem_singleton_self _) (.here _))
    cases htarget

end Graft
