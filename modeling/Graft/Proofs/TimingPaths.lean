import Graft.Proofs.ControlPaths
import Graft.Proofs.Marking
import Graft.Tree.Make

/-! # Timing on control paths

The timing pass brackets every control path through a well-formed fragment exactly once
(`timing_brackets_control_paths`). Two mechanisms share the work. Marking closes the paths that end in
a return, wherever the return stands (`paths_mark`); bracketing closes the paths that fall through, by
what the last statement is (`paths_finish`). Neither touches the paths of the other.
-/

set_option autoImplicit false

namespace Graft

/-! ## Well-formed trees -/

/-- The kinds that stand only in a class. -/
def Kind.isMember : Kind → Bool
  | .method | .propertyDecl | .constantDecl => true
  | _ => false

/-- Whether every slot holds a kind that it asks for: bodies of classes hold members, other bodies
hold anything else, and all other slots hold expressions. -/
def Form.fits : Form Kind → Bool
  | .closure params _ _ body | .function _ params body | .method _ _ _ params body =>
    (Param.children params).all Kind.isExpression && body.all (!·.isMember)
  | .branch condition yes no => condition.isExpression && (yes ++ no.getD []).all (!·.isMember)
  | .loop condition body => condition.isExpression && body.all (!·.isMember)
  | .block statements => statements.all (!·.isMember)
  | .classDecl _ _ members => members.all Kind.isMember
  | form => form.children.all Kind.isExpression

/-- Whether every form in the tree fits its children. -/
def Tree.fits : Tree → Bool :=
  recurse fun form _ => (form.map (·.1.kind)).fits && form.children.all Prod.snd

/-- A well-formed fragment: statements and bare expressions that fit. -/
def Forest.fits (ts : Forest) : Bool := ts.all fun u => !u.kind.isMember && u.fits

theorem Tree.fits_iff (u : Tree) :
    u.fits = true ↔ (u.form.map Tree.kind).fits = true ∧ ∀ c ∈ u.form.children, c.fits = true := by
  obtain ⟨form, attrs⟩ := u
  rw [fits, recurse_mk, ← fits, Form.map_map, Form.children_map, Bool.and_eq_true, List.all_map,
    List.all_eq_true]
  rfl

theorem Form.not_steers_of_fits {form : Form Kind} (hfits : form.fits = true)
    (hlike : form.kind.isFunctionLike = false) (hsteers : form.kind.steers = false) :
    ∀ k ∈ form.children, k.steers = false := by
  intro k hk
  -- the members are those of a class declaration; no other form that is left has a body
  have hkind : k.isExpression = true ∨ k.isMember = true := by
    cases form
    all_goals first
      | contradiction
      | exact .inl (List.all_eq_true.mp hfits k hk)
      | exact .inr (List.all_eq_true.mp hfits k hk)
  clear hk
  revert hkind
  cases k <;> decide

theorem Kind.not_steers_of_isExpression {k : Kind} (h : k.isExpression = true) :
    k.steers = false := by
  revert h
  cases k <;> decide

/-! ## Classes that a tree mentions -/

def Reference.names {α : Type} : Reference α → List Name
  | .named name => [name]
  | .computed _ => []

/-- The classes that a form names, apart from its children. -/
def Form.classes {α : Type} : Form α → List Name
  | .staticProperty owner _ | .staticCall owner _ _ => owner.names
  | .classConstant owner _ | .construct owner _ => owner.names
  | .classDecl _ parent _ => parent.toList
  | _ => []

theorem Form.classes_map {α β : Type} (f : α → β) (form : Form α) :
    (form.map f).classes = form.classes := by
  have hnames : ∀ r : Reference α, (r.map f).names = r.names := fun r => by cases r <;> rfl
  cases form <;> first | rfl | exact hnames _

/-- Whether a form names the class, qualified or not. -/
def Form.mentions {α : Type} (name : Name) (form : Form α) : Bool :=
  form.classes.any (·.parts = name.parts)

/-- Whether the class is named anywhere in the tree. -/
def Tree.mentions (name : Name) : Tree → Bool :=
  recurse fun form _ => form.mentions name || form.children.any Prod.snd

/-- Whether the class is named anywhere in the fragment. -/
def Forest.mentions (name : Name) (ts : Forest) : Bool := ts.any (Tree.mentions name)

def Effect.mentions (name : Name) : Effect → Bool
  | perform operation => operation.mentions name
  | define tree => tree.mentions name

theorem Form.mentions_map {α β : Type} (name : Name) (f : α → β) (form : Form α) :
    (form.map f).mentions name = form.mentions name := by
  rw [mentions, classes_map, mentions]

theorem Tree.mentions_eq_false_iff (name : Name) (u : Tree) :
    u.mentions name = false ↔
      u.form.mentions name = false ∧ ∀ c ∈ u.form.children, c.mentions name = false := by
  obtain ⟨form, attrs⟩ := u
  rw [mentions, recurse_mk, ← mentions, Form.mentions_map, Form.children_map, Bool.or_eq_false_iff,
    List.any_map, List.any_eq_false]
  simp only [Function.comp_apply, Bool.not_eq_true]

theorem Tree.mentions_effects (name : Name) (u : Tree) (h : u.mentions name = false) :
    ∀ e ∈ u.effects, e.mentions name = false := by
  induction u using Tree.inductionOn with
  | mk form attrs ih =>
    obtain ⟨hform, hchildren⟩ := (mentions_eq_false_iff name _).mp h
    cases hlike : (⟨form, attrs⟩ : Tree).isFunctionLike with
    | true =>
      rw [effects_of_isFunctionLike hlike]
      intro e he
      rw [List.mem_singleton.mp he]
      exact h
    | false =>
      rw [effects_of_not_isFunctionLike hlike]
      intro e he
      obtain he | he := List.mem_append.mp he
      · obtain ⟨c, hc, he⟩ := List.mem_flatMap.mp he
        exact ih c hc (hchildren c hc) e he
      · have hoperation : ∀ e ∈ form.operation, e = .perform (form.map fun _ => ()) := by
          cases form <;> simp [Form.operation]
        rw [hoperation e he, Effect.mentions, Form.mentions_map]
        exact hform

theorem Tree.mentions_paths (name : Name) (u : Tree) (h : u.mentions name = false) :
    u.paths.Throughout fun e => e.mentions name = false := by
  induction u using Tree.inductionOn with
  | mk form attrs ih =>
    obtain ⟨-, hchildren⟩ := (mentions_eq_false_iff name _).mp h
    have hpart (ts : Forest) (hts : ∀ c ∈ ts, c ∈ form.children) :
        ts.paths.Throughout fun e => e.mentions name = false := by
      refine Paths.throughout_sequence fun A hA => ?_
      obtain ⟨c, hc, rfl⟩ := List.mem_map.mp hA
      exact ih c (hts c hc) (hchildren c (hts c hc))
    cases hsteers : form.kind.steers with
    | false =>
      rw [paths_of_not_steers (u := ⟨form, attrs⟩) hsteers]
      exact Paths.throughout_straight (mentions_effects name _ h)
    | true =>
      have heffects (c : Tree) (hc : c ∈ form.children) : ∀ e ∈ c.effects, e.mentions name = false :=
        mentions_effects name c (hchildren c hc)
      cases form with
      | ret value =>
        cases value with
        | none =>
          rw [paths_ret_none]
          refine Paths.throughout_leaving ?_ false
          intro e he
          cases he
        | some v =>
          rw [paths_ret_some]
          exact Paths.throughout_leaving (heffects v (List.mem_singleton_self v)) true
      | branch condition yes no =>
        rw [paths_branch]
        have hyes := hpart yes fun c hc => by simp [Form.children, hc]
        have hno := hpart (no.getD []) fun c hc => by simp [Form.children, hc]
        exact (Paths.throughout_straight (heffects condition (by simp [Form.children]))).andThen
          (hyes.union hno)
      | loop condition body =>
        rw [paths_loop]
        exact Paths.throughout_iterate (heffects condition (by simp [Form.children]))
          (hpart body fun c hc => by simp [Form.children, hc])
      | block statements =>
        rw [paths_block]
        exact hpart statements fun c hc => hc
      | _ => contradiction

theorem Forest.mentions_paths (name : Name) (ts : Forest) (h : ts.mentions name = false) :
    ts.paths.Throughout fun e => e.mentions name = false := by
  refine Paths.throughout_sequence fun A hA => ?_
  obtain ⟨u, hu, rfl⟩ := List.mem_map.mp hA
  exact u.mentions_paths name (Bool.eq_false_iff.mpr (List.any_eq_false.mp h u hu))

/-! ## Effects of marks -/

namespace Timing

variable (t : Timing)

def startEffect : Effect := .perform (.staticCall (.named t.timer.qualify) (.named "markStart") [])

def endEffect : Effect :=
  .perform (.staticCall (.named t.timer.qualify) (.named "markEnd") [.plain ()])

/-- The construction of what stands for a missing value. -/
def missingEffect : Effect := .perform (.construct (.named t.noValue.qualify) [])

/-- The effects of an end mark, apart from those of its value. -/
def closing : Bool → List Effect
  | true => [t.endEffect]
  | false => [t.missingEffect, t.endEffect]

/-- What is added to a path where it meets a return. -/
def returning : Exit → List Effect
  | .fall => []
  | .ret gives => t.closing gives

/-- What is added to a path at its end; `gives` says whether there is a value at the end of the
fragment. -/
def ending (gives : Bool) : Exit → List Effect
  | .fall => t.closing gives
  | .ret gives => t.closing gives

theorem effects_startMark : t.startMark.effects = [t.startEffect] :=
  Tree.effects_of_not_isFunctionLike rfl

theorem effects_endMark (value : Tree) :
    (t.endMark value).effects = value.effects ++ t.closing true := by
  rw [Tree.effects_of_not_isFunctionLike rfl]
  show [value].flatMap Tree.effects ++ [t.endEffect] = _
  rw [List.flatMap_singleton]
  rfl

theorem effects_endMarkAlone : t.endMarkAlone.effects = t.closing false := by
  have hmarker : (Tree.marker t.noValue).effects = [t.missingEffect] :=
    Tree.effects_of_not_isFunctionLike rfl
  rw [Tree.effects_of_not_isFunctionLike rfl]
  show [Tree.marker t.noValue].flatMap Tree.effects ++ [t.endEffect] = _
  rw [List.flatMap_singleton, hmarker]
  rfl

theorem paths_asStatement (u : Tree) : u.asStatement.paths = .straight u.effects := by
  rw [Tree.paths_of_not_steers rfl, Tree.effects_of_not_isFunctionLike rfl]
  show Paths.straight ([u].flatMap Tree.effects ++ []) = _
  rw [List.flatMap_singleton, List.append_nil]

/-! ## Returns -/

theorem mark_eq_self (u : Tree) (hfits : u.fits = true) (hsteers : u.kind.steers = false) :
    t.mark u = u := by
  induction u using Tree.inductionOn with
  | mk form attrs ih =>
    obtain ⟨hform, hchildren⟩ := (Tree.fits_iff _).mp hfits
    cases hlike : (⟨form, attrs⟩ : Tree).isFunctionLike with
    | true => exact t.mark_of_isFunctionLike hlike
    | false =>
      -- marking only reaches a return through the kinds that steer, and none of them is below
      have hret : (⟨form, attrs⟩ : Tree).kind ≠ .ret := fun h => by
        rw [h] at hsteers
        contradiction
      have hbelow : ∀ c ∈ form.children, c.kind.steers = false := by
        intro c hc
        refine Form.not_steers_of_fits hform ?_ ?_ c.kind ?_
        · rw [Form.kind_map]
          exact hlike
        · rw [Form.kind_map]
          exact hsteers
        · rw [Form.children_map]
          exact List.mem_map_of_mem hc
      rw [t.mark_of_kind_ne hlike hret]
      show (⟨form.map t.mark, attrs⟩ : Tree) = _
      rw [Form.map_eq_self _ fun c hc => ih c hc (hchildren c hc) (hbelow c hc)]

theorem mark_eq_self_of_isExpression {u : Tree} (hfits : u.fits = true)
    (h : u.isExpression = true) : t.mark u = u :=
  t.mark_eq_self u hfits (Kind.not_steers_of_isExpression h)

theorem paths_mark_ret (value : Option Tree) (attrs : Attributes)
    (hfits : Tree.fits ⟨.ret value, attrs⟩ = true) :
    (t.mark ⟨.ret value, attrs⟩).paths = Path.close t.returning '' Tree.paths ⟨.ret value, attrs⟩ := by
  rw [mark_ret, Tree.paths_ret_some]
  cases value with
  | none =>
    show Paths.leaving t.endMarkAlone.effects true = _
    rw [effects_endMarkAlone, Tree.paths_ret_none, Paths.leaving, Paths.leaving, Set.image_singleton]
    rfl
  | some v =>
    obtain ⟨hform, hchildren⟩ := (Tree.fits_iff _).mp hfits
    have hv : t.mark v = v :=
      t.mark_eq_self_of_isExpression (hchildren v (List.mem_singleton_self v))
        (List.all_eq_true.mp hform v.kind (List.mem_singleton_self v.kind))
    show Paths.leaving (t.endMark (t.mark v)).effects true = _
    rw [hv, effects_endMark, Tree.paths_ret_some, Paths.leaving, Paths.leaving, Set.image_singleton]
    rfl

theorem paths_map_mark {ts : Forest}
    (h : ∀ u ∈ ts, (t.mark u).paths = Path.close t.returning '' u.paths) :
    Forest.paths (ts.map t.mark) = Path.close t.returning '' ts.paths := by
  rw [Forest.paths, Forest.paths, Paths.image_close_sequence rfl, List.map_map, List.map_map]
  exact congrArg Paths.sequence (List.map_congr_left h)

/-- Marking closes every path that ends in a return and leaves the others as they are. -/
theorem paths_mark (u : Tree) (hfits : u.fits = true) :
    (t.mark u).paths = Path.close t.returning '' u.paths := by
  induction u using Tree.inductionOn with
  | mk form attrs ih =>
    obtain ⟨hform, hchildren⟩ := (Tree.fits_iff _).mp hfits
    have hpart (ts : Forest) (hts : ∀ c ∈ ts, c ∈ form.children) :
        Forest.paths (ts.map t.mark) = Path.close t.returning '' ts.paths :=
      t.paths_map_mark fun c hc => ih c (hts c hc) (hchildren c (hts c hc))
    cases hsteers : form.kind.steers with
    | false =>
      rw [t.mark_eq_self _ hfits hsteers, Tree.paths_of_not_steers (u := ⟨form, attrs⟩) hsteers,
        Paths.image_close_straight rfl]
    | true =>
      cases form with
      | ret value => exact t.paths_mark_ret value attrs hfits
      | branch condition yes no =>
        have hcondition : t.mark condition = condition :=
          t.mark_eq_self_of_isExpression (hchildren condition (by simp [Form.children]))
            (Bool.and_eq_true_iff.mp hform).1
        have hyes := hpart yes fun c hc => by simp [Form.children, hc]
        have hno := hpart (no.getD []) fun c hc => by simp [Form.children, hc]
        have hmap : (no.map (·.map t.mark)).getD [] = (no.getD []).map t.mark := by
          cases no <;> rfl
        rw [mark_branch, hcondition, Tree.paths_branch, Tree.paths_branch, hmap, hyes, hno,
          ← Set.image_union, Paths.image_close_andThen rfl (fun _ => rfl),
          Paths.image_close_straight rfl]
      | loop condition body =>
        have hcondition : t.mark condition = condition :=
          t.mark_eq_self_of_isExpression (hchildren condition (by simp [Form.children]))
            (Bool.and_eq_true_iff.mp hform).1
        have hbody := hpart body fun c hc => by simp [Form.children, hc]
        rw [mark_loop, hcondition, Tree.paths_loop, Tree.paths_loop, hbody,
          Paths.image_close_iterate rfl]
      | block statements =>
        rw [mark_block, Tree.paths_block, Tree.paths_block, hpart statements fun c hc => hc]
      | _ => contradiction

/-! ## The end of the fragment -/

theorem image_close_ending_straight (gives : Bool) (effects : List Effect) :
    Path.close (t.ending gives) '' Paths.straight effects =
      Paths.straight (effects ++ t.closing gives) := Set.image_singleton

theorem image_close_ending_andThen (gives : Bool) (A B : Paths) :
    Path.close (t.ending gives) '' A.andThen B =
      Paths.andThen (Path.close t.returning '' A) (Path.close (t.ending gives) '' B) := by
  have hret (given : Bool) : t.returning (.ret given) = t.ending gives (.ret given) := rfl
  exact Paths.image_close_andThen rfl hret A B

theorem paths_mark_endMarkAlone (last : Tree) (hfits : last.fits = true) :
    Forest.paths [t.mark last, t.endMarkAlone.asStatement] =
      Path.close (t.ending false) '' last.paths := by
  have hend : Forest.paths [t.endMarkAlone.asStatement] =
      Path.close (t.ending false) '' Paths.straight [] := by
    rw [Forest.paths_singleton, paths_asStatement, effects_endMarkAlone,
      image_close_ending_straight, List.nil_append]
  calc Forest.paths [t.mark last, t.endMarkAlone.asStatement]
      = (t.mark last).paths.andThen (Forest.paths [t.endMarkAlone.asStatement]) := rfl
    _ = Paths.andThen (Path.close t.returning '' last.paths)
          (Path.close (t.ending false) '' Paths.straight []) := by
        rw [t.paths_mark last hfits, hend]
    _ = Path.close (t.ending false) '' last.paths.andThen (Paths.straight []) := by
        rw [image_close_ending_andThen]
    _ = Path.close (t.ending false) '' last.paths := by rw [Paths.andThen_nil]

theorem paths_finish_expression (expr : Tree) (attrs : Attributes)
    (hfits : Tree.fits ⟨.expression expr, attrs⟩ = true) :
    Forest.paths (t.finish (t.mark ⟨.expression expr, attrs⟩)) =
      Path.close (t.ending true) '' Tree.paths ⟨.expression expr, attrs⟩ := by
  have hpaths (e : Tree) : Tree.paths ⟨.expression e, attrs⟩ = .straight e.effects := by
    rw [Tree.paths_of_not_steers rfl, Tree.effects_of_not_isFunctionLike rfl]
    show Paths.straight ([e].flatMap Tree.effects ++ []) = _
    rw [List.flatMap_singleton, List.append_nil]
  rw [t.mark_eq_self _ hfits rfl]
  show Forest.paths [⟨.expression (t.endMark expr), attrs⟩] = _
  rw [Forest.paths_singleton, hpaths, hpaths, effects_endMark, image_close_ending_straight]

theorem paths_finish_ret (value : Option Tree) (attrs : Attributes) (gives : Bool)
    (hfits : Tree.fits ⟨.ret value, attrs⟩ = true) :
    Forest.paths (t.finish (t.mark ⟨.ret value, attrs⟩)) =
      Path.close (t.ending gives) '' Tree.paths ⟨.ret value, attrs⟩ := by
  have hfinish : t.finish (t.mark ⟨.ret value, attrs⟩) = [t.mark ⟨.ret value, attrs⟩] := by
    rw [mark_ret]
    rfl
  rw [hfinish, Forest.paths_singleton, t.paths_mark_ret value attrs hfits]
  -- no path falls through a return, so what would be added there does not matter
  cases value with
  | none =>
    rw [Tree.paths_ret_none, Paths.leaving, Set.image_singleton, Set.image_singleton]
    rfl
  | some v =>
    rw [Tree.paths_ret_some, Paths.leaving, Set.image_singleton, Set.image_singleton]
    rfl

/-- Closing the end of a fragment closes the paths that fall through there, and keeps the paths that
have left before. -/
theorem paths_finish (last : Tree) (hfits : last.fits = true) :
    Forest.paths (t.finish (t.mark last)) =
      Path.close (t.ending (last.isExpression || last.kind = .expression)) '' last.paths := by
  obtain hexpr | ⟨expr, attrs, rfl⟩ | ⟨value, attrs, rfl⟩ | ⟨hexpr, hstatement, hret⟩ :=
    last_cases last
  · rw [t.mark_eq_self_of_isExpression hfits hexpr, t.finish_of_isExpression hexpr,
      Forest.paths_singleton, Tree.paths_of_not_steers rfl, effects_endMark, hexpr, Bool.true_or,
      Tree.paths_of_not_steers (Kind.not_steers_of_isExpression hexpr), image_close_ending_straight]
  · exact t.paths_finish_expression expr attrs hfits
  · exact t.paths_finish_ret value attrs _ hfits
  · have hkind := t.kind_mark last
    have hmark : (t.mark last).isExpression = false := by
      rw [Tree.isExpression, hkind]
      exact hexpr
    rw [← hkind] at hstatement hret
    rw [t.finish_of_kind_ne hmark hstatement hret, hexpr, ← hkind, decide_eq_false hstatement]
    exact t.paths_mark_endMarkAlone last hfits

end Timing

/-- Whether there is a value where a path leaves the fragment. At the end of the fragment this is the
value of its last expression; at the end of an empty fragment, that of the start mark. -/
def Forest.gives (ts : Forest) : Exit → Bool
  | .ret gives => gives
  | .fall =>
    match ts.getLast? with
    | none => true
    | some last => last.isExpression || last.kind = .expression

namespace Timing

variable (t : Timing)

theorem ending_gives (ts : Forest) (exit : Exit) :
    t.ending (ts.gives .fall) exit = t.closing (ts.gives exit) := by
  cases exit <;> rfl

theorem paths_bracket (ts : Forest) (hfits : ∀ u ∈ ts, u.fits = true) :
    Forest.paths (t.bracket (ts.map t.mark)) =
      (Paths.straight [t.startEffect]).andThen
        (Path.close (t.ending (ts.gives .fall)) '' ts.paths) := by
  obtain rfl | ⟨init, last, rfl⟩ := List.eq_nil_or_concat ts
  · have hpaths : Forest.paths [] = Paths.straight [] := rfl
    rw [hpaths, image_close_ending_straight, Paths.straight_andThen, Paths.straight,
      Set.image_singleton]
    show Forest.paths [(t.endMark t.startMark).asStatement] = _
    rw [Forest.paths_singleton, paths_asStatement, effects_endMark, effects_startMark]
    rfl
  · rw [List.concat_eq_append] at hfits ⊢
    have hlast := hfits last (List.mem_append_right _ (List.mem_singleton_self last))
    have hgives : Forest.gives (init ++ [last]) .fall =
        (last.isExpression || last.kind = .expression) := by
      rw [Forest.gives, List.getLast?_concat]
    rw [List.map_append, List.map_singleton, bracket_concat]
    show t.startMark.asStatement.paths.andThen
      (Forest.paths (init.map t.mark ++ t.finish (t.mark last))) = _
    rw [paths_asStatement, effects_startMark, Forest.paths_append, Forest.paths_append,
      t.paths_finish last hlast, image_close_ending_andThen, Forest.paths_singleton, hgives,
      t.paths_map_mark fun u hu => t.paths_mark u (hfits u (List.mem_append_left _ hu))]

/-- Bracketing puts one start mark before every path and one end mark behind it. -/
theorem controlPaths_bracket (ts : Forest) (hfits : ∀ u ∈ ts, u.fits = true) :
    Forest.controlPaths (t.bracket (ts.map t.mark)) =
      {q | ∃ p ∈ ts.paths, q = t.startEffect :: (p.effects ++ t.closing (ts.gives p.exit))} := by
  rw [Forest.controlPaths, t.paths_bracket ts hfits, Paths.straight_andThen, Set.image_image,
    Set.image_image]
  ext q
  constructor
  · rintro ⟨p, hp, rfl⟩
    exact ⟨p, hp, by rw [← ending_gives]; rfl⟩
  · rintro ⟨p, hp, rfl⟩
    exact ⟨p, hp, by rw [← ending_gives]; rfl⟩

/-- Where a path does not name the timer class, the marks around it are the only ones. -/
theorem marks_once (p : List Effect) (gives : Bool) (h : ∀ e ∈ p, e.mentions t.timer = false) :
    ∃ inner, p ++ t.closing gives = inner ++ [t.endEffect] ∧
      t.startEffect ∉ inner ∧ t.endEffect ∉ inner := by
  have hfree {e : Effect} (he : e.mentions t.timer = true) : e ∉ p := by
    intro hmem
    rw [h e hmem] at he
    contradiction
  have hstart : t.startEffect ∉ p := hfree (by
    simp [startEffect, Effect.mentions, Form.mentions, Form.classes, Reference.names, Name.qualify])
  have hend : t.endEffect ∉ p := hfree (by
    simp [endEffect, Effect.mentions, Form.mentions, Form.classes, Reference.names, Name.qualify])
  cases gives with
  | true => exact ⟨p, rfl, hstart, hend⟩
  | false =>
    refine ⟨p ++ [t.missingEffect], ?_, ?_, ?_⟩
    · rw [List.append_assoc]
      rfl
    · intro hmem
      obtain hmem | hmem := List.mem_append.mp hmem
      · exact hstart hmem
      · cases List.mem_singleton.mp hmem
    · intro hmem
      obtain hmem | hmem := List.mem_append.mp hmem
      · exact hend hmem
      · cases List.mem_singleton.mp hmem

end Timing

/-! ## Bracketed paths -/

/-- A run of the timing pass over a well-formed fragment that does not name the timer class brackets
its control paths: each gets a start mark before and an end mark behind it, with the construction of
the missing value where the end mark has none, and no other path comes about. There are such paths,
and every one has one start mark, as its first effect, and one end mark, as its last. -/
theorem timing_brackets_control_paths (s : Settings) (ts : Forest) (hfits : ts.fits = true)
    (htimer : ts.mentions s.timerName = false) :
    ∃ us tally,
      (run [(Timing.ofSettings s).pass] ts).result = .ok (us, tally) ∧
      us.controlPaths = {q | ∃ p ∈ ts.paths, q = (Timing.ofSettings s).startEffect ::
        (p.effects ++ (Timing.ofSettings s).closing (ts.gives p.exit))} ∧
      us.controlPaths.Nonempty ∧
      ∀ q ∈ us.controlPaths, ∃ inner,
        q = (Timing.ofSettings s).startEffect :: (inner ++ [(Timing.ofSettings s).endEffect]) ∧
        (Timing.ofSettings s).startEffect ∉ inner ∧ (Timing.ofSettings s).endEffect ∉ inner := by
  have hall (u : Tree) (hu : u ∈ ts) : u.fits = true :=
    (Bool.and_eq_true_iff.mp (List.all_eq_true.mp hfits u hu)).2
  have hpaths := (Timing.ofSettings s).controlPaths_bracket ts hall
  obtain ⟨path, hpath⟩ := ts.paths_nonempty
  refine ⟨_, _, (Timing.ofSettings s).run_timing ts, hpaths, ?_⟩
  rw [hpaths]
  refine ⟨⟨_, path, hpath, rfl⟩, ?_⟩
  rintro q ⟨p, hp, rfl⟩
  obtain ⟨inner, heq, hstart, hend⟩ :=
    (Timing.ofSettings s).marks_once p.effects (ts.gives p.exit) (ts.mentions_paths _ htimer p hp)
  exact ⟨inner, by rw [heq], hstart, hend⟩

/-- A loop that a return may leave, a function with a return of its own, and a call. -/
def guardedLoop : Forest :=
  [Make.loop (Make.var "x") [Make.branch (Make.var "y") [Make.ret none] none],
    Make.function "f" [] [Make.ret (some (Make.var "z"))], Make.staticCall "Other" "run" []]

theorem timing_brackets_guardedLoop :
    guardedLoop.fits = true ∧ guardedLoop.mentions ({} : Settings).timerName = false ∧
      ∃ us tally, (run [(Timing.ofSettings {}).pass] guardedLoop).result = .ok (us, tally) ∧
        [(Timing.ofSettings {}).startEffect, .perform (.var "x"), .perform (.var "y"),
          (Timing.ofSettings {}).missingEffect, (Timing.ofSettings {}).endEffect] ∈
            us.controlPaths := by
  have hfits : guardedLoop.fits = true := by decide
  have htimer : guardedLoop.mentions ({} : Settings).timerName = false := by decide
  have hvar (name : String) : (Make.var name).effects = [.perform (.var name)] :=
    Tree.effects_of_not_isFunctionLike rfl
  have hret : Forest.paths [Make.ret none] = .leaving [] false := by
    rw [Forest.paths_singleton, Make.ret, Tree.bare, Tree.paths_ret_none]
  have hleave : ⟨[.perform (.var "x"), .perform (.var "y")], .ret false⟩ ∈ guardedLoop.paths := by
    refine .inr ⟨_, false, ?_, rfl⟩
    rw [Make.loop, Tree.bare, Tree.paths_loop, hvar, Forest.paths_singleton, Make.branch, Tree.bare,
      Tree.paths_branch, hvar, Paths.straight_andThen, hret]
    exact .leave (p := [.perform (.var "y")]) ⟨⟨[], .ret false⟩, .inl rfl, rfl⟩
  obtain ⟨us, tally, hrun, hpaths, -⟩ := timing_brackets_control_paths {} guardedLoop hfits htimer
  refine ⟨hfits, htimer, us, tally, hrun, ?_⟩
  rw [hpaths]
  exact ⟨_, hleave, rfl⟩

end Graft
