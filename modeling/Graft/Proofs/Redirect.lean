import Graft.Pass.Bypass

/-! # Redirected access

The shapes that the bypass pass redirects, one constructor each, with the condition under which it
does. A pass redirects a tree exactly when its form is of such a shape (`access?_eq_some_iff`), and
redirecting commutes with every map that keeps what the pass looks at (`Redirects.arguments_map`).
-/

set_option autoImplicit false

namespace Graft.Bypass

/-- The forms that the pass redirects, with the access that each makes. -/
inductive Redirects (b : Bypass) : Form Tree → Access → Prop
  | property (object : Tree) (name : Member Tree) :
    Redirects b (.property object name) .fetchProperty
  | methodCall (object : Tree) (name : Member Tree) (args : List (Arg Tree)) :
    Redirects b (.methodCall object name args) .callMethod
  | staticProperty (owner : Reference Tree) (name : Member Tree) (h : b.isRuntime owner = false) :
    Redirects b (.staticProperty owner name) .fetchStaticProperty
  | staticCall (owner : Reference Tree) (name : Member Tree) (args : List (Arg Tree))
    (h : b.isRuntime owner = false) : Redirects b (.staticCall owner name args) .callStatic
  | classConstant (owner : Reference Tree) (name : Member Tree) (h : b.isRuntime owner = false) :
    Redirects b (.classConstant owner name) .fetchClassConstant
  | construct (owner : Reference Tree) (args : List (Arg Tree)) (h : b.isRuntime owner = false)
    (hset : b.redirectConstruction = true) : Redirects b (.construct owner args) .construct
  | assignProperty (object : Tree) (name : Member Tree) (attrs : Attributes) (value : Tree) :
    Redirects b (.assign ⟨.property object name, attrs⟩ value) .assignProperty
  | assignStaticProperty (owner : Reference Tree) (name : Member Tree) (attrs : Attributes)
    (value : Tree) (h : b.isRuntime owner = false) :
    Redirects b (.assign ⟨.staticProperty owner name, attrs⟩ value) .assignStaticProperty

theorem access?_eq_some_iff (b : Bypass) (t : Tree) (access : Access) :
    b.access? t = some access ↔ b.Redirects t.form access := by
  rw [access?, Option.filter_eq_some_iff, Bool.and_eq_true, Bool.not_eq_true']
  obtain ⟨form, attrs⟩ := t
  constructor
  · rintro ⟨hform, hcovers, hruntime⟩
    cases form
    case property object name => cases hform; exact .property object name
    case methodCall object name args => cases hform; exact .methodCall object name args
    case staticProperty owner name => cases hform; exact .staticProperty owner name hruntime
    case staticCall owner name args => cases hform; exact .staticCall owner name args hruntime
    case classConstant owner name => cases hform; exact .classConstant owner name hruntime
    case construct owner args => cases hform; exact .construct owner args hruntime hcovers
    case assign target value =>
      obtain ⟨target, attrs⟩ := target
      cases target
      case property object name => cases hform; exact .assignProperty object name attrs value
      case staticProperty owner name =>
        cases hform
        exact .assignStaticProperty owner name attrs value hruntime
      all_goals contradiction
    all_goals contradiction
  · intro h
    cases h with
    | property object name => exact ⟨rfl, rfl, rfl⟩
    | methodCall object name args => exact ⟨rfl, rfl, rfl⟩
    | staticProperty owner name h => exact ⟨rfl, rfl, h⟩
    | staticCall owner name args h => exact ⟨rfl, rfl, h⟩
    | classConstant owner name h => exact ⟨rfl, rfl, h⟩
    | construct owner args h hset => exact ⟨rfl, hset, h⟩
    | assignProperty object name attrs value => exact ⟨rfl, rfl, rfl⟩
    | assignStaticProperty owner name attrs value h => exact ⟨rfl, rfl, h⟩

theorem access?_eq_none_iff (b : Bypass) (t : Tree) :
    b.access? t = none ↔ ∀ access, ¬b.Redirects t.form access := by
  rw [Option.eq_none_iff_forall_ne_some]
  exact forall_congr' fun access => not_congr (b.access?_eq_some_iff t access)

variable {b : Bypass} {form : Form Tree} {access : Access}

/-- Only expressions are redirected, and none that opens a body. -/
theorem Redirects.isExpression (h : b.Redirects form access) : form.kind.isExpression = true := by
  cases h <;> rfl

theorem Redirects.not_isFunctionLike (h : b.Redirects form access) :
    form.kind.isFunctionLike = false := by
  cases h <;> rfl

section
variable {Q : Tree → Prop} (htext : ∀ s, Q (.text s))
include htext

theorem member_argument (m : Member Tree) (h : ∀ c ∈ m.children, Q c) : Q m.argument := by
  cases m with
  | named text => exact htext text
  | computed expr => exact h expr (List.mem_singleton_self expr)

theorem reference_argument (r : Reference Tree) (h : ∀ c ∈ r.children, Q c) : Q r.argument := by
  cases r with
  | named name => exact htext name.text
  | computed expr => exact h expr (List.mem_singleton_self expr)

/-- A redirected access passes on texts, children, and children of children. -/
theorem Redirects.forall_arguments (h : b.Redirects form access)
    (hchild : ∀ c ∈ form.children, Q c) (hgrand : ∀ c ∈ form.children, ∀ d ∈ c.form.children, Q d) :
    ∀ c ∈ Arg.children (Access.arguments form), Q c := by
  have hm := member_argument htext
  have hr := reference_argument htext
  have hnil : ∀ c ∈ ([] : List Tree), Q c := List.forall_mem_nil _
  cases h with
  | property object name =>
    simp only [Form.children, List.forall_mem_cons] at hchild
    exact List.forall_mem_cons.mpr ⟨hchild.1, List.forall_mem_cons.mpr ⟨hm name hchild.2, hnil⟩⟩
  | methodCall object name args =>
    simp only [Form.children, List.forall_mem_cons, List.forall_mem_append] at hchild
    exact List.forall_mem_cons.mpr
      ⟨hchild.1, List.forall_mem_cons.mpr ⟨hm name hchild.2.1, hchild.2.2⟩⟩
  | staticProperty owner name _ =>
    simp only [Form.children, List.forall_mem_append] at hchild
    exact List.forall_mem_cons.mpr
      ⟨hr owner hchild.1, List.forall_mem_cons.mpr ⟨hm name hchild.2, hnil⟩⟩
  | staticCall owner name args _ =>
    simp only [Form.children, List.forall_mem_append] at hchild
    exact List.forall_mem_cons.mpr
      ⟨hr owner hchild.1.1, List.forall_mem_cons.mpr ⟨hm name hchild.1.2, hchild.2⟩⟩
  | classConstant owner name _ =>
    simp only [Form.children, List.forall_mem_append] at hchild
    exact List.forall_mem_cons.mpr
      ⟨hr owner hchild.1, List.forall_mem_cons.mpr ⟨hm name hchild.2, hnil⟩⟩
  | construct owner args _ _ =>
    simp only [Form.children, List.forall_mem_append] at hchild
    exact List.forall_mem_cons.mpr ⟨hr owner hchild.1, hchild.2⟩
  | assignProperty object name attrs value =>
    simp only [Form.children, List.forall_mem_cons] at hchild hgrand
    exact List.forall_mem_cons.mpr ⟨hgrand.1.1, List.forall_mem_cons.mpr
      ⟨hm name hgrand.1.2, List.forall_mem_cons.mpr ⟨hchild.2.1, hnil⟩⟩⟩
  | assignStaticProperty owner name attrs value _ =>
    simp only [Form.children, List.forall_mem_cons, List.forall_mem_append] at hchild hgrand
    exact List.forall_mem_cons.mpr ⟨hr owner hgrand.1.1, List.forall_mem_cons.mpr
      ⟨hm name hgrand.1.2, List.forall_mem_cons.mpr ⟨hchild.2.1, hnil⟩⟩⟩

end

/-! ## Redirecting and maps -/

/-- A map of trees that keeps what the pass looks at: the kinds, the texts, and the parts of the
targets of assignments. The attributes of the targets are free. -/
structure Transparent (g : Tree → Tree) : Prop where
  kind : ∀ t, (g t).kind = t.kind
  text : ∀ s, g (.text s) = .text s
  property : ∀ object name attrs, ∃ attrs',
    g ⟨.property object name, attrs⟩ = ⟨.property (g object) (name.map g), attrs'⟩
  staticProperty : ∀ owner name attrs, ∃ attrs',
    g ⟨.staticProperty owner name, attrs⟩ = ⟨.staticProperty (owner.map g) (name.map g), attrs'⟩

theorem isRuntime_map (g : Tree → Tree) (r : Reference Tree) :
    b.isRuntime (r.map g) = b.isRuntime r := by
  cases r <;> rfl

section
variable {g : Tree → Tree} (hg : Transparent g)
include hg

theorem Transparent.member_argument (m : Member Tree) : (m.map g).argument = g m.argument := by
  cases m with
  | named text => exact (hg.text text).symm
  | computed expr => rfl

theorem Transparent.reference_argument (r : Reference Tree) : (r.map g).argument = g r.argument := by
  cases r with
  | named name => exact (hg.text name.text).symm
  | computed expr => rfl

theorem Redirects.map (h : b.Redirects form access) : b.Redirects (form.map g) access := by
  cases h with
  | property object name => exact .property _ _
  | methodCall object name args => exact .methodCall _ _ _
  | staticProperty owner name h => exact .staticProperty _ _ ((isRuntime_map g owner).trans h)
  | staticCall owner name args h => exact .staticCall _ _ _ ((isRuntime_map g owner).trans h)
  | classConstant owner name h => exact .classConstant _ _ ((isRuntime_map g owner).trans h)
  | construct owner args h hset => exact .construct _ _ ((isRuntime_map g owner).trans h) hset
  | assignProperty object name attrs value =>
    obtain ⟨attrs', htarget⟩ := hg.property object name attrs
    rw [Form.map, htarget]
    exact .assignProperty _ _ _ _
  | assignStaticProperty owner name attrs value h =>
    obtain ⟨attrs', htarget⟩ := hg.staticProperty owner name attrs
    rw [Form.map, htarget]
    exact .assignStaticProperty _ _ _ _ ((isRuntime_map g owner).trans h)

theorem Redirects.of_map (h : b.Redirects (form.map g) access) : b.Redirects form access := by
  cases form
  case property object name => cases h; exact .property _ _
  case methodCall object name args => cases h; exact .methodCall _ _ _
  case staticProperty owner name =>
    cases h with
    | staticProperty _ _ h => exact .staticProperty _ _ ((isRuntime_map g owner).symm.trans h)
  case staticCall owner name args =>
    cases h with
    | staticCall _ _ _ h => exact .staticCall _ _ _ ((isRuntime_map g owner).symm.trans h)
  case classConstant owner name =>
    cases h with
    | classConstant _ _ h => exact .classConstant _ _ ((isRuntime_map g owner).symm.trans h)
  case construct owner args =>
    cases h with
    | construct _ _ h hset => exact .construct _ _ ((isRuntime_map g owner).symm.trans h) hset
  case assign target value =>
    obtain ⟨target, attrs⟩ := target
    have hkind := hg.kind ⟨target, attrs⟩
    rw [Form.map] at h
    cases target
    case property object name =>
      obtain ⟨attrs', htarget⟩ := hg.property object name attrs
      rw [htarget] at h
      cases h
      exact .assignProperty _ _ _ _
    case staticProperty owner name =>
      obtain ⟨attrs', htarget⟩ := hg.staticProperty owner name attrs
      rw [htarget] at h
      cases h with
      | assignStaticProperty _ _ _ _ h =>
        exact .assignStaticProperty _ _ _ _ ((isRuntime_map g owner).symm.trans h)
    -- any other target keeps its kind, which is not that of a property
    all_goals
      generalize g _ = u at h hkind
      cases h <;> contradiction
  all_goals cases h

theorem Redirects.arguments_map (h : b.Redirects form access) :
    Access.arguments (form.map g) = (Access.arguments form).map (·.map g) := by
  have hplain : ∀ t : Tree, (Arg.plain t).map g = .plain (g t) := fun _ => rfl
  cases h
  case assignProperty object name attrs value =>
    obtain ⟨attrs', htarget⟩ := hg.property object name attrs
    simp only [Form.map, htarget, Access.arguments, List.map_cons, List.map_nil, hplain,
      hg.member_argument]
  case assignStaticProperty owner name attrs value _ =>
    obtain ⟨attrs', htarget⟩ := hg.staticProperty owner name attrs
    simp only [Form.map, htarget, Access.arguments, List.map_cons, List.map_nil, hplain,
      hg.member_argument, hg.reference_argument]
  all_goals
    simp only [Form.map, Access.arguments, List.map_cons, List.map_nil, hplain, hg.member_argument,
      hg.reference_argument]

end

end Graft.Bypass
