import Graft.Tree.Induction

/-! # Laws of forms

Mapping over a form changes its children and nothing else. What a map does is therefore known from
what it does to the children (`map_congr`), and a form is fixed by a map exactly when every child is
(`map_eq_self_iff`). The height of a tree is measured by its children (`height_lt_of_mem`).
-/

set_option autoImplicit false

namespace Graft

section
variable {α β γ : Type}

/-! ## Parts -/

theorem Reference.map_map (f : α → β) (g : β → γ) (r : Reference α) :
    (r.map f).map g = r.map fun a => g (f a) := by
  cases r <;> rfl

theorem Member.map_map (f : α → β) (g : β → γ) (m : Member α) :
    (m.map f).map g = m.map fun a => g (f a) := by
  cases m <;> rfl

theorem Arg.map_map (f : α → β) (g : β → γ) (a : Arg α) :
    (a.map f).map g = a.map fun a => g (f a) := rfl

theorem Param.map_map (f : α → β) (g : β → γ) (p : Param α) :
    (p.map f).map g = p.map fun a => g (f a) := by
  simp only [Param.map, Option.map_map]
  rfl

theorem Reference.children_map (f : α → β) (r : Reference α) :
    (r.map f).children = r.children.map f := by
  cases r <;> rfl

theorem Member.children_map (f : α → β) (m : Member α) : (m.map f).children = m.children.map f := by
  cases m <;> rfl

theorem Arg.children_map (f : α → β) (args : List (Arg α)) :
    Arg.children (args.map (·.map f)) = (Arg.children args).map f := by
  simp only [Arg.children, List.map_map]
  rfl

theorem Param.children_map (f : α → β) (params : List (Param α)) :
    Param.children (params.map (·.map f)) = (Param.children params).map f := by
  induction params with
  | nil => rfl
  | cons p params ih =>
    simp only [Param.children, List.map_cons, List.flatMap_cons, List.map_append] at ih ⊢
    rw [ih]
    cases p with
    | mk name default byRef variadic => cases default <;> rfl

theorem Reference.map_congr {f g : α → β} (r : Reference α) (h : ∀ c ∈ r.children, f c = g c) :
    r.map f = r.map g := by
  cases r with
  | named name => rfl
  | computed a => rw [Reference.map, h a (List.mem_singleton_self a), Reference.map]

theorem Member.map_congr {f g : α → β} (m : Member α) (h : ∀ c ∈ m.children, f c = g c) :
    m.map f = m.map g := by
  cases m with
  | named text => rfl
  | computed a => rw [Member.map, h a (List.mem_singleton_self a), Member.map]

theorem Arg.map_congr {f g : α → β} (args : List (Arg α)) (h : ∀ c ∈ Arg.children args, f c = g c) :
    args.map (·.map f) = args.map (·.map g) := by
  refine List.map_congr_left fun a ha => ?_
  rw [Arg.map, h a.value (List.mem_map_of_mem ha), Arg.map]

theorem Param.map_congr {f g : α → β} (params : List (Param α))
    (h : ∀ c ∈ Param.children params, f c = g c) :
    params.map (·.map f) = params.map (·.map g) := by
  refine List.map_congr_left fun p hp => ?_
  have hd : p.default.map f = p.default.map g := by
    refine Option.map_congr fun c hc => h c ?_
    exact List.mem_flatMap.mpr ⟨p, hp, Option.mem_toList.mpr hc⟩
  rw [Param.map, hd, Param.map]

/-! ## Forms -/

namespace Form

theorem children_map (f : α → β) (form : Form α) : (form.map f).children = form.children.map f := by
  cases form <;>
    simp only [map, children, Reference.children_map, Member.children_map, Arg.children_map,
      Param.children_map, List.map_append, List.map_cons, List.map_nil, Option.toList_map]
  case branch condition yes no => cases no <;> rfl

theorem map_map (f : α → β) (g : β → γ) (form : Form α) :
    (form.map f).map g = form.map fun a => g (f a) := by
  cases form <;>
    simp only [map, Reference.map_map, Member.map_map, Arg.map_map, Param.map_map, List.map_map,
      Option.map_map, Function.comp_def]

theorem map_congr {f g : α → β} (form : Form α) (h : ∀ c ∈ form.children, f c = g c) :
    form.map f = form.map g := by
  cases form
  all_goals
    simp only [children, List.mem_append, List.mem_cons, List.not_mem_nil, or_false, or_imp,
      forall_and, forall_eq] at h
    grind [map, List.map_congr_left, Option.map_congr, Reference.map_congr, Member.map_congr,
      Arg.map_congr, Param.map_congr]

theorem map_id (form : Form α) : form.map (fun a => a) = form := by
  have hArg : Arg.map (fun a : α => a) = id := rfl
  have hParam : Param.map (fun a : α => a) = id := by
    funext p
    cases p with
    | mk name default byRef variadic => cases default <;> rfl
  have hReference : ∀ r : Reference α, r.map (fun a => a) = r := fun r => by cases r <;> rfl
  have hMember : ∀ m : Member α, m.map (fun a => a) = m := fun m => by cases m <;> rfl
  cases form <;>
    simp only [map, hArg, hParam, hReference, hMember, List.map_id_fun', id_eq,
      Option.map_id_fun']

theorem map_eq_self {f : α → α} (form : Form α) (h : ∀ c ∈ form.children, f c = c) :
    form.map f = form := by
  rw [form.map_congr h, map_id]

/-- A form is fixed by a map exactly when every child is. -/
theorem map_eq_self_iff {f : α → α} (form : Form α) :
    form.map f = form ↔ ∀ c ∈ form.children, f c = c := by
  constructor
  · intro h
    have hc : form.children.map f = form.children.map id := by
      rw [← children_map, h, List.map_id]
    exact List.map_inj_left.mp hc
  · exact form.map_eq_self

end Form

end

/-! ## Measures over the children -/

theorem le_foldr_max {n : Nat} (base : Nat) {ns : List Nat} (h : n ∈ ns) : n ≤ ns.foldr max base := by
  induction ns with
  | nil => cases h
  | cons m ns ih =>
    rw [List.foldr_cons]
    cases h with
    | head => exact Nat.le_max_left _ _
    | tail _ h => exact Nat.le_trans (ih h) (Nat.le_max_right _ _)

theorem foldr_max_le_iff (base bound : Nat) (ns : List Nat) :
    ns.foldr max base ≤ bound ↔ base ≤ bound ∧ ∀ n ∈ ns, n ≤ bound := by
  induction ns with
  | nil => simp
  | cons m ns ih =>
    rw [List.foldr_cons, Nat.max_le, ih, List.forall_mem_cons, and_left_comm]

theorem Tree.mk_form_attrs (t : Tree) : (⟨t.form, t.attrs⟩ : Tree) = t := by
  cases t
  rfl

theorem Tree.height_mk (form : Form Tree) (attrs : Attributes) :
    height ⟨form, attrs⟩ = (form.children.map (height · + 1)).foldr max 0 := by
  rw [height, recurse_mk, Form.children_map, List.map_map]
  rfl

theorem Tree.height_lt_of_mem {t c : Tree} (h : c ∈ t.form.children) : c.height < t.height := by
  cases t with
  | mk form attrs =>
    rw [height_mk]
    exact le_foldr_max 0 (List.mem_map_of_mem (f := (height · + 1)) h)

theorem foldr_add_base (base : Nat) (ns : List Nat) :
    ns.foldr (· + ·) base = base + ns.foldr (· + ·) 0 := by
  induction ns with
  | nil => rfl
  | cons n ns ih =>
    rw [List.foldr_cons, List.foldr_cons, ih]
    omega

theorem foldr_map_add {α : Type} (f g : α → Nat) (as : List α) :
    (as.map f).foldr (· + ·) 0 + (as.map g).foldr (· + ·) 0 =
      (as.map fun a => f a + g a).foldr (· + ·) 0 := by
  induction as with
  | nil => rfl
  | cons a as ih =>
    simp only [List.map_cons, List.foldr_cons]
    omega

theorem Tree.count_mk (form : Form Tree) (attrs : Attributes) :
    count ⟨form, attrs⟩ = 1 + (form.children.map count).foldr (· + ·) 0 := by
  rw [count, recurse_mk, Form.children_map, List.map_map, foldr_add_base]
  rfl

/-! ## Trees inside -/

/-- A tree contains another at some depth, itself included. -/
inductive Tree.Contains : Tree → Tree → Prop
  | here (t : Tree) : Contains t t
  | inChild {t c u : Tree} (hc : c ∈ t.form.children) (h : Contains c u) : Contains t u

end Graft
