import Graft.Proofs.Joints

/-! # What a call or an access is read as

The outline of a call or an access shows its use: a blank for a construction, and else how it ends,
before the arguments of a call or without them (`useOf?`). So sources of different uses are told apart
(`source_ne_of_use_ne`). The exceptions are the forms that are `misprinted`: they look like another use,
and each has the source of another tree.
-/

set_option autoImplicit false

namespace Graft
open Printed Text

/-! ## Uses -/

/-- What a call or an access does. -/
inductive Use where
  | namedCall | computedCall | property | methodCall | staticProperty | staticCall | classConstant
  | construct
deriving DecidableEq

/-- The use of a form, if it is a call or an access. -/
def Form.use? {α : Type} : Form α → Option Use
  | .call (.named _) _ => some .namedCall
  | .call (.computed _) _ => some .computedCall
  | .property _ _ => some .property
  | .methodCall _ _ _ => some .methodCall
  | .staticProperty _ _ => some .staticProperty
  | .staticCall _ _ _ => some .staticCall
  | .classConstant _ _ => some .classConstant
  | .construct _ _ => some .construct
  | _ => none

/-- What arguments make of what stands before them. -/
def Joint.called : Joint → Use
  | word => .namedCall
  | arrow => .methodCall
  | scope | sigil => .staticCall
  | static | closed => .computedCall

def Joint.fetched? : Joint → Option Use
  | arrow => some .property
  | scope => some .classConstant
  | sigil | static => some .staticProperty
  | word | closed => none

/-- The use that an outline shows. -/
def useOf? (o : List Char) : Option Use :=
  if ' ' ∈ o then some .construct
  else
    match o.reverse with
    | ')' :: '(' :: before => some (joint before).called
    | reversed => (joint reversed).fetched?

/-- The source has an outline that shows the use. -/
def Shows (text : String) (a : Use) : Prop := ∃ o, Outlined text o ∧ useOf? o = some a

theorem Shows.unique {text : String} {a b : Use} (ha : Shows text a) (hb : Shows text b) : a = b := by
  obtain ⟨o, ho, ha⟩ := ha
  obtain ⟨p, hp, hb⟩ := hb
  rw [ho.unique hp, hb] at ha
  exact (Option.some.inj ha).symm

theorem Headed.shows_called {text args : String} {j : Joint} (h : Headed text j)
    (hargs : Readable args) : Shows (text ++ parens args) j.called := by
  obtain ⟨o, hreads, hblank, rfl⟩ := h
  obtain ⟨p, hargs⟩ := hargs
  refine ⟨o ++ ['(', ')'], hreads.append hargs.parens, ?_⟩
  rw [useOf?, if_neg (by simp [hblank]), List.reverse_append]
  rfl

theorem Headed.shows_fetched {text : String} {j : Joint} {a : Use} (h : Headed text j)
    (ha : j.fetched? = some a) : Shows text a := by
  obtain ⟨o, hreads, hblank, rfl⟩ := h
  refine ⟨o, hreads, ?_⟩
  rw [useOf?, if_neg hblank]
  split
  · next before hreverse =>
    -- a closing parenthesis is no joint of an access
    rw [hreverse] at ha
    contradiction
  · exact ha

/-- The use that the source of a form shows: calls of constants and of accesses look like other calls,
and a class constant with a variable for its name looks like a static property. -/
def Form.shown? : Form Tree → Option Use
  | .call callee _ => some callee.joint.called
  | .classConstant _ name => name.joint.fetched?
  | form => form.use?

theorem Tree.WellFormed.shows {t : Tree} (h : t.WellFormed) {a : Use} (ha : t.form.shown? = some a) :
    Shows t.source a := by
  obtain ⟨form, attrs⟩ := t
  have hinline : ∀ c ∈ form.inline, c.Described := h.described
  have hnames : form.hasValidNames = true := h.hasValidNames
  rw [Tree.source_mk]
  cases form with
  | call callee args =>
    obtain ⟨hcallee, hargs⟩ := List.forall_mem_append.mp hinline
    cases ha
    exact (headed_reference hnames hcallee).shows_called (readable_args hargs)
  | property object name =>
    obtain ⟨hobject, hname⟩ := List.forall_mem_cons.mp hinline
    exact (headed_property hobject hnames hname).shows_fetched ha
  | methodCall object name args =>
    obtain ⟨hobject, hrest⟩ := List.forall_mem_cons.mp hinline
    obtain ⟨hname, hargs⟩ := List.forall_mem_append.mp hrest
    cases ha
    exact (headed_property hobject hnames hname).shows_called (readable_args hargs)
  | staticProperty owner name =>
    obtain ⟨howner, hname⟩ := Bool.and_eq_true_iff.mp hnames
    refine (headed_static howner hname hinline).shows_fetched ?_
    cases name <;> exact ha
  | staticCall owner name args =>
    obtain ⟨howner, hname⟩ := Bool.and_eq_true_iff.mp hnames
    obtain ⟨hmember, hargs⟩ := List.forall_mem_append.mp hinline
    have hcalled : name.joint.called = .staticCall := by
      rw [Member.joint]
      split <;> rfl
    cases ha
    rw [← hcalled]
    exact (headed_scope howner hname hmember).shows_called (readable_args hargs)
  | classConstant owner name =>
    obtain ⟨howner, hname⟩ := Bool.and_eq_true_iff.mp hnames
    exact (headed_scope howner hname hinline).shows_fetched ha
  | construct owner args =>
    obtain ⟨howner, hargs⟩ := List.forall_mem_append.mp hinline
    obtain ⟨o, hreads, hblank⟩ := exists_outline_construct hnames howner hargs
    cases ha
    exact ⟨o, hreads, if_pos hblank⟩
  | _ => contradiction

/-! ## Misprints -/

/-- The forms that are printed like another use: a call of a constant or of an access that is put
before the arguments without parentheses, and a class constant named by a variable. -/
def Form.misprinted : Form Tree → Bool
  | .call (.computed callee) _ =>
    match callee.form with
    | .constant _ | .property _ _ | .classConstant _ _ | .staticProperty _ (.named _) => true
    | _ => false
  | .classConstant _ name => name.isVar
  | _ => false

theorem Form.shown?_eq_use? {form : Form Tree} (h : form.misprinted = false) :
    form.shown? = form.use? := by
  cases form with
  | call callee args =>
    cases callee with
    | named name => rfl
    | computed e =>
      obtain ⟨form, attrs⟩ := e
      cases form with
      | staticProperty owner name =>
        cases name with
        | named text => contradiction
        | computed name => rfl
      | constant | property | classConstant => contradiction
      | _ => rfl
  | classConstant owner name =>
    have hjoint : name.joint = .scope := if_neg (Bool.not_eq_true _ ▸ h)
    rw [shown?, hjoint]
    rfl
  | _ => rfl

def Tree.IsOperand (t : Tree) : Prop := t.WellFormed ∧ t.isExpression = true

theorem Tree.WellFormed.operands {t : Tree} (h : t.WellFormed) : ∀ c ∈ t.form.inline, c.IsOperand :=
  fun c hc => ⟨h.child ((Form.mem_children_iff _ c).mpr (.inl hc)), h.isExpression hc⟩

theorem Tree.WellFormed.of_operands {form : Form Tree} {attrs : Attributes}
    (h : ∀ c ∈ form.children, c.IsOperand) (hnames : form.hasValidNames = true) :
    Tree.WellFormed ⟨form, attrs⟩ := by
  intro u hu
  cases hu with
  | here => exact ⟨fun c hc => (h c ((form.mem_children_iff c).mpr (.inl hc))).2, hnames⟩
  | inChild hc hu => exact (h _ hc).1 u hu

theorem source_call_computed {e : Tree} (he : canDereference e.form = true) (args : List (Arg Tree))
    (attrs : Attributes) :
    Tree.source ⟨.call (.computed e) args, attrs⟩ =
      e.source ++ argList (args.map (·.map Tree.print)) := by
  rw [Tree.source_mk]
  have hcallee : e.print.dereferenced = e.source := if_pos he
  rw [← hcallee]
  rfl

theorem render_var (name : String) (attrs : Attributes) :
    ((Member.computed ⟨.var name, attrs⟩).map Tree.print).render =
      ((Member.named name).map Tree.print).renderStatic :=
  Tree.source_mk (.var name) attrs

/-- Every misprinted tree has the source of a well-formed one with another use, printed as it should
be. -/
theorem Tree.WellFormed.exists_twin {t : Tree} (h : t.WellFormed)
    (hmisprinted : t.form.misprinted = true) :
    ∃ (u : Tree) (a b : Use), u.WellFormed ∧ u.form.misprinted = false ∧ t.form.use? = some a ∧
      u.form.use? = some b ∧ a ≠ b ∧ t.source = u.source := by
  obtain ⟨form, attrs⟩ := t
  have hnames : form.hasValidNames = true := h.hasValidNames
  have hoperands : ∀ c ∈ form.inline, c.IsOperand := h.operands
  cases form with
  | call callee args =>
    cases callee with
    | named name => contradiction
    | computed e =>
      obtain ⟨hcallee, hargs⟩ := List.forall_mem_append.mp hoperands
      have he := (hcallee e (List.mem_singleton_self e)).1
      obtain ⟨form, eattrs⟩ := e
      have henames : form.hasValidNames = true := he.hasValidNames
      have heoperands : ∀ c ∈ form.inline, c.IsOperand := he.operands
      cases form with
      | constant name =>
        refine ⟨⟨.call (.named name) args, attrs⟩, .computedCall, .namedCall,
          .of_operands hargs henames, rfl, rfl, rfl, by decide, ?_⟩
        rw [source_call_computed rfl, Tree.source_mk, Tree.source_mk]
        rfl
      | property object name =>
        obtain ⟨hobject, hname⟩ := List.forall_mem_cons.mp heoperands
        have hparts := List.forall_mem_cons.mpr ⟨hobject, List.forall_mem_append.mpr ⟨hname, hargs⟩⟩
        refine ⟨⟨.methodCall object name args, attrs⟩, .computedCall, .methodCall,
          .of_operands hparts henames, rfl, rfl, rfl, by decide, ?_⟩
        rw [source_call_computed rfl, Tree.source_mk, Tree.source_mk]
        rfl
      | classConstant owner name =>
        have hparts := List.forall_mem_append.mpr ⟨heoperands, hargs⟩
        refine ⟨⟨.staticCall owner name args, attrs⟩, .computedCall, .staticCall,
          .of_operands hparts henames, rfl, rfl, rfl, by decide, ?_⟩
        rw [source_call_computed rfl, Tree.source_mk, Tree.source_mk]
        rfl
      | staticProperty owner name =>
        cases name with
        | computed name => contradiction
        | named text =>
          obtain ⟨howner, htext⟩ := Bool.and_eq_true_iff.mp henames
          have hvar : Tree.IsOperand (.bare (.var text)) :=
            ⟨.of_operands (List.forall_mem_nil _) htext, rfl⟩
          have hname : ∀ c ∈ [Tree.bare (.var text)], c.IsOperand := List.forall_mem_singleton.mpr hvar
          have hparts := List.forall_mem_append.mpr
            ⟨List.forall_mem_append.mpr ⟨(List.forall_mem_append.mp heoperands).1, hname⟩, hargs⟩
          refine ⟨⟨.staticCall owner (.computed (.bare (.var text))) args, attrs⟩, .computedCall,
            .staticCall, .of_operands hparts (Bool.and_eq_true_iff.mpr ⟨howner, rfl⟩), rfl, rfl, rfl,
            by decide, ?_⟩
          rw [source_call_computed rfl, Tree.source_mk, Tree.source_mk, Form.map, Form.render,
            ← render_var text .empty]
          rfl
      | _ => contradiction
  | classConstant owner name =>
    cases name with
    | named text => contradiction
    | computed e =>
      obtain ⟨howner, -⟩ := Bool.and_eq_true_iff.mp hnames
      obtain ⟨hown, hname⟩ := List.forall_mem_append.mp hoperands
      obtain ⟨name, eattrs, rfl⟩ := Tree.eq_var_of_kind (of_decide_eq_true hmisprinted)
      have hvalid := (hname _ (List.mem_singleton_self _)).1.var
      have hparts := List.forall_mem_append.mpr ⟨hown, List.forall_mem_nil _⟩
      refine ⟨⟨.staticProperty owner (.named name), attrs⟩, .classConstant, .staticProperty,
        .of_operands hparts (Bool.and_eq_true_iff.mpr ⟨howner, hvalid⟩), rfl, rfl, rfl, by decide, ?_⟩
      simp only [Tree.source_mk, Form.map, Form.render, render_var]
  | _ => contradiction

/-- Well-formed calls and accesses of different uses have different sources, unless one of them is
misprinted; and a misprinted one shares its source with one of another use. -/
theorem source_ne_of_use_ne (t u : Tree) (a b : Use) (ht : t.WellFormed) (hu : u.WellFormed)
    (ha : t.form.use? = some a) (hb : u.form.use? = some b) (hne : a ≠ b) :
    (t.form.misprinted = false → u.form.misprinted = false → t.source ≠ u.source) ∧
      (t.form.misprinted = true → ∃ (v : Tree) (c : Use), v.WellFormed ∧ v.form.misprinted = false ∧
        v.form.use? = some c ∧ c ≠ a ∧ t.source = v.source) := by
  constructor
  · intro hmt hmu hsource
    have hshows : Shows t.source a := ht.shows ((Form.shown?_eq_use? hmt).trans ha)
    have hshows' : Shows u.source b := hu.shows ((Form.shown?_eq_use? hmu).trans hb)
    rw [hsource] at hshows
    exact hne (hshows.unique hshows')
  · intro hmisprinted
    obtain ⟨v, a', c, hv, hmv, ha', hc, hac, hsource⟩ := ht.exists_twin hmisprinted
    have haa : a = a' := Option.some.inj (ha.symm.trans ha')
    exact ⟨v, c, hv, hmv, hc, haa ▸ hac.symm, hsource⟩

theorem isOperand_var {name : String} (h : Name.isIdentifier name.toList = true) :
    (Make.var name).IsOperand :=
  ⟨.of_operands (fun _ hc => nomatch hc) h, rfl⟩

theorem wellFormed_property : (Make.property (Make.var "a") "b").WellFormed :=
  .of_operands (List.forall_mem_singleton.mpr (isOperand_var rfl)) rfl

theorem wellFormed_methodCall : (Make.methodCall (Make.var "a") "b" []).WellFormed :=
  .of_operands (List.forall_mem_singleton.mpr (isOperand_var rfl)) rfl

theorem wellFormed_callOn : (Make.callOn (Make.property (Make.var "a") "b") []).WellFormed :=
  .of_operands (List.forall_mem_singleton.mpr ⟨wellFormed_property, rfl⟩) rfl

/-- A property and a call of its method are told apart; a call of the property has a twin. -/
theorem source_ne_of_use_ne_property :
    (Make.property (Make.var "a") "b").source ≠ (Make.methodCall (Make.var "a") "b" []).source ∧
      ∃ (v : Tree) (c : Use), v.WellFormed ∧ v.form.misprinted = false ∧ v.form.use? = some c ∧
        c ≠ .computedCall ∧ (Make.callOn (Make.property (Make.var "a") "b") []).source = v.source :=
  ⟨(source_ne_of_use_ne _ _ .property .methodCall wellFormed_property wellFormed_methodCall rfl rfl
      (by decide)).1 rfl rfl,
    (source_ne_of_use_ne _ _ .computedCall .methodCall wellFormed_callOn wellFormed_methodCall rfl rfl
      (by decide)).2 rfl⟩

/-- A call of a property and a call of a method, both well formed, have one source. -/
theorem source_callOn_eq_methodCall :
    (Make.callOn (Make.property (Make.var "a") "b") []).WellFormed ∧
      (Make.methodCall (Make.var "a") "b" []).WellFormed ∧
      (Make.callOn (Make.property (Make.var "a") "b") []).kind = .call ∧
      (Make.methodCall (Make.var "a") "b" []).kind = .methodCall ∧
      (Make.callOn (Make.property (Make.var "a") "b") []).source =
        (Make.methodCall (Make.var "a") "b" []).source :=
  ⟨wellFormed_callOn, wellFormed_methodCall, rfl, rfl, rfl⟩

end Graft
