import Mathlib.Data.List.TakeWhile
import Graft.Proofs.Outline

/-! # Outlines of expressions

Every well-formed expression has an outline (`Tree.described`). For the forms that `->`, `::` or `(` can
follow it has no blank, and its end is told by the form: how a member, a static property or a name ends
a text is its `Joint`. All other forms stand in parentheses there.
-/

set_option autoImplicit false

namespace Graft
open Printed Text

/-! ## Well-formed trees -/

section
variable {α : Type}

def Reference.isValid : Reference α → Bool
  | .named name => name.isValid
  | .computed _ => true

def Member.isValid : Member α → Bool
  | .named text => Name.isIdentifier text.toList
  | .computed _ => true

/-- Whether the names of variables, members, classes and functions that a form mentions are valid. -/
def Form.hasValidNames : Form α → Bool
  | .var name => Name.isIdentifier name.toList
  | .constant name => name.isValid
  | .call callee _ => callee.isValid
  | .property _ name | .methodCall _ name _ => name.isValid
  | .staticProperty owner name | .staticCall owner name _ | .classConstant owner name =>
    owner.isValid && name.isValid
  | .construct owner _ => owner.isValid
  | .closure params captures _ _ =>
    params.all (fun p => Name.isIdentifier p.name.toList) &&
      captures.all fun c => Name.isIdentifier c.name.toList
  | .arrow params _ => params.all fun p => Name.isIdentifier p.name.toList
  | _ => true

end

/-- Every place for an expression holds one, and the names are valid. -/
def Tree.WellFormed (t : Tree) : Prop :=
  ∀ u, t.Contains u → (∀ c ∈ u.form.inline, c.isExpression = true) ∧ u.form.hasValidNames = true

namespace Tree.WellFormed
variable {t : Tree} (h : t.WellFormed)
include h

theorem hasValidNames : t.form.hasValidNames = true := (h t (.here t)).2

theorem child {c : Tree} (hc : c ∈ t.form.children) : c.WellFormed := fun u hu => h u (.inChild hc hu)

theorem isExpression {c : Tree} (hc : c ∈ t.form.inline) : c.isExpression = true :=
  (h t (.here t)).1 c hc

end Tree.WellFormed

/-! ## Joints -/

/-- How an outline ends: in a word that is all of it, in a member after `->` or `::`, in `::$` and a
word, in another static property, or in anything else. -/
inductive Joint where
  | word | arrow | scope | sigil | static | closed
deriving DecidableEq

def Member.isVar : Member Tree → Bool
  | .named _ => false
  | .computed name => name.kind = .var

def Member.joint (m : Member Tree) : Joint := if m.isVar then .sigil else .scope

def Member.staticJoint : Member Tree → Joint
  | .named _ => .sigil
  | .computed _ => .static

/-- How the outline of an expression ends where nothing is put around it. -/
def Form.joint : Form Tree → Joint
  | .constant _ => .word
  | .property _ _ => .arrow
  | .staticProperty _ name => name.staticJoint
  | .classConstant _ name => name.joint
  | _ => .closed

def Reference.joint : Reference Tree → Joint
  | .named _ => .word
  | .computed e => e.form.joint

/-- The joint of an outline that is read from its end. -/
def joint (reversed : List Char) : Joint :=
  match reversed.dropWhile isWord with
  | [] => .word
  | '>' :: '-' :: _ | '$' :: '>' :: '-' :: _ | '}' :: '{' :: '>' :: '-' :: _ => .arrow
  | ':' :: ':' :: _ | '}' :: '{' :: ':' :: ':' :: _ => .scope
  | '$' :: ':' :: ':' :: _ => .sigil
  | '$' :: '$' :: ':' :: ':' :: _ | '}' :: '{' :: '$' :: ':' :: ':' :: _ => .static
  | _ => .closed

theorem joint_word {w : List Char} (hw : ∀ c ∈ w, isWord c = true) : joint w.reverse = .word := by
  have hdrop : w.reverse.dropWhile isWord = [] :=
    List.dropWhile_eq_nil_iff.mpr fun c hc => hw c (List.mem_reverse.mp hc)
  rw [joint, hdrop]

theorem joint_append {w : List Char} (hw : ∀ c ∈ w, isWord c = true) (x : List Char) :
    joint (x ++ w).reverse = joint x.reverse := by
  have hdrop : (w.reverse ++ x.reverse).dropWhile isWord = x.reverse.dropWhile isWord :=
    List.dropWhile_append_of_pos fun c hc => hw c (List.mem_reverse.mp hc)
  rw [List.reverse_append, joint, joint, hdrop]

/-- A text whose outline has no blank and ends in the joint. -/
def Headed (text : String) (j : Joint) : Prop :=
  ∃ o, Outlined text o ∧ ' ' ∉ o ∧ joint o.reverse = j

theorem Headed.readable {text : String} {j : Joint} : Headed text j → Readable text
  | ⟨o, h, _⟩ => ⟨o, h⟩

theorem blank_not_mem {w : List Char} (hw : ∀ c ∈ w, isWord c = true) : ' ' ∉ w := by
  intro hmem
  have hblank : isWord ' ' = false := rfl
  rw [hw ' ' hmem] at hblank
  contradiction

theorem headed_name {name : Name} (h : name.isValid = true) : Headed name.source .word :=
  have hword := isWord_of_isValid h
  ⟨_, outlined_word hword, blank_not_mem hword, joint_word hword⟩

theorem headed_var {name : String} (h : Name.isIdentifier name.toList = true) :
    Headed ("$" ++ name) .closed := by
  have hword := isWord_of_isIdentifier h
  refine ⟨['$'] ++ name.toList, (outlined_plain rfl).append (outlined_word hword), ?_, ?_⟩
  · simp [blank_not_mem hword]
  · rw [joint_append hword]
    rfl

theorem headed_parens {text : String} (h : Readable text) : Headed (parens text) .closed := by
  obtain ⟨o, h⟩ := h
  exact ⟨['(', ')'], h.parens, by decide, rfl⟩

theorem Headed.call {text args : String} {j : Joint} (h : Headed text j) (hargs : Readable args) :
    Headed (text ++ parens args) .closed := by
  obtain ⟨o, hreads, hblank, -⟩ := h
  obtain ⟨p, hargs⟩ := hargs
  refine ⟨o ++ ['(', ')'], hreads.append hargs.parens, ?_, ?_⟩
  · simp [hblank]
  · rw [List.reverse_append]
    rfl

/-- A well-formed expression whose source has an outline, which ends as the form says if `->`, `::` or
`(` can follow. -/
structure Tree.Described (t : Tree) : Prop where
  formed : t.WellFormed
  readable : Readable t.source
  headed : canDereference t.form = true → Headed t.source t.form.joint

/-! ## Members -/

theorem Tree.eq_var_of_kind {t : Tree} (h : t.kind = .var) : ∃ name attrs, t = ⟨.var name, attrs⟩ := by
  obtain ⟨form, attrs⟩ := t
  cases form <;> first | exact ⟨_, _, rfl⟩ | contradiction

theorem Tree.WellFormed.var {name : String} {attrs : Attributes}
    (h : Tree.WellFormed ⟨.var name, attrs⟩) : Name.isIdentifier name.toList = true :=
  h.hasValidNames

section
variable {m : Member Tree} (hvalid : m.isValid = true)
  (hchildren : ∀ c ∈ m.children, c.Described)
include hvalid hchildren

/-- A member is outlined as a word, a variable or a group. -/
theorem Member.exists_outline : ∃ o, Outlined (m.map Tree.print).render o ∧ ' ' ∉ o ∧
    (∀ x, Graft.joint (x ++ ['-', '>'] ++ o).reverse = .arrow) ∧
      ∀ x, Graft.joint (x ++ [':', ':'] ++ o).reverse = m.joint := by
  cases m with
  | named text =>
    have hword := isWord_of_isIdentifier hvalid
    refine ⟨text.toList, outlined_word hword, blank_not_mem hword, fun x => ?_, fun x => ?_⟩ <;>
    · rw [joint_append hword, List.reverse_append]
      rfl
  | computed e =>
    obtain ⟨hformed, ⟨o, hreads⟩, -⟩ := hchildren e (List.mem_singleton_self e)
    by_cases hvar : e.kind = .var
    · obtain ⟨name, attrs, rfl⟩ := Tree.eq_var_of_kind hvar
      have hword := isWord_of_isIdentifier hformed.var
      refine ⟨['$'] ++ name.toList, (outlined_plain rfl).append (outlined_word hword), ?_,
        fun x => ?_, fun x => ?_⟩
      · simp [blank_not_mem hword]
      all_goals
        rw [← List.append_assoc, joint_append hword, List.reverse_append, List.reverse_append]
        rfl
    · have hrender : ((Member.computed e).map Tree.print).render = braces e.source :=
        if_neg fun h => hvar (of_decide_eq_true h)
      have hjoint : (Member.computed e).joint = .scope := if_neg fun h => hvar (of_decide_eq_true h)
      rw [hrender, hjoint]
      refine ⟨['{', '}'], hreads.braces, by decide, fun x => ?_, fun x => ?_⟩ <;>
      · rw [List.reverse_append, List.reverse_append]
        rfl

theorem Member.exists_staticOutline : ∃ o, Outlined (m.map Tree.print).renderStatic o ∧ ' ' ∉ o ∧
      ∀ x, Graft.joint (x ++ [':', ':'] ++ o).reverse = m.staticJoint := by
  cases m with
  | named text =>
    have hword := isWord_of_isIdentifier hvalid
    refine ⟨['$'] ++ text.toList, (outlined_plain rfl).append (outlined_word hword), ?_, fun x => ?_⟩
    · simp [blank_not_mem hword]
    · rw [← List.append_assoc, joint_append hword, List.reverse_append, List.reverse_append]
      rfl
  | computed e =>
    obtain ⟨hformed, ⟨o, hreads⟩, -⟩ := hchildren e (List.mem_singleton_self e)
    by_cases hvar : e.kind = .var
    · obtain ⟨name, attrs, rfl⟩ := Tree.eq_var_of_kind hvar
      have hword := isWord_of_isIdentifier hformed.var
      have hvar : Outlined ("$" ++ name) (['$'] ++ name.toList) :=
        (outlined_plain rfl).append (outlined_word hword)
      refine ⟨['$'] ++ (['$'] ++ name.toList), (outlined_plain rfl).append hvar, ?_, fun x => ?_⟩
      · simp [blank_not_mem hword]
      · rw [← List.append_assoc, ← List.append_assoc, joint_append hword, List.reverse_append,
          List.reverse_append, List.reverse_append]
        rfl
    · have hrender : ((Member.computed e).map Tree.print).renderStatic = "$" ++ braces e.source :=
        if_neg fun h => hvar (of_decide_eq_true h)
      rw [hrender]
      refine ⟨['$'] ++ ['{', '}'], (outlined_plain rfl).append hreads.braces, by decide, fun x => ?_⟩
      rw [List.reverse_append, List.reverse_append, List.reverse_append]
      rfl

theorem Headed.member {text : String} {j : Joint} (h : Headed text j) :
    Headed (text ++ "->" ++ (m.map Tree.print).render) .arrow ∧
      Headed (text ++ "::" ++ (m.map Tree.print).render) m.joint := by
  obtain ⟨o, hreads, hblank, -⟩ := h
  obtain ⟨p, hmember, hmemberBlank, harrow, hscope⟩ := Member.exists_outline hvalid hchildren
  refine ⟨⟨o ++ ['-', '>'] ++ p, (hreads.append (outlined_plain rfl)).append hmember, ?_, harrow o⟩,
    ⟨o ++ [':', ':'] ++ p, (hreads.append (outlined_plain rfl)).append hmember, ?_, hscope o⟩⟩ <;>
  simp [hblank, hmemberBlank]

theorem Headed.staticMember {text : String} {j : Joint} (h : Headed text j) :
    Headed (text ++ "::" ++ (m.map Tree.print).renderStatic) m.staticJoint := by
  obtain ⟨o, hreads, hblank, -⟩ := h
  obtain ⟨p, hmember, hmemberBlank, hscope⟩ := Member.exists_staticOutline hvalid hchildren
  refine ⟨o ++ [':', ':'] ++ p, (hreads.append (outlined_plain rfl)).append hmember, ?_, hscope o⟩
  simp [hblank, hmemberBlank]

end

/-! ## Expressions -/

theorem Tree.Described.dereferenced {t : Tree} (h : t.Described) :
    Headed t.print.dereferenced t.form.joint := by
  rw [Printed.dereferenced]
  split
  · next hform => exact h.headed hform
  · next hform =>
    have hjoint : t.form.joint = .closed := by
      obtain ⟨form, attrs⟩ := t
      cases form <;> first | rfl | exact absurd rfl hform
    rw [hjoint]
    exact headed_parens h.readable

theorem headed_reference {r : Reference Tree} (hvalid : r.isValid = true)
    (h : ∀ c ∈ r.children, c.Described) : Headed (r.map Tree.print).render r.joint := by
  cases r with
  | named name => exact headed_name hvalid
  | computed e => exact (h e (List.mem_singleton_self e)).dereferenced

theorem readable_args {args : List (Arg Tree)} (h : ∀ c ∈ Arg.children args, c.Described) :
    Readable (commas ((args.map (·.map Tree.print)).map Arg.render)) := by
  refine .commas fun text htext => ?_
  rw [List.map_map] at htext
  obtain ⟨a, ha, rfl⟩ := List.mem_map.mp htext
  have hmark : Readable (a.map Tree.print).mark := by
    rw [Arg.mark]
    split
    · exact .plain rfl
    · split <;> exact .plain rfl
  exact hmark.append (h a.value (List.mem_map_of_mem ha)).readable

theorem readable_params {params : List (Param Tree)}
    (hnames : params.all (fun p => Name.isIdentifier p.name.toList) = true)
    (h : ∀ c ∈ Param.children params, c.Described) :
    Readable (paramList (params.map (·.map Tree.print))) := by
  refine (Readable.commas fun text htext => ?_).parens
  rw [List.map_map] at htext
  obtain ⟨p, hp, rfl⟩ := List.mem_map.mp htext
  have hname : Readable p.name :=
    ⟨_, outlined_word (isWord_of_isIdentifier (List.all_eq_true.mp hnames p hp))⟩
  have hflag : ∀ (flag : Bool) {text : String}, text.toList.all Scan.isPlain = true →
      Readable (if flag then text else "") := by
    intro flag text htext
    split
    · exact .plain htext
    · exact .plain rfl
  have hhead : Readable ((if p.byRef then "&" else "") ++ (if p.variadic then "..." else "") ++ "$" ++
      p.name) := (((hflag _ rfl).append (hflag _ rfl)).append (.plain rfl)).append hname
  obtain ⟨name, default, byRef, variadic⟩ := p
  cases default with
  | none => exact hhead.append (.plain rfl)
  | some d =>
    have hmem : d ∈ Param.children params :=
      List.mem_flatMap.mpr ⟨_, hp, List.mem_singleton_self d⟩
    exact hhead.append (Readable.append (.plain rfl) (h d hmem).readable)

theorem readable_captures {captures : List Capture}
    (hnames : captures.all (fun c => Name.isIdentifier c.name.toList) = true) :
    Readable (commas (captures.map Capture.render)) := by
  refine .commas fun text htext => ?_
  obtain ⟨c, hc, rfl⟩ := List.mem_map.mp htext
  have hname : Readable c.name :=
    ⟨_, outlined_word (isWord_of_isIdentifier (List.all_eq_true.mp hnames c hc))⟩
  rw [Capture.render]
  refine (Readable.append ?_ (.plain rfl)).append hname
  split <;> exact .plain rfl

theorem readable_list {items : Forest} (h : ∀ c ∈ items, c.Described) :
    Readable (list (items.map Tree.print)) := by
  refine .commas fun text htext => ?_
  rw [List.map_map] at htext
  obtain ⟨c, hc, rfl⟩ := List.mem_map.mp htext
  exact (h c hc).readable

theorem Tree.Described.operand {t : Tree} (h : t.Described) : Readable t.print.operand := by
  rw [Printed.operand]
  split
  · exact h.readable.parens
  · exact h.readable

theorem Tree.Described.signed {t : Tree} (h : t.Described) : Readable t.print.signed := by
  rw [Printed.signed]
  split
  · exact h.readable.parens
  · exact h.operand

/-! ## The texts before the arguments of a call -/

section
variable {object : Tree} {owner : Reference Tree} {name : Member Tree}

theorem headed_property (hobject : object.Described) (hvalid : name.isValid = true)
    (hname : ∀ c ∈ name.children, c.Described) :
    Headed (object.print.dereferenced ++ "->" ++ (name.map Tree.print).render) .arrow :=
  (hobject.dereferenced.member hvalid hname).1

theorem headed_scope (howner : owner.isValid = true) (hvalid : name.isValid = true)
    (h : ∀ c ∈ owner.children ++ name.children, c.Described) :
    Headed ((owner.map Tree.print).render ++ "::" ++ (name.map Tree.print).render) name.joint := by
  rw [List.forall_mem_append] at h
  exact ((headed_reference howner h.1).member hvalid h.2).2

theorem headed_static (howner : owner.isValid = true) (hvalid : name.isValid = true)
    (h : ∀ c ∈ owner.children ++ name.children, c.Described) :
    Headed ((owner.map Tree.print).render ++ "::" ++ (name.map Tree.print).renderStatic)
      name.staticJoint := by
  rw [List.forall_mem_append] at h
  exact (headed_reference howner h.1).staticMember hvalid h.2

end

/-- A class after `new` has an outline, and a blank comes before it. -/
theorem exists_outline_construct {owner : Reference Tree} {args : List (Arg Tree)}
    (howner : owner.isValid = true) (h : ∀ c ∈ owner.children, c.Described)
    (hargs : ∀ c ∈ Arg.children args, c.Described) :
    ∃ o, Outlined (((Form.construct owner args).map Tree.print).render) o ∧ ' ' ∈ o := by
  have hclass : Readable (owner.map Tree.print).renderNew := by
    cases owner with
    | named name => exact (headed_name howner).readable
    | computed e =>
      have he := (h e (List.mem_singleton_self e)).readable
      rw [Reference.map, Reference.renderNew]
      split
      · exact he
      · exact he.parens
  obtain ⟨o, hclass⟩ := hclass
  obtain ⟨p, hargs⟩ := readable_args hargs
  have hnew : Outlined "new " ['n', 'e', 'w', ' '] := outlined_plain rfl
  exact ⟨_, (hnew.append hclass).append hargs.parens, by simp⟩

/-! ## Every expression is described -/

theorem Tree.WellFormed.described_of_headed {form : Form Tree} {attrs : Attributes}
    (h : Tree.WellFormed ⟨form, attrs⟩) (hform : Headed (form.map Tree.print).render form.joint) :
    Tree.Described ⟨form, attrs⟩ := by
  refine ⟨h, ?_, fun _ => ?_⟩ <;> rw [Tree.source_mk]
  · exact hform.readable
  · exact hform

theorem Tree.WellFormed.described_of_readable {form : Form Tree} {attrs : Attributes}
    (h : Tree.WellFormed ⟨form, attrs⟩) (hform : Readable (form.map Tree.print).render)
    (hclosed : canDereference form = false) : Tree.Described ⟨form, attrs⟩ := by
  refine ⟨h, ?_, fun hopen => absurd (hclosed.symm.trans hopen) Bool.false_ne_true⟩
  rw [Tree.source_mk]
  exact hform

theorem Tree.described (t : Tree) (h : t.WellFormed) (ht : t.isExpression = true) : t.Described := by
  induction t using Tree.inductionOn with
  | mk form attrs ih =>
  have hinline : ∀ c ∈ form.inline, c.Described := by
    intro c hc
    have hmem : c ∈ form.children := (form.mem_children_iff c).mpr (.inl hc)
    exact ih c hmem (h.child hmem) (h.isExpression hc)
  have hnames : form.hasValidNames = true := h.hasValidNames
  -- only the parts outside the bodies count: a body is outlined whatever is in it
  cases form with
  | literal value =>
    cases value with
    | str text => exact h.described_of_headed ⟨_, outlined_quote text, by decide, rfl⟩
    | _ => exact h.described_of_readable (readable_literal _) rfl
  | var name => exact h.described_of_headed (headed_var hnames)
  | constant name => exact h.described_of_headed (headed_name hnames)
  | array items =>
    obtain ⟨o, hitems⟩ := readable_list hinline
    exact h.described_of_headed ⟨['[', ']'], hitems.brackets, by decide, rfl⟩
  | binary op left right =>
    have hleft := (hinline left (by simp [Form.inline, Form.children])).operand
    have hright := (hinline right (by simp [Form.inline, Form.children])).operand
    have hop : Readable op.symbol := by cases op <;> exact .plain rfl
    exact h.described_of_readable
      ((((hleft.append (.plain rfl)).append hop).append (.plain rfl)).append hright) rfl
  | unary op operand =>
    have hop : Readable op.symbol := by cases op <;> exact .plain rfl
    exact h.described_of_readable (hop.append (hinline operand (List.mem_singleton_self _)).signed) rfl
  | assign target value =>
    have htarget := (hinline target (by simp [Form.inline, Form.children])).readable
    have hvalue := (hinline value (by simp [Form.inline, Form.children])).readable
    exact h.described_of_readable ((htarget.append (.plain rfl)).append hvalue) rfl
  | call callee args =>
    obtain ⟨hcallee, hargs⟩ := List.forall_mem_append.mp hinline
    exact h.described_of_headed ((headed_reference hnames hcallee).call (readable_args hargs))
  | property object name =>
    obtain ⟨hobject, hname⟩ := List.forall_mem_cons.mp hinline
    exact h.described_of_headed (headed_property hobject hnames hname)
  | methodCall object name args =>
    obtain ⟨hobject, hrest⟩ := List.forall_mem_cons.mp hinline
    obtain ⟨hname, hargs⟩ := List.forall_mem_append.mp hrest
    exact h.described_of_headed ((headed_property hobject hnames hname).call (readable_args hargs))
  | staticProperty owner name =>
    obtain ⟨howner, hname⟩ := Bool.and_eq_true_iff.mp hnames
    exact h.described_of_headed (headed_static howner hname hinline)
  | staticCall owner name args =>
    obtain ⟨howner, hname⟩ := Bool.and_eq_true_iff.mp hnames
    obtain ⟨hmember, hargs⟩ := List.forall_mem_append.mp hinline
    exact h.described_of_headed ((headed_scope howner hname hmember).call (readable_args hargs))
  | classConstant owner name =>
    obtain ⟨howner, hname⟩ := Bool.and_eq_true_iff.mp hnames
    exact h.described_of_headed (headed_scope howner hname hinline)
  | construct owner args =>
    obtain ⟨howner, hargs⟩ := List.forall_mem_append.mp hinline
    obtain ⟨o, hreads, -⟩ := exists_outline_construct hnames howner hargs
    exact h.described_of_readable ⟨o, hreads⟩ rfl
  | closure params captures isStatic body =>
    obtain ⟨hparams, hcaptures⟩ := Bool.and_eq_true_iff.mp hnames
    have hstatic : Readable (if isStatic then "static " else "") := by split <;> exact .plain rfl
    have huse : Readable (if captures.isEmpty then ""
        else " use " ++ parens (commas (captures.map Capture.render))) := by
      split
      · exact .plain rfl
      · exact Readable.append (.plain rfl) (readable_captures hcaptures).parens
    have hbody : Readable (Printed.body (body.map Tree.print)) := ⟨_, outlined_body _⟩
    exact h.described_of_readable (((((hstatic.append (.plain rfl)).append
      (readable_params hparams hinline)).append huse).append (.plain rfl)).append hbody) rfl
  | arrow params body =>
    obtain ⟨hparams, hbody⟩ := List.forall_mem_append.mp hinline
    have hresult := (hbody body (List.mem_singleton_self _)).readable
    exact h.described_of_readable (((Readable.append (.plain rfl)
      (readable_params hnames hparams)).append (.plain rfl)).append hresult) rfl
  | _ => contradiction

theorem Tree.WellFormed.described {t : Tree} (h : t.WellFormed) : ∀ c ∈ t.form.inline, c.Described :=
  fun c hc => c.described (h.child ((Form.mem_children_iff _ c).mpr (.inl hc))) (h.isExpression hc)

end Graft
