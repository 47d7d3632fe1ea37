import Graft.Proofs.Comments
import Graft.Proofs.RowStarts

/-! # Comments beside code

Where the names are valid and the string literals are on one line, no row of code is a remark, so in a
list of statements only comments make remarks (`Tree.IsClean.sifted`, by induction on the tree). Without
these the source is that of the trees without their comments, and every row of it is there; what else is
left is a row of a comment after its first, which is printed as it is (`withoutRemarks_source`).
-/

set_option autoImplicit false

namespace Graft
open Printed Text

/-! ## Trees without comments -/

/-- The tree without comments at any depth. -/
def Tree.uncommented : Tree → Tree := recurse fun form attrs => ⟨form.map Prod.snd, attrs.place⟩

def Forest.uncommented (ts : Forest) : Forest := ts.map Tree.uncommented

theorem Tree.uncommented_eq (t : Tree) : t.uncommented = ⟨t.form.map uncommented, t.attrs.place⟩ := by
  obtain ⟨form, attrs⟩ := t
  rw [uncommented, recurse_mk, Form.map_map]

theorem Tree.kind_uncommented (t : Tree) : t.uncommented.kind = t.kind := by
  rw [kind, uncommented_eq, Form.kind_map, kind]

theorem Tree.isVar_uncommented (t : Tree) : t.uncommented.print.isVar = t.print.isVar := by
  rw [isVar, isVar, print, print, kind_uncommented]

/-- The parentheses around a child depend on nothing that its own children decide. -/
theorem brackets_map (f : Tree → Tree) (form : Form Tree) :
    canDereference (form.map f) = canDereference form ∧ isCompound (form.map f) = isCompound form ∧
      isSigned (form.map f) = isSigned form := by
  cases form
  case literal value => cases value <;> exact ⟨rfl, rfl, rfl⟩
  all_goals exact ⟨rfl, rfl, rfl⟩

/-! ## Clean trees -/

section
variable {α : Type}

/-- Whether the names that a form gives to functions, classes, members and parameters are valid. -/
def Form.declaresValidNames : Form α → Bool
  | .function name params _ | .method name _ _ params _ =>
    Name.isIdentifier name.toList && params.all fun p => Name.isIdentifier p.name.toList
  | .classDecl name parent _ => Name.isIdentifier name.toList && parent.all Name.isValid
  | .propertyDecl name _ _ _ | .constantDecl name _ _ => Name.isIdentifier name.toList
  | _ => true

def Form.isOneLine : Form α → Bool
  | .literal value => value.isOneLine
  | _ => true

def Form.isClean (form : Form α) : Bool :=
  form.hasValidNames && form.declaresValidNames && form.isOneLine

end

/-- In the whole tree the names are valid, and string literals are on one line. -/
def Tree.IsClean (t : Tree) : Prop := ∀ u, t.Contains u → u.form.isClean = true

namespace Tree

theorem isClean_mk (form : Form Tree) (attrs : Attributes) :
    IsClean ⟨form, attrs⟩ ↔ form.isClean = true ∧ ∀ c ∈ form.children, c.IsClean := by
  constructor
  · intro h
    exact ⟨h _ (.here _), fun c hc u hu => h u (.inChild hc hu)⟩
  · rintro ⟨hself, hchild⟩ u hu
    cases hu with
    | here => exact hself
    | inChild hc hu => exact hchild _ hc u hu

def isCleanAll : Tree → Bool :=
  recurse fun form _ => (form.map Prod.fst).isClean && form.children.all Prod.snd

theorem isCleanAll_iff (t : Tree) : t.isCleanAll = true ↔ t.IsClean := by
  induction t using Tree.inductionOn with
  | mk form attrs ih =>
    rw [isCleanAll, recurse_mk, Form.map_map, Form.map_id, Form.children_map, List.all_map, isClean_mk,
      Bool.and_eq_true, List.all_eq_true]
    exact and_congr_right fun _ => forall₂_congr ih

instance (t : Tree) : Decidable t.IsClean := decidable_of_iff _ t.isCleanAll_iff

end Tree

/-! ## Trees and what they are without comments -/

/-- The source of a tree starts its row, and without its comments it is that of the tree without
comments. -/
structure Tree.Sifted (t : Tree) : Prop where
  opens : Opens t.source
  sifts : Sifts t.remarks t.source t.uncommented.source

theorem feed_not_mem_append_identifier {a name : String} (ha : '\n' ∉ a.toList)
    (hname : Name.isIdentifier name.toList = true) : '\n' ∉ (a ++ name).toList := by
  rw [String.toList_append]
  exact feed_not_mem_append ha (inked_identifier hname).feed_not_mem

theorem Text.Sifts.parens {cs : List String} {a b : String} (h : Sifts cs a b) :
    Sifts cs (Printed.parens a) (Printed.parens b) := (h.right (by decide)).left (by decide)

theorem Text.Sifts.braces {cs : List String} {a b : String} (h : Sifts cs a b) :
    Sifts cs (Printed.braces a) (Printed.braces b) := (h.right (by decide)).left (by decide)

namespace Tree.Sifted

section
variable {c : Tree} (h : c.Sifted)
include h

theorem dereferenced : Sifts c.remarks c.print.dereferenced c.uncommented.print.dereferenced := by
  have hform : canDereference c.uncommented.form = canDereference c.form := by
    rw [uncommented_eq]
    exact (brackets_map _ _).1
  rw [Printed.dereferenced, Printed.dereferenced, print, print, hform]
  split
  · exact h.sifts
  · exact h.sifts.parens

theorem operand : Sifts c.remarks c.print.operand c.uncommented.print.operand := by
  have hform : isCompound c.uncommented.form = isCompound c.form := by
    rw [uncommented_eq]
    exact (brackets_map _ _).2.1
  rw [Printed.operand, Printed.operand, print, print, hform]
  split
  · exact h.sifts.parens
  · exact h.sifts

theorem signed : Sifts c.remarks c.print.signed c.uncommented.print.signed := by
  have hform : isSigned c.uncommented.form = isSigned c.form := by
    rw [uncommented_eq]
    exact (brackets_map _ _).2.2
  rw [Printed.signed, Printed.signed, print, print, hform]
  split
  · exact h.sifts.parens
  · exact h.operand

/-- As a statement a tree has rows of its own, and its comments stand on rows before it. -/
theorem statement :
    Stands (c.attrs.comments ++ c.remarks) c.print.statement c.uncommented.print.statement := by
  -- the semicolon goes on the last row, which is settled before it
  have hend : '\n' ∉ (if c.isExpression then ";" else "").toList := by split <;> decide
  have hexpr : c.uncommented.isExpression = c.isExpression := by
    rw [isExpression, kind_uncommented, isExpression]
  have hbare : c.uncommented.attrs.comments = [] := by rw [uncommented_eq]; rfl
  have hstands := ((h.sifts.stands h.opens).comments c.attrs.comments).left hend
  rw [Printed.statement, Printed.statement, print, print, hexpr, hbare]
  simpa using hstands

end

end Tree.Sifted

namespace Text.Sifts

theorem list {items : Forest} (h : ∀ c ∈ items, c.Sifted) :
    Sifts (items.flatMap Tree.remarks) (Printed.list (items.map Tree.print))
      (Printed.list ((items.map Tree.uncommented).map Tree.print)) := by
  rw [Printed.list, Printed.list, List.map_map, List.map_map, List.map_map]
  exact Sifts.intercalate (fun c hc => (h c hc).sifts) (by decide)

theorem body {ts : Forest} (h : ∀ c ∈ ts, c.Sifted) :
    Sifts ts.remarks (Printed.body (ts.map Tree.print))
      (Printed.body ((ts.map Tree.uncommented).map Tree.print)) := by
  cases ts with
  | nil => exact Sheds.nil.braced rfl rfl
  | cons t ts =>
    have hstatements := Stands.intercalate (List.cons_ne_nil t ts) fun c hc => (h c hc).statement
    simpa [Forest.remarks, Printed.body, statements, Function.comp_def] using hstatements.braced

/-- A body on the row after its head. -/
theorem bodyBelow {cs : List String} {a b : String} {ts : Forest} (ha : Sifts cs a b)
    (h : ∀ c ∈ ts, c.Sifted) :
    Sifts (cs ++ ts.remarks) (a ++ "\n" ++ Printed.body (ts.map Tree.print))
      (b ++ "\n" ++ Printed.body ((ts.map Tree.uncommented).map Tree.print)) := by
  have hbelow := ((body h).stands (opens_body _)).feed
  rw [String.append_assoc, String.append_assoc]
  exact ha.append hbelow

theorem member {m : Member Tree} (hvalid : m.isValid = true) (h : ∀ c ∈ m.children, c.Sifted) :
    Sifts (m.children.flatMap Tree.remarks) (m.map Tree.print).render
        ((m.map Tree.uncommented).map Tree.print).render ∧
      Sifts (m.children.flatMap Tree.remarks) (m.map Tree.print).renderStatic
        ((m.map Tree.uncommented).map Tree.print).renderStatic := by
  cases m with
  | named text =>
    have hline : Sifts [] text text := .line (inked_identifier hvalid).feed_not_mem
    exact ⟨hline, hline.right (by decide)⟩
  | computed e =>
    have he := (h e (List.mem_singleton_self e)).sifts
    simp only [Member.children, List.flatMap_singleton, Member.map, Member.render, Member.renderStatic,
      Tree.isVar_uncommented]
    split
    · exact ⟨he, he.right (by decide)⟩
    · exact ⟨he.braces, he.braces.right (by decide)⟩

theorem reference {r : Reference Tree} (hvalid : r.isValid = true) (h : ∀ c ∈ r.children, c.Sifted) :
    Sifts (r.children.flatMap Tree.remarks) (r.map Tree.print).render
        ((r.map Tree.uncommented).map Tree.print).render ∧
      Sifts (r.children.flatMap Tree.remarks) (r.map Tree.print).renderNew
        ((r.map Tree.uncommented).map Tree.print).renderNew := by
  cases r with
  | named name =>
    have hline : Sifts [] name.source name.source := .line (inked_name hvalid).feed_not_mem
    exact ⟨hline, hline⟩
  | computed e =>
    have he := h e (List.mem_singleton_self e)
    simp only [Reference.children, List.flatMap_singleton, Reference.map, Reference.render,
      Reference.renderNew, Tree.isVar_uncommented]
    refine ⟨he.dereferenced, ?_⟩
    split
    · exact he.sifts
    · exact he.sifts.parens

theorem args {args : List (Arg Tree)} (h : ∀ c ∈ Arg.children args, c.Sifted) :
    Sifts ((Arg.children args).flatMap Tree.remarks) (argList (args.map (·.map Tree.print)))
      (argList ((args.map (·.map Tree.uncommented)).map (·.map Tree.print))) := by
  have hmark : ∀ a : Arg Tree, '\n' ∉ a.mark.toList := by
    intro a
    rw [Arg.mark]
    split
    · decide
    · split <;> decide
  rw [argList, argList, List.map_map, List.map_map, List.map_map, Arg.children, List.flatMap_map]
  exact (Sifts.intercalate (fun a ha => (h a.value (List.mem_map_of_mem ha)).sifts.right (hmark a))
    (by decide)).parens

theorem params {params : List (Param Tree)}
    (hnames : (params.all fun p => Name.isIdentifier p.name.toList) = true)
    (h : ∀ c ∈ Param.children params, c.Sifted) :
    Sifts ((Param.children params).flatMap Tree.remarks) (paramList (params.map (·.map Tree.print)))
      (paramList ((params.map (·.map Tree.uncommented)).map (·.map Tree.print))) := by
  rw [paramList, paramList, List.map_map, List.map_map, List.map_map, Param.children,
    List.flatMap_assoc]
  refine (Sifts.intercalate (fun p hp => ?_) (by decide)).parens
  have hhead : ∀ byRef variadic, '\n' ∉ ((if byRef = true then "&" else "") ++
      (if variadic = true then "..." else "") ++ "$" ++ p.name).toList := by
    intro byRef variadic
    refine feed_not_mem_append_identifier ?_ (List.all_eq_true.mp hnames p hp)
    cases byRef <;> cases variadic <;> decide
  obtain ⟨name, default, byRef, variadic⟩ := p
  cases default with
  | none =>
    have hempty : '\n' ∉ "".toList := by decide
    exact (Sifts.line (hhead byRef variadic)).left hempty
  | some d =>
    have hd := (h d (List.mem_flatMap.mpr ⟨_, hp, List.mem_singleton_self d⟩)).sifts
    rw [Option.toList_some, List.flatMap_singleton]
    exact (hd.right (by decide)).right (hhead byRef variadic)

end Text.Sifts

theorem feed_not_mem_captures {captures : List Capture}
    (hnames : (captures.all fun c => Name.isIdentifier c.name.toList) = true) :
    '\n' ∉ (if captures.isEmpty then ""
      else " use " ++ parens (commas (captures.map Capture.render))).toList := by
  have hall : '\n' ∉ (commas (captures.map Capture.render)).toList := by
    refine feed_not_mem_intercalate (by decide) (List.forall_mem_map.mpr fun c hc => ?_)
    refine feed_not_mem_append_identifier ?_ (List.all_eq_true.mp hnames c hc)
    split <;> decide
  split
  · decide
  · simpa [parens] using hall

theorem Form.sifts_render {form : Form Tree} (hnames : form.hasValidNames = true)
    (hdeclared : form.declaresValidNames = true) (hline : form.isOneLine = true)
    (h : ∀ c ∈ form.children, c.Sifted) :
    Sifts (form.inline.flatMap Tree.remarks ++ form.bodies.flatMap Forest.remarks)
      (form.map Tree.print).render ((form.map Tree.uncommented).map Tree.print).render := by
  -- the parts come in the order of `render`, and the texts between them have no line feed
  cases form <;> simp only [children, List.forall_mem_cons, List.forall_mem_append] at h <;>
    simp only [inline, bodies, children, List.flatMap_cons, List.flatMap_nil, List.flatMap_append,
      List.append_nil, List.nil_append, map]
  case literal value => exact .line (feed_not_mem_literal hline)
  case var name => exact .line (feed_not_mem_append_identifier (by decide) hnames)
  case constant name => exact .line (inked_name hnames).feed_not_mem
  case array items => exact ((Sifts.list h).right (by decide)).left (by decide)
  case binary op left right =>
    have hop : '\n' ∉ op.symbol.toList := by cases op <;> decide
    exact (((h.1.operand.left (by decide)).left hop).left (by decide)).append h.2.1.operand
  case unary op operand =>
    have hop : '\n' ∉ op.symbol.toList := by cases op <;> decide
    exact h.1.signed.right hop
  case assign target value => exact (h.1.sifts.left (by decide)).append h.2.1.sifts
  case call callee args => exact (Sifts.reference hnames h.1).1.append (.args h.2)
  case property object name =>
    exact (h.1.dereferenced.left (by decide)).append (Sifts.member hnames h.2).1
  case methodCall object name args =>
    rw [← List.append_assoc]
    exact ((h.1.dereferenced.left (by decide)).append (Sifts.member hnames h.2.1).1).append
      (Sifts.args h.2.2)
  case staticProperty owner name =>
    obtain ⟨howner, hname⟩ := Bool.and_eq_true_iff.mp hnames
    exact ((Sifts.reference howner h.1).1.left (by decide)).append (Sifts.member hname h.2).2
  case staticCall owner name args =>
    obtain ⟨howner, hname⟩ := Bool.and_eq_true_iff.mp hnames
    exact (((Sifts.reference howner h.1.1).1.left (by decide)).append
      (Sifts.member hname h.1.2).1).append (.args h.2)
  case classConstant owner name =>
    obtain ⟨howner, hname⟩ := Bool.and_eq_true_iff.mp hnames
    exact ((Sifts.reference howner h.1).1.left (by decide)).append (Sifts.member hname h.2).1
  case construct owner args =>
    exact ((Sifts.reference hnames h.1).2.right (by decide)).append (.args h.2)
  case closure params captures isStatic body =>
    obtain ⟨hparams, hcaptures⟩ := Bool.and_eq_true_iff.mp hnames
    have hhead : '\n' ∉ ((if isStatic then "static " else "") ++ "function ").toList := by
      cases isStatic <;> decide
    have huses := ((Sifts.params hparams h.1).right hhead).left (feed_not_mem_captures hcaptures)
    exact (huses.left (by decide)).append (.body h.2)
  case arrow params body =>
    exact (((Sifts.params hnames h.1).right (by decide)).left (by decide)).append h.2.1.sifts
  case expression expr => exact h.1.sifts.left (by decide)
  case ret value =>
    cases value with
    | none => exact .line (by decide)
    | some v =>
      rw [Option.toList_some, List.flatMap_singleton]
      exact ((h v (List.mem_singleton_self v)).sifts.right (by decide)).left (by decide)
  case echo values => exact ((Sifts.list h).right (by decide)).left (by decide)
  case branch condition yes no =>
    obtain ⟨hcondition, hyes, hno⟩ := h
    rw [← List.append_assoc, Form.render.eq_def, Form.render.eq_def]
    refine (((hcondition.sifts.parens.right (by decide)).left (by decide)).append (.body hyes)).append ?_
    cases no with
    | none => exact .line (by decide)
    | some no =>
      rw [Option.toList_some, List.flatMap_singleton]
      exact (Sifts.body hno).right (by decide)
  case loop condition body =>
    exact ((h.1.sifts.parens.right (by decide)).left (by decide)).append (.body h.2)
  case block statements => exact .body h
  case function name params body =>
    obtain ⟨hname, hparams⟩ := Bool.and_eq_true_iff.mp hdeclared
    have hhead : '\n' ∉ ("function " ++ name).toList :=
      feed_not_mem_append_identifier (by decide) hname
    exact ((Sifts.params hparams h.1).right hhead).bodyBelow h.2
  case classDecl name parent members =>
    obtain ⟨hname, hparent⟩ := Bool.and_eq_true_iff.mp hdeclared
    have hhead : '\n' ∉ ("class " ++ name).toList :=
      feed_not_mem_append_identifier (by decide) hname
    rw [Form.render.eq_def, Form.render.eq_def]
    refine Sifts.bodyBelow (.right (.line ?_) hhead) h
    cases parent with
    | none => decide
    | some parent => simpa using (inked_name hparent).feed_not_mem
  case method name visibility isStatic params body =>
    obtain ⟨hname, hparams⟩ := Bool.and_eq_true_iff.mp hdeclared
    have hhead : '\n' ∉ (visibility.keyword ++ (if isStatic then " static " else " ") ++ "function " ++
        name).toList := by
      refine feed_not_mem_append_identifier ?_ hname
      cases visibility <;> cases isStatic <;> decide
    exact ((Sifts.params hparams h.1).right hhead).bodyBelow h.2
  case propertyDecl name visibility isStatic default =>
    have hhead : '\n' ∉ (visibility.keyword ++ (if isStatic then " static" else "") ++ " $" ++
        name).toList := by
      refine feed_not_mem_append_identifier ?_ hdeclared
      cases visibility <;> cases isStatic <;> decide
    cases default with
    | none => exact ((Sifts.line hhead).left (by decide)).left (by decide)
    | some d =>
      have hd := (h d (List.mem_singleton_self d)).sifts
      rw [Option.toList_some, List.flatMap_singleton]
      exact ((hd.right (by decide)).right hhead).left (by decide)
  case constantDecl name visibility value =>
    have hhead : '\n' ∉ (visibility.keyword ++ " const " ++ name).toList := by
      refine feed_not_mem_append_identifier ?_ hdeclared
      cases visibility <;> decide
    have hequals : '\n' ∉ (visibility.keyword ++ " const " ++ name ++ " = ").toList := by
      rw [String.toList_append]
      exact feed_not_mem_append hhead (by decide)
    exact (h.1.sifts.right hequals).left (by decide)

/-- Every clean tree starts its row, and without its comments it is the tree without comments. -/
theorem Tree.IsClean.sifted {t : Tree} (h : t.IsClean) : t.Sifted := by
  induction t using Tree.inductionOn with
  | mk form attrs ih =>
    rw [isClean_mk, Form.isClean, Bool.and_eq_true, Bool.and_eq_true] at h
    obtain ⟨⟨⟨hnames, hdeclared⟩, hline⟩, hclean⟩ := h
    have hchildren : ∀ c ∈ form.children, c.Sifted := fun c hc => ih c hc (hclean c hc)
    refine ⟨?_, ?_⟩
    · rw [source_mk]
      exact Form.opens_render hnames fun c hc => (hchildren c hc).opens
    · rw [remarks_mk, source_mk, uncommented_eq, source_mk]
      exact Form.sifts_render hnames hdeclared hline hchildren

theorem Forest.stands_source {ts : Forest} (hne : ts ≠ []) (h : ∀ t ∈ ts, t.IsClean) :
    Stands ts.remarks ts.source ts.uncommented.source := by
  rw [Forest.source, statements, List.map_map, Forest.source, statements, Forest.uncommented,
    List.map_map, List.map_map]
  exact Stands.intercalate hne fun t ht => (h t ht).sifted.statement

/-- Without its remarks, the source of clean statements has every row of the source without comments,
in the same order, and besides these only the rows of comments after the first that are no remarks
themselves. So it is the source without comments if and only if there are no such rows, as where every
comment is on one line. -/
theorem withoutRemarks_source (ts : Forest) (h : ∀ t ∈ ts, t.IsClean) :
    ((∀ c ∈ ts.remarks, '\n' ∉ c.toList) → withoutRemarks ts.source = ts.uncommented.source) ∧
      (withoutRemarks ts.source = ts.uncommented.source ↔ ∀ c ∈ ts.remarks, strays c = []) ∧
      (rowsOf ts.uncommented.source).Sublist (rowsOf (withoutRemarks ts.source)) ∧
      (rowsOf (withoutRemarks ts.source)).length =
        (rowsOf ts.uncommented.source).length + strayCount ts.remarks := by
  by_cases hne : ts = []
  · -- the empty source is a row that nothing settles
    subst hne
    have hempty : withoutRemarks (Forest.source []) = Forest.source [] := by decide
    simp [Forest.uncommented, hempty, Forest.remarks, strayCount]
  · obtain ⟨hsublist, hlength, heq⟩ := (Forest.stands_source hne h).withoutRemarks
    rw [strayCount_eq_zero_iff] at heq
    exact ⟨fun hline => heq.mpr fun c hc => strays_eq_nil_of_not_mem (hline c hc), heq, hsublist,
      hlength⟩

/-- A method with a comment, and in it one on a statement of a closure and one on what it returns. -/
def remarkedMethod : Tree :=
  ⟨.method "go" .pub true [⟨"a", none, false, false⟩]
    [⟨.ret (some (.bare (.closure [] [⟨"a", true⟩] false
        [⟨.echo [Make.str "// no remark"], ⟨none, ["// twice", "a // b"]⟩⟩]))),
      ⟨some (.point 2 0), ["deeper"]⟩⟩],
    ⟨none, ["outside"]⟩⟩

theorem withoutRemarks_source_method :
    remarkedMethod.IsClean ∧
      Forest.remarks [remarkedMethod] = ["outside", "deeper", "// twice", "a // b"] ∧
      withoutRemarks (Forest.source [remarkedMethod]) =
        (Forest.uncommented [remarkedMethod]).source := by
  have hclean : remarkedMethod.IsClean := by decide
  have hremarks : Forest.remarks [remarkedMethod] = ["outside", "deeper", "// twice", "a // b"] := rfl
  have hlines : ∀ c ∈ Forest.remarks [remarkedMethod], '\n' ∉ c.toList := by
    rw [hremarks]
    decide
  exact ⟨hclean, hremarks,
    (withoutRemarks_source [remarkedMethod] (List.forall_mem_singleton.mpr hclean)).1 hlines⟩

/-- A variable as a statement, with a comment on two lines. -/
def twoLineRemark : Tree := ⟨.expression (Make.var "x"), ⟨none, ["a\nb"]⟩⟩

/-- The second line of the comment is printed as code. -/
theorem withoutRemarks_twoLineRemark :
    twoLineRemark.IsClean ∧ Forest.source [twoLineRemark] = "// a\nb\n$x;" ∧
      withoutRemarks (Forest.source [twoLineRemark]) = "b\n$x;" ∧
      withoutRemarks (Forest.source [twoLineRemark]) ≠ (Forest.uncommented [twoLineRemark]).source := by
  have hsource : Forest.source [twoLineRemark] = "// a\nb\n$x;" := rfl
  have hbare : (Forest.uncommented [twoLineRemark]).source = "$x;" := rfl
  rw [hsource, hbare]
  exact ⟨by decide, rfl, by decide, by decide⟩

end Graft
