import Graft.Proofs.Bodies
import Graft.Proofs.Marking
import Graft.Proofs.StockRuns

/-! # Comments in the source

Only a statement of a list, or a member of a class, is printed with its comments before it; the comments
of any other tree are not printed. `Tree.remarks` collects what is printed inside a tree, and the source
has it in this order (`Tree.displays_source`). Timing and bypass passes copy attributes to the marks they
put around a value and drop the target of an assignment, but none of that stands in a list: entering a
tree keeps its remarks (`Stock.remarks_enter`), so a walk does, and so does the bracket
(`run_stock_remarks`).
-/

set_option autoImplicit false

namespace Graft
open Printed Text

/-! ## Remarks -/

/-- The comments that are printed inside a tree: those of the statements and members in its bodies, at
any depth, in the order of the text. -/
def Tree.remarks : Tree → List String :=
  recurse fun form _ =>
    form.inline.flatMap (·.2) ++ form.bodies.flatMap (·.flatMap fun (t, inner) => t.attrs.comments ++ inner)

/-- The comments that are printed with a list of statements. -/
def Forest.remarks (ts : Forest) : List String := ts.flatMap fun t => t.attrs.comments ++ t.remarks

theorem Tree.remarks_mk (form : Form Tree) (attrs : Attributes) :
    remarks ⟨form, attrs⟩ = form.inline.flatMap remarks ++ form.bodies.flatMap Forest.remarks := by
  rw [remarks, recurse_mk, Form.inline_map, Form.bodies_map, List.flatMap_map, List.flatMap_map]
  simp only [List.flatMap_map]
  rfl

/-- A map that keeps the comments and remarks of the children keeps those of the tree. -/
theorem Tree.remarks_map {g : Tree → Tree} {form : Form Tree} (attrs : Attributes)
    (h : ∀ c ∈ form.children, (g c).attrs = c.attrs ∧ (g c).remarks = c.remarks) :
    remarks ⟨form.map g, attrs⟩ = remarks ⟨form, attrs⟩ := by
  have hinline : ∀ c ∈ form.inline, (g c).remarks = c.remarks := fun c hc =>
    (h c ((form.mem_children_iff c).mpr (.inl hc))).2
  have hbodies : ∀ body ∈ form.bodies, Forest.remarks (body.map g) = Forest.remarks body := by
    intro body hbody
    rw [Forest.remarks, Forest.remarks, List.flatMap_map]
    refine List.flatMap_congr fun c hc => ?_
    obtain ⟨hattrs, hremarks⟩ := h c ((form.mem_children_iff c).mpr (.inr ⟨body, hbody, hc⟩))
    rw [hattrs, hremarks]
  rw [remarks_mk, remarks_mk, Form.inline_map, Form.bodies_map, List.flatMap_map, List.flatMap_map,
    List.flatMap_congr hinline, List.flatMap_congr hbodies]

/-! ## In the text -/

/-- The text has the comments one after another, each on lines of its own and as deep as the bodies
around it. -/
inductive Displays : List String → String → Prop
  | text (a : String) : Displays [] a
  | comment (c : String) : Displays [c] ("// " ++ c ++ "\n")
  | append {cs ds : List String} {a b : String} (ha : Displays cs a) (hb : Displays ds b) :
    Displays (cs ++ ds) (a ++ b)
  | indent {cs : List String} {a : String} (h : Displays cs a) : Displays cs (Text.indent a)

namespace Displays
variable {cs : List String} {a : String}

theorem left (h : Displays cs a) (b : String) : Displays cs (a ++ b) := by
  have happend := h.append (.text b)
  rwa [List.append_nil] at happend

theorem right (h : Displays cs a) (b : String) : Displays cs (b ++ a) := (Displays.text b).append h

theorem parens (h : Displays cs a) : Displays cs (Printed.parens a) := (h.right _).left _

theorem braces (h : Displays cs a) : Displays cs (Printed.braces a) := (h.right _).left _

theorem intercalate {γ : Type} {shown : γ → List String} {render : γ → String} {xs : List γ}
    (h : ∀ x ∈ xs, Displays (shown x) (render x)) (separator : String) :
    Displays (xs.flatMap shown) (separator.intercalate (xs.map render)) := by
  induction xs with
  | nil => exact .text _
  | cons x xs ih =>
    rw [List.forall_mem_cons] at h
    cases xs with
    | nil => simpa using h.1
    | cons y ys =>
      rw [List.map_cons, List.map_cons, String.intercalate_cons_cons, List.flatMap_cons]
      exact (h.1.left separator).append (ih h.2)

section
variable {c : Tree} (h : Displays c.remarks c.source)
include h

theorem dereferenced : Displays c.remarks c.print.dereferenced := by
  rw [Printed.dereferenced]
  split
  · exact h
  · exact h.parens

theorem operand : Displays c.remarks c.print.operand := by
  rw [Printed.operand]
  split
  · exact h.parens
  · exact h

theorem signed : Displays c.remarks c.print.signed := by
  rw [Printed.signed]
  split
  · exact h.parens
  · exact h.operand

theorem statement : Displays (c.attrs.comments ++ c.remarks) c.print.statement := by
  have hcomments : ∀ comments : List String,
      Displays comments (String.join (comments.map fun comment => "// " ++ comment ++ "\n")) := by
    intro comments
    induction comments with
    | nil => exact .text _
    | cons comment comments ih =>
      rw [List.map_cons, String.join_cons]
      exact (Displays.comment comment).append ih
  exact ((hcomments _).append h).left _

end

theorem list {items : Forest} (h : ∀ c ∈ items, Displays c.remarks c.source) :
    Displays (items.flatMap Tree.remarks) (Printed.list (items.map Tree.print)) := by
  rw [Printed.list, List.map_map]
  exact intercalate h _

theorem body {ts : Forest} (h : ∀ c ∈ ts, Displays c.remarks c.source) :
    Displays ts.remarks (Printed.body (ts.map Tree.print)) := by
  have hstatements : Displays ts.remarks (statements (ts.map Tree.print)) := by
    rw [statements, List.map_map]
    exact intercalate (fun c hc => (h c hc).statement) _
  rw [Printed.body]
  split
  · next hempty =>
    cases ts with
    | nil => exact .text _
    | cons t ts => contradiction
  · exact (hstatements.indent.right _).left _

theorem member {m : Member Tree} (h : ∀ c ∈ m.children, Displays c.remarks c.source) :
    Displays (m.children.flatMap Tree.remarks) (m.map Tree.print).render ∧
      Displays (m.children.flatMap Tree.remarks) (m.map Tree.print).renderStatic := by
  cases m with
  | named text => exact ⟨.text _, .text _⟩
  | computed e =>
    have he := h e (List.mem_singleton_self e)
    rw [Member.children, List.flatMap_singleton, Member.map, Member.render, Member.renderStatic]
    split
    · exact ⟨he, he.right _⟩
    · exact ⟨he.braces, he.braces.right _⟩

theorem reference {r : Reference Tree} (h : ∀ c ∈ r.children, Displays c.remarks c.source) :
    Displays (r.children.flatMap Tree.remarks) (r.map Tree.print).render ∧
      Displays (r.children.flatMap Tree.remarks) (r.map Tree.print).renderNew := by
  cases r with
  | named name => exact ⟨.text _, .text _⟩
  | computed e =>
    have he := h e (List.mem_singleton_self e)
    rw [Reference.children, List.flatMap_singleton, Reference.map, Reference.render, Reference.renderNew]
    refine ⟨he.dereferenced, ?_⟩
    split
    · exact he
    · exact he.parens

theorem args {args : List (Arg Tree)} (h : ∀ c ∈ Arg.children args, Displays c.remarks c.source) :
    Displays ((Arg.children args).flatMap Tree.remarks) (argList (args.map (·.map Tree.print))) := by
  rw [argList, List.map_map, Arg.children, List.flatMap_map]
  exact (intercalate (fun a ha => (h a.value (List.mem_map_of_mem ha)).right _) _).parens

theorem params {params : List (Param Tree)}
    (h : ∀ c ∈ Param.children params, Displays c.remarks c.source) :
    Displays ((Param.children params).flatMap Tree.remarks)
      (paramList (params.map (·.map Tree.print))) := by
  rw [paramList, List.map_map, Param.children, List.flatMap_assoc]
  refine (intercalate (fun p hp => ?_) _).parens
  cases hdefault : p.default with
  | none => exact .text _
  | some d =>
    have hd := h d (List.mem_flatMap.mpr ⟨p, hp, by simp [hdefault]⟩)
    rw [Option.toList_some, List.flatMap_singleton, Function.comp, Param.map, Param.render, hdefault]
    exact (hd.right _).right _

end Displays

theorem Form.displays_render {form : Form Tree} (h : ∀ c ∈ form.children, Displays c.remarks c.source) :
    Displays (form.inline.flatMap Tree.remarks ++ form.bodies.flatMap Forest.remarks)
      (form.map Tree.print).render := by
  cases form <;> simp only [children, List.forall_mem_cons, List.forall_mem_append] at h <;>
    simp only [inline, bodies, children, List.flatMap_cons, List.flatMap_nil, List.flatMap_append,
      List.append_nil, List.nil_append, map]
  case literal | var | constant => exact .text _
  case array items => exact ((Displays.list h).right _).left _
  case binary op left right =>
    exact (((h.1.operand.left _).left _).left _).append h.2.1.operand
  case unary op operand => exact h.1.signed.right _
  case assign target value => exact (h.1.left _).append h.2.1
  case call callee args => exact (Displays.reference h.1).1.append (.args h.2)
  case property object name => exact (h.1.dereferenced.left _).append (Displays.member h.2).1
  case methodCall object name args =>
    rw [← List.append_assoc]
    exact ((h.1.dereferenced.left _).append (Displays.member h.2.1).1).append (.args h.2.2)
  case staticProperty owner name =>
    exact ((Displays.reference h.1).1.left _).append (Displays.member h.2).2
  case staticCall owner name args =>
    exact (((Displays.reference h.1.1).1.left _).append (Displays.member h.1.2).1).append (.args h.2)
  case classConstant owner name =>
    exact ((Displays.reference h.1).1.left _).append (Displays.member h.2).1
  case construct owner args =>
    exact ((Displays.reference h.1).2.right _).append (.args h.2)
  case closure params captures isStatic body =>
    exact (((((Displays.params h.1).right _).left _).left _)).append (.body h.2)
  case arrow params body => exact ((((Displays.params h.1).right _).left _)).append h.2.1
  case expression expr => exact h.1.left _
  case ret value =>
    cases value with
    | none => exact .text _
    | some v =>
      rw [Option.toList_some, List.flatMap_singleton, Option.map_some, Form.render]
      exact ((h v (List.mem_singleton_self v)).right _).left _
  case echo values => exact ((Displays.list h).right _).left _
  case branch condition yes no =>
    obtain ⟨hcondition, hyes, hno⟩ := h
    rw [← List.append_assoc, Form.render.eq_def]
    refine (((hcondition.parens.right _).left _).append (.body hyes)).append ?_
    cases no with
    | none => exact .text _
    | some no =>
      rw [Option.toList_some, List.flatMap_singleton]
      exact (Displays.body hno).right _
  case loop condition body =>
    exact ((h.1.parens.right _).left _).append (.body h.2)
  case block statements => exact .body h
  case function name params body =>
    exact ((((Displays.params h.1).right _).left _)).append (.body h.2)
  case classDecl name parent members =>
    rw [Form.render.eq_def]
    exact (Displays.body h).right _
  case method name visibility isStatic params body =>
    exact ((((Displays.params h.1).right _).left _)).append (.body h.2)
  case propertyDecl name visibility isStatic default =>
    cases default with
    | none => exact .text _
    | some d =>
      rw [Option.toList_some, List.flatMap_singleton, Option.map_some, Form.render]
      exact (((h d (List.mem_singleton_self d)).right _).right _).left _
  case constantDecl name visibility value => exact (h.1.right _).left _

/-- The source of a tree displays its remarks. -/
theorem Tree.displays_source (t : Tree) : Displays t.remarks t.source := by
  induction t using Tree.inductionOn with
  | mk form attrs ih =>
    rw [remarks_mk, source_mk]
    exact Form.displays_render ih

theorem Forest.displays_source (ts : Forest) : Displays ts.remarks ts.source := by
  rw [Forest.source, statements, List.map_map]
  exact Displays.intercalate (fun t _ => t.displays_source.statement) _

/-! ## Entering -/

theorem Member.remarks_argument (m : Member Tree) :
    m.argument.remarks = m.children.flatMap Tree.remarks := by
  cases m with
  | named text => exact Tree.remarks_mk _ _
  | computed expr => exact (List.flatMap_singleton _ _).symm

theorem Reference.remarks_argument (r : Reference Tree) :
    r.argument.remarks = r.children.flatMap Tree.remarks := by
  cases r with
  | named name => exact Tree.remarks_mk _ _
  | computed expr => exact (List.flatMap_singleton _ _).symm

/-- The parts of an access come in the same order as the arguments of the call in its place. -/
theorem Bypass.Redirects.remarks_arguments {b : Bypass} {form : Form Tree} {access : Access}
    (h : b.Redirects form access) :
    (Arg.children (Access.arguments form)).flatMap Tree.remarks =
      form.inline.flatMap Tree.remarks ++ form.bodies.flatMap Forest.remarks := by
  cases h <;>
    simp [Access.arguments, Arg.children, Arg.plain, Form.inline, Form.children, Form.bodies,
      Member.remarks_argument, Reference.remarks_argument, Tree.remarks_mk]

theorem Timing.remarks_endMarkFor (t : Timing) (value : Option Tree) :
    (t.endMarkFor value).remarks = value.toList.flatMap Tree.remarks := by
  cases value with
  | none => rfl
  | some v => exact (Tree.remarks_mk _ _).trans (List.append_nil _)

namespace Stock

theorem remarks_enter (depth : Nat) (s : Stock) (t : Tree) :
    (s.enter depth t).remarks = t.remarks := by
  obtain ⟨form, attrs⟩ := t
  obtain ⟨-, h⟩ | ⟨timing, value, -, -, rfl, -, -, h⟩ | ⟨b, access, -, haccess, -, -, h⟩ :=
    s.enter_cases depth ⟨form, attrs⟩
  · rw [h]
  · rw [h, Tree.remarks_mk, Tree.remarks_mk]
    simp [Form.inline, Form.children, Form.bodies, timing.remarks_endMarkFor]
  · rw [h, Tree.remarks_mk, ← haccess.remarks_arguments]
    exact (Tree.remarks_mk _ _).trans (List.append_nil _)

theorem remarks_enters (depth : Nat) (ps : List Stock) (t : Tree) :
    (enters depth ps t).attrs = t.attrs ∧ (enters depth ps t).remarks = t.remarks := by
  induction ps generalizing t with
  | nil => exact ⟨rfl, rfl⟩
  | cons s ps ih =>
    obtain ⟨hattrs, hremarks⟩ := ih (s.enter depth t)
    exact ⟨hattrs.trans (attrs_enter depth s t), hremarks.trans (remarks_enter depth s t)⟩

/-! ## Walks and runs -/

theorem remarks_rewrite (ps : List Stock) (depth : Nat) (t : Tree) :
    ((plan ps).rewrite depth t).attrs = t.attrs ∧ ((plan ps).rewrite depth t).remarks = t.remarks := by
  induction depth, t using (plan ps).induction with
  | step depth t ih =>
    obtain ⟨hattrs, hremarks⟩ := remarks_enters depth ps t
    rw [Plan.rewrite_eq, Tree.remarks_map _ ih, Tree.mk_form_attrs]
    exact ⟨hattrs, hremarks⟩

end Stock

theorem Forest.remarks_append (ts us : Forest) :
    Forest.remarks (ts ++ us) = ts.remarks ++ us.remarks := List.flatMap_append

theorem Forest.remarks_singleton (t : Tree) :
    Forest.remarks [t] = t.attrs.comments ++ t.remarks := List.flatMap_singleton _ _

theorem Tree.remarks_expression (expr : Tree) (attrs : Attributes) :
    Tree.remarks ⟨.expression expr, attrs⟩ = expr.remarks := by
  rw [remarks_mk]
  simp [Form.inline, Form.children, Form.bodies]

theorem Timing.remarks_endMark (t : Timing) (value : Tree) :
    (t.endMark value).remarks = value.remarks :=
  (t.remarks_endMarkFor (some value)).trans (List.flatMap_singleton _ _)

/-- The marks at the end have no comments of their own: that around a bare expression takes over those
of the expression, which is no statement any more. -/
theorem Timing.remarks_finish (t : Timing) (last : Tree) :
    Forest.remarks (t.finish last) = Forest.remarks [last] := by
  obtain hexpr | ⟨expr, attrs, rfl⟩ | ⟨value, attrs, rfl⟩ | ⟨hexpr, hstatement, hret⟩ :=
    last_cases last
  · rw [t.finish_of_isExpression hexpr, Forest.remarks_singleton, Forest.remarks_singleton,
      remarks_endMark]
    rfl
  · show Forest.remarks [⟨.expression (t.endMark expr), attrs⟩] = _
    rw [Forest.remarks_singleton, Forest.remarks_singleton, Tree.remarks_expression,
      Tree.remarks_expression, remarks_endMark]
  · rfl
  · have halone : Forest.remarks [t.endMarkAlone.asStatement] = [] := by
      rw [Forest.remarks_singleton, Tree.asStatement, Tree.remarks_expression]
      rfl
    rw [t.finish_of_kind_ne hexpr hstatement hret, ← List.singleton_append, Forest.remarks_append,
      halone, List.append_nil]

theorem Timing.remarks_bracket (t : Timing) (ts : Forest) :
    Forest.remarks (t.bracket ts) = ts.remarks := by
  have hstart : Forest.remarks [t.startMark.asStatement] = [] := by
    rw [Forest.remarks_singleton, Tree.asStatement, Tree.remarks_expression]
    rfl
  obtain rfl | ⟨init, last, rfl⟩ := List.eq_nil_or_concat ts
  · rw [t.bracket_nil, remarks_finish, hstart]
    rfl
  · rw [List.concat_eq_append, t.bracket_concat, ← List.singleton_append, Forest.remarks_append, hstart,
      List.nil_append, Forest.remarks_append, remarks_finish, Forest.remarks_append]

theorem Stock.remarks_closes (ps : List Stock) (ts : Forest) :
    Forest.remarks (closes ps ts) = ts.remarks := by
  induction ps generalizing ts with
  | nil => rfl
  | cons s ps ih =>
    have hclose : Forest.remarks (s.close ts) = ts.remarks := by
      cases s with
      | timing timing => exact timing.remarks_bracket ts
      | bypass b => rfl
    rw [closes, ih, hclose]

/-- A run of timing and bypass passes, in any number and order and each with its own settings, succeeds,
and what it makes of a list of statements is printed with the same comments in the same order. -/
theorem run_stock_remarks (ps : List Stock) (ts : Forest) :
    ∃ us tally, (run (ps.map Stock.given) ts).result = .ok (us, tally) ∧
      Forest.remarks us = ts.remarks ∧
      Displays ts.remarks ts.source ∧ Displays ts.remarks (Forest.source us) := by
  have hkept : Forest.remarks (Stock.closes ps (ts.map ((Stock.plan ps).rewrite 0))) = ts.remarks := by
    rw [Stock.remarks_closes, Forest.remarks, Forest.remarks, List.flatMap_map]
    refine List.flatMap_congr fun t _ => ?_
    obtain ⟨hattrs, hremarks⟩ := Stock.remarks_rewrite ps 0 t
    rw [hattrs, hremarks]
  have hsource := Forest.displays_source (Stock.closes ps (ts.map ((Stock.plan ps).rewrite 0)))
  rw [hkept] at hsource
  exact ⟨_, _, Stock.run_given ps ts, hkept, Forest.displays_source ts, hsource⟩

end Graft
