import Graft.Proofs.FormLaws
import Graft.Proofs.Indentation
import Graft.Tree.Make
import Graft.Tree.Source

/-! # Literals inside bodies

A child stands in a body, between braces and one level deeper, or outside all bodies of its parent. The
source of a child outside stands in the source of its parent as it is; that of a child in a body is
indented with the lines of the body, and with it every string literal. What stands for a literal in the
source of a tree is the literal for another text (`Text.reread`), the same text exactly if there is no
body around it or no line feed in it (`occurs_literal`).
-/

set_option autoImplicit false

namespace Graft
open Printed Text

/-! ## Bodies -/

section
variable {α : Type}

/-- The lists of statements or members between braces. -/
def Form.bodies : Form α → List (List α)
  | .closure _ _ _ body | .function _ _ body | .method _ _ _ _ body => [body]
  | .branch _ yes no => yes :: no.toList
  | .loop _ body | .block body | .classDecl _ _ body => [body]
  | _ => []

def Form.inline : Form α → List α
  | .closure params _ _ _ | .function _ params _ | .method _ _ _ params _ => Param.children params
  | .branch condition _ _ | .loop condition _ => [condition]
  | .block _ | .classDecl _ _ _ => []
  | form => form.children

theorem Form.mem_children_iff (form : Form α) (c : α) :
    c ∈ form.children ↔ c ∈ form.inline ∨ ∃ body ∈ form.bodies, c ∈ body := by
  cases form <;> simp [children, inline, bodies]
  case branch condition yes no => cases no <;> simp

variable {β : Type} (f : α → β)

theorem Form.inline_map (form : Form α) : (form.map f).inline = form.inline.map f := by
  have hchildren := form.children_map f
  cases form <;>
    simp only [map, inline, Param.children_map, List.map_cons, List.map_nil] <;> exact hchildren

theorem Form.bodies_map (form : Form α) : (form.map f).bodies = form.bodies.map (·.map f) := by
  cases form <;> try rfl
  case branch condition yes no => cases no <;> rfl

end

/-- A tree holds another, with as many bodies around it within the first. -/
inductive Tree.Holds : Tree → Nat → Tree → Prop
  | here (t : Tree) : Holds t 0 t
  | outside {t c u : Tree} {depth : Nat} (hc : c ∈ t.form.inline) (h : Holds c depth u) :
    Holds t depth u
  | inBody {t c u : Tree} {depth : Nat} {body : Forest} (hbody : body ∈ t.form.bodies) (hc : c ∈ body)
    (h : Holds c depth u) : Holds t (depth + 1) u

theorem Tree.contains_iff_holds (t u : Tree) : t.Contains u ↔ ∃ depth, t.Holds depth u := by
  constructor
  · intro h
    induction h with
    | here t => exact ⟨0, .here t⟩
    | inChild hc _ ih =>
      obtain ⟨depth, h⟩ := ih
      rcases (Form.mem_children_iff _ _).mp hc with hc | ⟨body, hbody, hc⟩
      · exact ⟨depth, .outside hc h⟩
      · exact ⟨depth + 1, .inBody hbody hc h⟩
  · rintro ⟨depth, h⟩
    induction h with
    | here t => exact .here t
    | outside hc _ ih => exact .inChild ((Form.mem_children_iff _ _).mpr (.inl hc)) ih
    | inBody hbody hc _ ih => exact .inChild ((Form.mem_children_iff _ _).mpr (.inr ⟨_, hbody, hc⟩)) ih

/-! ## Occurrences -/

/-- The characters stand in the text, one after another. -/
def Occurs (x : List Char) (text : String) : Prop := x <:+: text.toList

section
variable {x : List Char}

theorem Occurs.left {a : String} (h : Occurs x a) (b : String) : Occurs x (a ++ b) := by
  rw [Occurs, String.toList_append]
  exact List.infix_append_of_infix_left h

theorem Occurs.right {b : String} (h : Occurs x b) (a : String) : Occurs x (a ++ b) := by
  rw [Occurs, String.toList_append]
  exact List.infix_append_of_infix_right h

theorem Occurs.intercalate {a : String} {texts : List String} (h : Occurs x a) (ha : a ∈ texts)
    (separator : String) : Occurs x (separator.intercalate texts) := by
  induction texts with
  | nil => contradiction
  | cons b texts ih =>
    cases texts with
    | nil =>
      rw [List.mem_singleton] at ha
      rwa [String.intercalate_singleton, ← ha]
    | cons c texts =>
      rw [String.intercalate_cons_cons]
      cases ha with
      | head => exact (h.left _).left _
      | tail _ ha => exact (ih ha).right _

theorem Occurs.parens {text : String} (h : Occurs x text) : Occurs x (Printed.parens text) :=
  (h.right _).left _

theorem Occurs.braces {text : String} (h : Occurs x text) : Occurs x (Printed.braces text) :=
  (h.right _).left _

section
variable {c : Tree} (h : Occurs x c.source)
include h

theorem Occurs.dereferenced : Occurs x c.print.dereferenced := by
  rw [Printed.dereferenced]
  split
  · exact h
  · exact h.parens

theorem Occurs.operand : Occurs x c.print.operand := by
  rw [Printed.operand]
  split
  · exact h.parens
  · exact h

theorem Occurs.signed : Occurs x c.print.signed := by
  rw [Printed.signed]
  split
  · exact h.parens
  · exact h.operand

theorem Occurs.statement : Occurs x c.print.statement := by
  rw [Printed.statement]
  exact (h.right _).left _

theorem Occurs.list {items : Forest} (hc : c ∈ items) :
    Occurs x (Printed.list (items.map Tree.print)) := by
  refine Occurs.intercalate (a := c.source) h ?_ _
  rw [List.map_map]
  exact List.mem_map_of_mem (f := fun t => (Tree.print t).2) hc

theorem Occurs.member {m : Member Tree} (hc : c ∈ m.children) :
    Occurs x (m.map Tree.print).render ∧ Occurs x (m.map Tree.print).renderStatic := by
  cases m with
  | named text => contradiction
  | computed e =>
    cases List.mem_singleton.mp hc
    rw [Member.map, Member.render, Member.renderStatic]
    split
    · exact ⟨h, h.right _⟩
    · exact ⟨h.braces, h.braces.right _⟩

theorem Occurs.reference {r : Reference Tree} (hc : c ∈ r.children) :
    Occurs x (r.map Tree.print).render ∧ Occurs x (r.map Tree.print).renderNew := by
  cases r with
  | named name => contradiction
  | computed e =>
    cases List.mem_singleton.mp hc
    rw [Reference.map, Reference.render, Reference.renderNew]
    refine ⟨h.dereferenced, ?_⟩
    split
    · exact h
    · exact h.parens

theorem Occurs.args {args : List (Arg Tree)} (hc : c ∈ Arg.children args) :
    Occurs x (argList (args.map (·.map Tree.print))) := by
  obtain ⟨a, ha, rfl⟩ := List.mem_map.mp hc
  refine (Occurs.intercalate (a := (a.map Tree.print).render) (h.right _) ?_ _).parens
  rw [List.map_map]
  exact List.mem_map_of_mem (f := fun a => (Arg.map Tree.print a).render) ha

theorem Occurs.params {params : List (Param Tree)} (hc : c ∈ Param.children params) :
    Occurs x (paramList (params.map (·.map Tree.print))) := by
  obtain ⟨p, hp, hdefault⟩ := List.mem_flatMap.mp hc
  refine (Occurs.intercalate (a := (p.map Tree.print).render) ?_ ?_ _).parens
  · rw [Param.map, Param.render, Option.mem_toList.mp hdefault]
    exact (h.right _).right _
  · rw [List.map_map]
    exact List.mem_map_of_mem (f := fun p => (Param.map Tree.print p).render) hp

/-- What occurs in the source of a child outside the bodies occurs in that of its parent. -/
theorem Occurs.render {form : Form Tree} (hc : c ∈ form.inline) :
    Occurs x (form.map Tree.print).render := by
  cases form with
  | literal | var | constant | block | classDecl => contradiction
  | array items =>
    rw [Form.map, Form.render]
    exact ((h.list hc).right _).left _
  | binary op left right =>
    rw [Form.map, Form.render]
    rcases List.mem_pair.mp hc with rfl | rfl
    · exact (((h.operand.left _).left _).left _).left _
    · exact h.operand.right _
  | unary op operand =>
    cases List.mem_singleton.mp hc
    rw [Form.map, Form.render]
    exact h.signed.right _
  | assign target value =>
    rw [Form.map, Form.render]
    rcases List.mem_pair.mp hc with rfl | rfl
    · exact (h.left _).left _
    · exact h.right _
  | call callee args =>
    rw [Form.map, Form.render]
    rcases List.mem_append.mp hc with hc | hc
    · exact (h.reference hc).1.left _
    · exact (h.args hc).right _
  | property object name =>
    rw [Form.map, Form.render]
    rcases List.mem_cons.mp hc with rfl | hc
    · exact (h.dereferenced.left _).left _
    · exact (h.member hc).1.right _
  | methodCall object name args =>
    rw [Form.map, Form.render]
    rcases List.mem_cons.mp hc with rfl | hc
    · exact ((h.dereferenced.left _).left _).left _
    · rcases List.mem_append.mp hc with hc | hc
      · exact ((h.member hc).1.right _).left _
      · exact (h.args hc).right _
  | staticProperty owner name =>
    rw [Form.map, Form.render]
    rcases List.mem_append.mp hc with hc | hc
    · exact ((h.reference hc).1.left _).left _
    · exact (h.member hc).2.right _
  | staticCall owner name args =>
    rw [Form.map, Form.render]
    rcases List.mem_append.mp hc with hc | hc
    · rcases List.mem_append.mp hc with hc | hc
      · exact (((h.reference hc).1.left _).left _).left _
      · exact ((h.member hc).1.right _).left _
    · exact (h.args hc).right _
  | classConstant owner name =>
    rw [Form.map, Form.render]
    rcases List.mem_append.mp hc with hc | hc
    · exact ((h.reference hc).1.left _).left _
    · exact (h.member hc).1.right _
  | construct owner args =>
    rw [Form.map, Form.render]
    rcases List.mem_append.mp hc with hc | hc
    · exact ((h.reference hc).2.right _).left _
    · exact (h.args hc).right _
  | closure params captures isStatic body =>
    rw [Form.map, Form.render]
    exact ((((h.params hc).right _).left _).left _).left _
  | arrow params body =>
    rw [Form.map, Form.render]
    rcases List.mem_append.mp hc with hc | hc
    · exact (((h.params hc).right _).left _).left _
    · cases List.mem_singleton.mp hc
      exact h.right _
  | expression expr =>
    cases List.mem_singleton.mp hc
    rw [Form.map, Form.render]
    exact h.left _
  | ret value =>
    cases Option.mem_toList.mp hc
    rw [Form.map, Option.map_some, Form.render]
    exact (h.right _).left _
  | echo values =>
    rw [Form.map, Form.render]
    exact ((h.list hc).right _).left _
  | branch condition yes no =>
    cases List.mem_singleton.mp hc
    rw [Form.map, Form.render.eq_def]
    exact (((h.parens.right _).left _).left _).left _
  | loop condition body =>
    cases List.mem_singleton.mp hc
    rw [Form.map, Form.render]
    exact ((h.parens.right _).left _).left _
  | function name params body =>
    rw [Form.map, Form.render]
    exact (((h.params hc).right _).left _).left _
  | method name visibility isStatic params body =>
    rw [Form.map, Form.render]
    exact (((h.params hc).right _).left _).left _
  | propertyDecl name visibility isStatic default =>
    cases Option.mem_toList.mp hc
    rw [Form.map, Option.map_some, Form.render]
    exact ((h.right _).right _).left _
  | constantDecl name visibility value =>
    cases List.mem_singleton.mp hc
    rw [Form.map, Form.render]
    exact (h.right _).left _

end

/-- A literal in the source of a child in a body occurs in the body with its later lines deeper. -/
theorem Occurs.body {c : Tree} {ts : Forest} (h : Occurs (quoted x) c.source) (hc : c ∈ ts) :
    Occurs (quoted (hang false x)) (Printed.body (ts.map Tree.print)) := by
  have hne : (ts.map Tree.print).isEmpty = false := by
    cases ts with
    | nil => contradiction
    | cons t ts => rfl
  have hstatements : Occurs (quoted x) (statements (ts.map Tree.print)) := by
    refine h.statement.intercalate ?_ _
    rw [List.map_map]
    exact List.mem_map_of_mem (f := fun t => (Tree.print t).statement) hc
  have hindent : Occurs (quoted (hang false x)) (indent (statements (ts.map Tree.print))) := by
    rw [Occurs, toList_indent]
    exact quoted_infix_shift hstatements true
  rw [Printed.body, hne]
  exact (hindent.right _).left _

theorem Occurs.render_body {form : Form Tree} {ts : Forest} (hts : ts ∈ form.bodies)
    (h : Occurs x (Printed.body (ts.map Tree.print))) : Occurs x (form.map Tree.print).render := by
  cases form with
  | closure params captures isStatic body =>
    cases List.mem_singleton.mp hts
    rw [Form.map, Form.render]
    exact h.right _
  | branch condition yes no =>
    rw [Form.map, Form.render.eq_def]
    rcases List.mem_cons.mp hts with rfl | hts
    · exact (h.right _).left _
    · cases Option.mem_toList.mp hts
      exact (h.right _).right _
  | loop condition body =>
    cases List.mem_singleton.mp hts
    rw [Form.map, Form.render]
    exact h.right _
  | block statements =>
    cases List.mem_singleton.mp hts
    rw [Form.map, Form.render]
    exact h
  | function name params body =>
    cases List.mem_singleton.mp hts
    rw [Form.map, Form.render]
    exact h.right _
  | classDecl name parent members =>
    cases List.mem_singleton.mp hts
    rw [Form.map, Form.render.eq_def]
    exact h.right _
  | method name visibility isStatic params body =>
    cases List.mem_singleton.mp hts
    rw [Form.map, Form.render]
    exact h.right _
  | _ => contradiction

end

/-! ## Literals -/

/-- The text that a literal with bodies around it is read back as. -/
def Text.reread (depth : Nat) (text : String) : String := .ofList ((hang false)^[depth] text.toList)

theorem Text.reread_eq_self_iff (depth : Nat) (text : String) :
    reread depth text = text ↔ depth = 0 ∨ '\n' ∉ text.toList := by
  rw [← hang_iterate_eq_self_iff, reread, ← String.toList_inj, String.toList_ofList]

theorem Tree.Holds.occurs {t u : Tree} {depth : Nat} (h : t.Holds depth u) {x : List Char}
    (hu : Occurs (quoted x) u.source) : Occurs (quoted ((hang false)^[depth] x)) t.source := by
  induction h with
  | here t => exact hu
  | @outside t c u depth hc _ ih =>
    rw [← t.mk_form_attrs, Tree.source_mk]
    exact (ih hu).render hc
  | @inBody t c u depth body hbody hc _ ih =>
    rw [← t.mk_form_attrs, Tree.source_mk, Function.iterate_succ_apply']
    exact Occurs.render_body hbody ((ih hu).body hc)

theorem Tree.Holds.occurs_quote {t : Tree} {depth : Nat} {text : String} {attrs : Attributes}
    (h : t.Holds depth ⟨.literal (.str text), attrs⟩) :
    Occurs (quote (reread depth text)).toList t.source := by
  rw [toList_quote, reread, String.toList_ofList]
  refine h.occurs ?_
  rw [Occurs, Tree.source_mk, ← toList_quote]
  exact List.infix_rfl

theorem toList_source_block (text : String) :
    (Make.block [(Make.str text).asStatement]).source.toList =
      "\x7b\n    ".toList ++ quoted (hang false text.toList) ++ ";\n\x7d".toList := by
  have hsource : (Make.str text).asStatement.source = quote text ++ ";" := by
    rw [Tree.asStatement, Tree.source_mk, Form.map, Form.render, Tree.print, Make.str, Tree.bare,
      Tree.source_mk]
    rfl
  have hstatements : statements [(Make.str text).asStatement.print] = quote text ++ ";" := by
    rw [statements, List.map_singleton, String.intercalate_singleton, statement, Tree.print, hsource]
    simp [Tree.asStatement, Tree.isExpression, Tree.kind, Form.kind, Kind.isExpression, Make.str,
      Tree.bare, Attributes.place, Attributes.empty]
  have hshift : shift true (quoted text.toList ++ [';']) =
      margin true ++ quoted (hang false text.toList) ++ [';'] := by
    rw [quoted, List.cons_append, List.append_assoc, shift_quote, List.singleton_append, shift_escape]
    simp [quoted, shift, margin]
  rw [Make.block, Tree.bare, Tree.source_mk, Form.map, Form.render, List.map_singleton, body,
    hstatements, List.isEmpty_cons, if_neg Bool.false_ne_true]
  simp [toList_indent, toList_quote, hshift, margin]

/-- A string literal anywhere in a tree stands in its source if its text is on one line. In general the
literal for another text stands in its place, with every line but the first deeper by the bodies around
it: the same text exactly if there is no such body or no line feed. With a line feed in it, already a
block around the literal alone does not have it. -/
theorem occurs_literal (t : Tree) (text : String) (attrs : Attributes)
    (h : t.Contains ⟨.literal (.str text), attrs⟩) :
    ('\n' ∉ text.toList → Occurs (quote text).toList t.source) ∧
      (∀ depth, t.Holds depth ⟨.literal (.str text), attrs⟩ →
        Occurs (quote (reread depth text)).toList t.source ∧
          (reread depth text = text ↔ depth = 0 ∨ '\n' ∉ text.toList)) ∧
      (Occurs (quote text).toList (Make.block [(Make.str text).asStatement]).source ↔
        '\n' ∉ text.toList) := by
  refine ⟨fun hfeed => ?_, fun depth hholds => ?_, ?_⟩
  · obtain ⟨depth, hholds⟩ := (Tree.contains_iff_holds _ _).mp h
    have hoccurs := hholds.occurs_quote
    rwa [(reread_eq_self_iff depth text).mpr (.inr hfeed)] at hoccurs
  · exact ⟨hholds.occurs_quote, reread_eq_self_iff depth text⟩
  · rw [Occurs, toList_quote, toList_source_block]
    exact quoted_infix_hang_iff (by decide) (by decide)

/-- A literal of two lines comes out with another second line, one of one line as it is. -/
theorem occurs_literal_function :
    Occurs "'a\n    b'".toList (Make.function "f" [] [Make.ret (some (Make.str "a\nb"))]).source ∧
      Occurs "'ab'".toList (Make.function "f" [] [Make.ret (some (Make.str "ab"))]).source := by
  have hholds : ∀ text, (Make.function "f" [] [Make.ret (some (Make.str text))]).Holds 1
      (Make.str text) := fun text =>
    .inBody (List.mem_singleton_self _) (List.mem_singleton_self _)
      (.outside (List.mem_singleton_self _) (.here _))
  have hcontains := fun text => (Tree.contains_iff_holds _ _).mpr ⟨1, hholds text⟩
  exact ⟨((occurs_literal _ "a\nb" .empty (hcontains "a\nb")).2.1 1 (hholds "a\nb")).1,
    (occurs_literal _ "ab" .empty (hcontains "ab")).1 (by decide)⟩

/-- A literal in a block that does not occur in its source. -/
theorem not_occurs_literal_block :
    (Make.block [(Make.str "a\nb").asStatement]).Contains (Make.str "a\nb") ∧
      ¬Occurs (quote "a\nb").toList (Make.block [(Make.str "a\nb").asStatement]).source := by
  constructor
  · exact .inChild (List.mem_singleton_self _) (.inChild (List.mem_singleton_self _) (.here _))
  · rw [Occurs, toList_quote, toList_source_block]
    decide

end Graft
