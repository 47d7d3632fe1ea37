import Graft.Proofs.Operations
import Graft.Proofs.Rows

/-! # First characters of sources

A character other than a line feed, a blank and a slash settles its row as code. The source of a tree
starts with such a character if its names are valid (`Form.opens_render`): names and numbers have no
others, and all other forms start with a fixed one or with the source of a child.
-/

set_option autoImplicit false

namespace Graft
open Printed Text

/-! ## First characters -/

/-- A character that settles a row and does not end it. -/
def isInk (c : Char) : Bool := !(['\n', ' ', '/'].contains c)

theorem isInk_of {p : Char → Bool} (hp : ['\n', ' ', '/'].all (fun d => !p d) = true) {c : Char}
    (h : p c = true) : isInk c = true := by
  rw [isInk, Bool.not_eq_true', ← Bool.not_eq_true, List.contains_iff_mem]
  intro hmem
  have hnot := List.all_eq_true.mp hp c hmem
  rw [h] at hnot
  contradiction

/-- A text of such characters. -/
def Inked (text : String) : Prop := ∀ c ∈ text.toList, isInk c = true

theorem Inked.append {a b : String} (ha : Inked a) (hb : Inked b) : Inked (a ++ b) := by
  intro c hc
  rw [String.toList_append] at hc
  exact (List.mem_append.mp hc).elim (ha c) (hb c)

theorem Inked.feed_not_mem {a : String} (h : Inked a) : '\n' ∉ a.toList := by
  intro hmem
  have hfeed := h _ hmem
  contradiction

theorem opens_of_isInk {a : String} {c : Char} {x : List Char} (h : a.toList = c :: x)
    (hc : isInk c = true) : Opens a := by
  refine ⟨c, x, h, ?_, ?_, ?_⟩ <;>
  · rintro rfl
    contradiction

theorem Inked.opens {a : String} (h : Inked a) (hne : a.toList ≠ []) : Opens a := by
  obtain ⟨c, x, hx⟩ := List.exists_cons_of_ne_nil hne
  exact opens_of_isInk hx (h c (hx ▸ List.mem_cons_self))

theorem Text.Opens.append {a : String} (h : Opens a) (b : String) : Opens (a ++ b) := by
  obtain ⟨c, x, hx, hc⟩ := h
  exact ⟨c, x ++ b.toList, by rw [String.toList_append, hx, List.cons_append], hc⟩

theorem opens_of_head {a : String} (h : a.toList.head?.any isInk = true) : Opens a := by
  cases hchars : a.toList with
  | nil =>
    rw [hchars] at h
    contradiction
  | cons c x =>
    rw [hchars] at h
    exact opens_of_isInk hchars h

theorem opens_append_of_head {a : String} (h : a.toList.head?.any isInk = true) (b : String) :
    Opens (a ++ b) := (opens_of_head h).append b

theorem opens_parens (text : String) : Opens (parens text) :=
  (opens_append_of_head (by decide) text).append _

theorem inked_word {text : String} (h : ∀ c ∈ text.toList, Text.isWord c = true) : Inked text :=
  fun c hc => isInk_of (p := Text.isWord) rfl (h c hc)

theorem inked_identifier {text : String} (h : Name.isIdentifier text.toList = true) : Inked text :=
  inked_word (isWord_of_isIdentifier h)

theorem inked_name {name : Name} (h : name.isValid = true) : Inked name.source :=
  inked_word (isWord_of_isValid h)

theorem opens_name {name : Name} (h : name.isValid = true) : Opens name.source :=
  (inked_name h).opens (source_name_ne_nil h)

/-! ## Numbers -/

theorem inked_nat (n : Nat) : Inked (toString n) ∧ (toString n).toList ≠ [] := by
  rw [Nat.toString_eq_repr]
  refine ⟨fun c hc => ?_, ?_⟩
  · rw [Nat.toList_repr] at hc
    exact isInk_of (p := Char.isDigit) rfl (Nat.isDigit_of_mem_toDigits (by decide) (by decide) hc)
  · rw [Nat.toList_repr]
    exact Nat.toDigits_ne_nil

theorem opens_nat (n : Nat) : Opens (toString n) := (inked_nat n).1.opens (inked_nat n).2

theorem inked_text {text : String} (h : text.toList.all isInk = true) : Inked text :=
  List.all_eq_true.mp h

theorem inked_int (i : Int) : Inked (toString i) ∧ Opens (toString i) := by
  rw [Int.toString_eq_repr, Int.repr_eq_if]
  split
  · exact ⟨(inked_nat _).1, opens_nat _⟩
  · exact ⟨(inked_text (by decide)).append (inked_nat _).1, opens_append_of_head (by decide) _⟩

theorem inked_positional (digits : Nat) (exponent : Int) :
    Inked (Decimal.positional digits exponent) ∧ Opens (Decimal.positional digits exponent) := by
  rw [Decimal.positional]
  split
  · exact ⟨(inked_nat _).1, opens_nat _⟩
  · rw [Decimal.withPlaces]
    have hzeros : ∀ n, Inked (String.ofList (List.replicate n '0')) := by
      intro n c hc
      rw [String.toList_ofList] at hc
      rw [List.eq_of_mem_replicate hc]
      rfl
    exact ⟨(((inked_nat _).1.append (inked_text (by decide))).append (hzeros _)).append (inked_nat _).1,
      (((opens_nat _).append _).append _).append _⟩

theorem inked_float (x : Binary64) : Inked x.source ∧ Opens x.source := by
  have hmagnitude : ∀ text, text = (if x.isInfinite then "INF"
      else if x.isWhole then toString (x.ratio.1 / x.ratio.2) ++ ".0"
      else Decimal.positional (Decimal.shortest x).1 (Decimal.shortest x).2) →
      Inked text ∧ Opens text := by
    rintro text rfl
    split
    · exact ⟨inked_text (by decide), opens_of_head (by decide)⟩
    · split
      · exact ⟨(inked_nat _).1.append (inked_text (by decide)), (opens_nat _).append _⟩
      · exact inked_positional _ _
  rw [Binary64.source]
  split
  · exact ⟨inked_text (by decide), opens_of_head (by decide)⟩
  · dsimp only
    split
    · exact ⟨(inked_text (by decide)).append (hmagnitude _ rfl).1, opens_append_of_head (by decide) _⟩
    · exact hmagnitude _ rfl

/-! ## Literals -/

/-- Whether a literal is no string with a line feed. -/
def Literal.isOneLine : Literal → Bool
  | .str text => !text.toList.contains '\n'
  | _ => true

theorem feed_not_mem_escape {x : List Char} (h : '\n' ∉ x) : '\n' ∉ escape x := by
  fun_induction escape x <;> simp_all

theorem feed_not_mem_literal {value : Literal} (h : value.isOneLine = true) :
    '\n' ∉ value.source.toList := by
  cases value with
  | int value => exact (inked_int _).1.feed_not_mem
  | float value => exact (inked_float value).1.feed_not_mem
  | str text =>
    have htext : '\n' ∉ text.toList := by simpa [Literal.isOneLine] using h
    rw [Literal.source, toList_quote, quoted]
    simpa using feed_not_mem_escape htext
  | bool value => cases value <;> decide
  | null => decide

theorem opens_literal (value : Literal) : Opens value.source := by
  cases value with
  | int value => exact (inked_int _).2
  | float value => exact (inked_float value).2
  | str text => exact opens_of_isInk (toList_quote text) rfl
  | bool value => cases value <;> exact opens_of_head (by decide)
  | null => exact opens_of_head (by decide)

/-! ## First characters of trees -/

theorem opens_dereferenced {t : Tree} (h : Opens t.source) : Opens t.print.dereferenced := by
  rw [dereferenced]
  split
  · exact h
  · exact opens_parens _

theorem opens_operand {t : Tree} (h : Opens t.source) : Opens t.print.operand := by
  rw [operand]
  split
  · exact opens_parens _
  · exact h

theorem opens_reference {r : Reference Tree} (hvalid : r.isValid = true)
    (h : ∀ c ∈ r.children, Opens c.source) : Opens (r.map Tree.print).render := by
  cases r with
  | named name => exact opens_name hvalid
  | computed e => exact opens_dereferenced (h e (List.mem_singleton_self e))

theorem opens_body (ps : List Printed) : Opens (body ps) := by
  rw [body]
  split
  · exact opens_of_head (by decide)
  · exact Opens.append (opens_append_of_head (by decide) _) _

theorem Form.opens_render {form : Form Tree} (hnames : form.hasValidNames = true)
    (h : ∀ c ∈ form.children, Opens c.source) : Opens (form.map Tree.print).render := by
  -- a valid name is needed only where the name comes first
  cases form <;> simp only [children, List.forall_mem_cons, List.forall_mem_append] at h
  case literal value => exact opens_literal value
  case var name => exact opens_append_of_head (by decide) _
  case constant name => exact opens_name hnames
  case array items => exact Opens.append (opens_append_of_head (by decide) _) _
  case binary op left right => exact ((((opens_operand h.1).append _).append _).append _).append _
  case unary op operand => cases op <;> exact opens_append_of_head (by decide) _
  case assign target value => exact (h.1.append _).append _
  case call callee args => exact (opens_reference hnames h.1).append _
  case property object name => exact ((opens_dereferenced h.1).append _).append _
  case methodCall object name args =>
    exact (((opens_dereferenced h.1).append _).append _).append _
  case staticProperty owner name =>
    exact ((opens_reference (Bool.and_eq_true_iff.mp hnames).1 h.1).append _).append _
  case staticCall owner name args =>
    exact (((opens_reference (Bool.and_eq_true_iff.mp hnames).1 h.1.1).append _).append _).append _
  case classConstant owner name =>
    exact ((opens_reference (Bool.and_eq_true_iff.mp hnames).1 h.1).append _).append _
  case construct owner args => exact Opens.append (opens_append_of_head (by decide) _) _
  case closure params captures isStatic body =>
    refine Opens.append (Opens.append (Opens.append (Opens.append ?_ _) _) _) _
    cases isStatic <;> exact opens_of_head (by decide)
  case arrow params body => exact ((opens_append_of_head (by decide) _).append _).append _
  case expression expr => exact h.1.append _
  case ret value =>
    cases value with
    | none => exact opens_of_head (by decide)
    | some value => exact (opens_append_of_head (by decide) _).append _
  case echo values => exact (opens_append_of_head (by decide) _).append _
  case branch condition yes no =>
    rw [map, render.eq_def]
    exact (((opens_append_of_head (by decide) _).append _).append _).append _
  case loop condition body => exact ((opens_append_of_head (by decide) _).append _).append _
  case block statements => exact opens_body _
  case function name params body =>
    exact (((opens_append_of_head (by decide) _).append _).append _).append _
  case classDecl name parent members =>
    rw [map, render.eq_def]
    exact (((opens_append_of_head (by decide) _).append _).append _).append _
  case method name visibility isStatic params body =>
    refine Opens.append (Opens.append (Opens.append (Opens.append (Opens.append ?_ _) _) _) _) _
    cases visibility <;> exact opens_append_of_head (by decide) _
  case propertyDecl name visibility isStatic default =>
    rw [map, render.eq_def]
    refine Opens.append (Opens.append (Opens.append (Opens.append ?_ _) _) _) _
    cases visibility <;> exact opens_append_of_head (by decide) _
  case constantDecl name visibility value =>
    refine Opens.append (Opens.append (Opens.append (Opens.append ?_ _) _) _) _
    cases visibility <;> exact opens_append_of_head (by decide) _

end Graft
