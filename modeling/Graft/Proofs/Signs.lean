import Mathlib.Data.List.Chain
import Graft.Proofs.Operations

/-! # Signs side by side

Outside literals, no two signs stand side by side in the source of an operator expression: there are
blanks around a binary operator, and the operand of a unary one does not start with a sign. A text that
is `Settled` ends every literal that it opens and does not end in a sign, so texts of that kind can be
put together (`Settled.append`), and every operator expression is one (`Tree.IsOperation.settled`).
-/

set_option autoImplicit false

namespace Graft
open Printed Text

/-! ## Outside literals -/

/-- The characters outside literals, with the quotes of these. -/
def Text.unquoted : (inside : Bool) → List Char → List Char
  | _, [] => []
  | false, '\'' :: rest => '\'' :: unquoted true rest
  | false, c :: rest => c :: unquoted false rest
  | true, '\\' :: _ :: rest => unquoted true rest
  | true, '\'' :: rest => '\'' :: unquoted false rest
  | true, _ :: rest => unquoted true rest

theorem unquoted_cons {c : Char} (h : c ≠ '\'') (x : List Char) :
    unquoted false (c :: x) = c :: unquoted false x := by
  rw [unquoted]
  exact h

theorem head?_unquoted (c : Char) (x : List Char) : (unquoted false (c :: x)).head? = some c := by
  by_cases h : c = '\''
  · subst h
    rfl
  · rw [unquoted_cons h]
    rfl

theorem unquoted_plain {x : List Char} (h : '\'' ∉ x) (y : List Char) :
    unquoted false (x ++ y) = x ++ unquoted false y := by
  induction x with
  | nil => rfl
  | cons c x ih =>
    rw [List.mem_cons, not_or] at h
    rw [List.cons_append, unquoted_cons (Ne.symm h.1), ih h.2, List.cons_append]

theorem unquoted_escape (x y : List Char) :
    unquoted true (escape x ++ '\'' :: y) = '\'' :: unquoted false y := by
  fun_induction escape x with
  | case1 => rfl
  | case2 rest ih | case3 rest ih => exact ih
  | case4 c rest hquote hslash ih =>
    rw [List.cons_append, unquoted]
    · exact ih
    · exact fun d z hd => absurd hd hslash
    · exact hquote

/-! ## Signs -/

def isSign (c : Char) : Bool := c = '!' || c = '-' || c = '+'

theorem isSign_of_leadOf_ne {c : Char} (h : leadOf c ≠ .sign) : isSign c = false := by
  rw [← Bool.not_eq_true]
  intro hsign
  simp only [isSign, Bool.or_eq_true, decide_eq_true_eq] at hsign
  obtain (rfl | rfl) | rfl := hsign <;> exact h rfl

/-- Two characters that are not both signs. -/
def Apart (c d : Char) : Prop := isSign c = false ∨ isSign d = false

instance (c d : Char) : Decidable (Apart c d) := inferInstanceAs (Decidable (_ ∨ _))

/-- No two signs stand side by side outside literals. -/
def SignsApart (text : String) : Prop := (unquoted false text.toList).IsChain Apart

/-! ## Texts that can be put together -/

structure Settled (text : String) : Prop where
  /-- Every literal in it ends in it. -/
  unquoted_append : ∀ y, unquoted false (text.toList ++ y) =
    unquoted false text.toList ++ unquoted false y
  apart : SignsApart text
  last : ∀ c ∈ (unquoted false text.toList).getLast?, isSign c = false

namespace Settled

theorem append {a b : String} (ha : Settled a) (hb : Settled b) : Settled (a ++ b) := by
  have hab : unquoted false (a ++ b).toList = unquoted false a.toList ++ unquoted false b.toList := by
    rw [String.toList_append, ha.unquoted_append]
  refine ⟨fun y => ?_, ?_, fun c hc => ?_⟩
  · rw [hab, String.toList_append, List.append_assoc, ha.unquoted_append, hb.unquoted_append,
      List.append_assoc]
  · rw [SignsApart, hab]
    exact List.IsChain.append ha.apart hb.apart fun c hc d _ => .inl (ha.last c hc)
  · rw [hab, List.getLast?_append] at hc
    cases hlast : (unquoted false b.toList).getLast? with
    | none =>
      rw [hlast] at hc
      exact ha.last c hc
    | some d =>
      rw [hlast] at hc
      exact hb.last c (hlast ▸ hc)

/-- A text without quotes is settled if it looks so. -/
theorem of_code {text : String} (h : '\'' ∉ text.toList ∧ text.toList.IsChain Apart ∧
    text.toList.getLast?.all (fun c => !isSign c) = true) : Settled text := by
  obtain ⟨hquote, hapart, hlast⟩ := h
  have hself : unquoted false text.toList = text.toList := by
    have hnil := unquoted_plain hquote []
    rwa [List.append_nil, unquoted, List.append_nil] at hnil
  refine ⟨fun y => by rw [unquoted_plain hquote, hself], by rwa [SignsApart, hself], fun c hc => ?_⟩
  rw [hself, Option.mem_def] at hc
  rw [hc, Option.all_some, Bool.not_eq_true'] at hlast
  exact hlast

theorem word {text : String} (h : ∀ c ∈ text.toList, Text.isWord c = true) : Settled text := by
  have hsign : ∀ c ∈ text.toList, isSign c = false := by
    intro c hc
    refine isSign_of_leadOf_ne ?_
    rw [leadOf, if_pos (h c hc)]
    decide
  refine .of_code ⟨fun hmem => ?_, ?_, ?_⟩
  · have hquote : Text.isWord '\'' = false := rfl
    rw [h _ hmem] at hquote
    cases hquote
  · exact (List.pairwise_of_forall_mem_list fun c hc _ _ => .inl (hsign c hc)).isChain
  · refine (Option.all_eq_true _ _).mpr fun c hc => ?_
    rw [hsign c (List.mem_of_getLast? hc)]
    rfl

theorem quote (text : String) : Settled (Text.quote text) := by
  have hself : ∀ y, unquoted false ((Text.quote text).toList ++ y) =
      '\'' :: '\'' :: unquoted false y := by
    intro y
    rw [toList_quote, quoted, List.cons_append, List.append_assoc, unquoted, List.cons_append,
      List.nil_append, unquoted_escape]
  have hnil := hself []
  rw [List.append_nil, unquoted] at hnil
  refine ⟨fun y => by rw [hself, hnil]; rfl, ?_, ?_⟩
  · rw [SignsApart, hnil]
    decide
  · rw [hnil]
    intro c hc
    cases hc
    rfl

/-- A sign may stand before what does not start with one. -/
theorem sign {text : String} (h : Settled text) (op : UnaryOp)
    (hstarts : ∃ c x, text.toList = c :: x ∧ isSign c = false) : Settled (op.symbol ++ text) := by
  obtain ⟨c, x, htext, hsign⟩ := hstarts
  have hop : ∃ s, op.symbol.toList = [s] ∧ s ≠ '\'' := by cases op <;> exact ⟨_, rfl, by decide⟩
  obtain ⟨s, hs, hquote⟩ := hop
  have hself : ∀ y, unquoted false ((op.symbol ++ text).toList ++ y) =
      s :: (unquoted false text.toList ++ unquoted false y) := by
    intro y
    rw [String.toList_append, hs, List.append_assoc, List.singleton_append, unquoted_cons hquote,
      h.unquoted_append]
  have hnil := hself []
  rw [List.append_nil, unquoted, List.append_nil] at hnil
  have hhead : (unquoted false text.toList).head? = some c := by rw [htext, head?_unquoted]
  refine ⟨fun y => by rw [hself, hnil, List.cons_append], ?_, ?_⟩
  · rw [SignsApart, hnil, List.isChain_cons, hhead]
    refine ⟨fun d hd => ?_, h.apart⟩
    cases hd
    exact .inr hsign
  · have hne : unquoted false text.toList ≠ [] := by
      intro he
      rw [he] at hhead
      cases hhead
    rw [hnil, List.getLast?_cons_of_ne_nil hne]
    exact h.last

theorem symbol (op : BinaryOp) : Settled (" " ++ op.symbol ++ " ") := by
  cases op <;> exact .of_code (by decide)

theorem parens {text : String} (h : Settled text) : Settled (Printed.parens text) :=
  (append (.of_code (by decide)) h).append
    (.of_code (by decide))

theorem commas {texts : List String} (h : ∀ text ∈ texts, Settled text) :
    Settled (Printed.commas texts) := by
  induction texts with
  | nil => exact .of_code (by decide)
  | cons a texts ih =>
    rw [List.forall_mem_cons] at h
    cases texts with
    | nil =>
      rw [Printed.commas, String.intercalate_singleton]
      exact h.1
    | cons b texts =>
      rw [Printed.commas, String.intercalate_cons_cons]
      exact (h.1.append (.of_code (by decide))).append (ih h.2)

end Settled

/-! ## Expressions -/

theorem Tree.IsOperation.signed_starts {t : Tree} (h : t.IsOperation) :
    ∃ c x, (signed t.print).toList = c :: x ∧ isSign c = false := by
  rw [signed_print]
  cases hparens : isSigned t.form || isCompound t.form with
  | true =>
    rw [toList_placed_true]
    exact ⟨_, _, rfl, rfl⟩
  | false =>
    rw [Bool.or_eq_false_iff] at hparens
    obtain ⟨lead, hprimary⟩ := h.primary hparens.2
    obtain ⟨c, x, hsource, hlead⟩ := hprimary.starts
    refine ⟨c, x, hsource, isSign_of_leadOf_ne ?_⟩
    rw [hlead]
    exact hprimary.lead_ne_sign hparens.1

theorem Settled.placed {t : Tree} (h : Settled t.source) (inParens : Bool) :
    Settled (t.placed inParens) := by
  cases inParens with
  | false => exact h
  | true => exact h.parens

theorem Settled.mark {α : Type} (a : Arg α) : Settled a.mark := by
  rw [Arg.mark]
  split
  · exact .of_code (by decide)
  · split <;> exact .of_code (by decide)

theorem Primary.settled {form : Form Tree} {lead : Lead} (h : Primary form lead) {attrs : Attributes}
    (hoperation : Tree.IsOperation ⟨form, attrs⟩) (hchild : ∀ c ∈ form.children, Settled c.source) :
    Settled (Tree.source ⟨form, attrs⟩) := by
  rw [Tree.source_mk]
  cases h with
  | var hname => exact .append (.of_code (by decide)) (.word (isWord_of_isIdentifier hname))
  | str text => exact .quote text
  | word hvalue => exact .word (isWord_source_literal hvalue)
  | call hname args =>
    refine .append (.word (isWord_of_isValid hname)) (.parens (.commas ?_))
    rw [List.map_map, List.forall_mem_map]
    intro a ha
    exact (Settled.mark a).append (hchild _ (List.mem_append_right _ (List.mem_map_of_mem ha)))
  | array items =>
    refine .append (.append (.of_code (by decide)) (.commas ?_)) (.of_code (by decide))
    rw [List.map_map, List.forall_mem_map]
    exact hchild
  | unary op e =>
    refine .sign ?_ op (hoperation.child (c := e) List.mem_cons_self).signed_starts
    rw [signed_print]
    exact .placed (hchild e List.mem_cons_self) _

theorem Tree.IsOperation.settled {t : Tree} (h : t.IsOperation) : Settled t.source := by
  induction t using Tree.inductionOn with
  | mk form attrs ih =>
    have hchild : ∀ c ∈ form.children, Settled c.source := fun c hc => ih c hc (h.child hc)
    obtain ⟨first, rest, hsplits, -⟩ := h.exists_splits
    cases hsplits with
    | primary hprimary => exact hprimary.settled h hchild
    | binary op _ right =>
      have hright := hchild right (List.mem_cons_of_mem _ List.mem_cons_self)
      have hsource : Tree.source ⟨.binary op first right, attrs⟩ =
          operand first.print ++ (" " ++ op.symbol ++ " ") ++ operand right.print := by
        rw [Tree.source_mk]
        simp [Form.map, Form.render, String.append_assoc]
      rw [hsource, operand_print, operand_print]
      exact (((hchild first List.mem_cons_self).placed _).append (.symbol op)).append (hright.placed _)
    | assign _ value =>
      rw [Tree.source_mk]
      exact ((hchild first List.mem_cons_self).append (.of_code (by decide))).append
        (hchild value (List.mem_cons_of_mem _ List.mem_cons_self))

end Graft
