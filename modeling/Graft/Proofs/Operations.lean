import Graft.Proofs.Erasure
import Graft.Proofs.Joints

/-! # Operator expressions

The expressions made of variables, literals without a sign, arrays, operators, assignments to a
variable and calls of a function by name. The first character of a form that takes no parentheses as an
operand tells what it is (`Primary.starts`). Any other form is an operand and a text after it, which
starts with a blank (`Tree.Splits`).
-/

set_option autoImplicit false

namespace Graft
open Printed Text

/-! ## The expressions -/

/-- The literals that are written as a word. -/
def Literal.isWord : Literal → Bool
  | .int value => decide (0 ≤ value.toInt)
  | .bool _ | .null => true
  | .float _ | .str _ => false

/-- An argument is not marked twice. -/
def Arg.isMarkedOnce {α : Type} (a : Arg α) : Bool := !(a.byRef && a.unpack)

def Form.isOperation : Form Tree → Bool
  | .literal (.str _) => true
  | .literal value => value.isWord
  | .var name => Name.isIdentifier name.toList
  | .array _ | .binary _ _ _ | .unary _ _ => true
  | .assign target _ => target.kind = .var
  | .call (.named name) args => name.isValid && args.all Arg.isMarkedOnce
  | _ => false

/-- Every form in the tree is one of an operator expression. -/
def Tree.IsOperation (t : Tree) : Prop := ∀ u, t.Contains u → u.form.isOperation = true

theorem Tree.isOperation_mk (form : Form Tree) (attrs : Attributes) :
    IsOperation ⟨form, attrs⟩ ↔ form.isOperation = true ∧ ∀ c ∈ form.children, c.IsOperation := by
  constructor
  · intro h
    exact ⟨h _ (.here _), fun c hc u hu => h u (.inChild hc hu)⟩
  · rintro ⟨hself, hchild⟩ u hu
    cases hu with
    | here => exact hself
    | inChild hc hu => exact hchild _ hc u hu

/-! ## First characters -/

/-- What the first character of a text tells. -/
inductive Lead where
  | sigil | quote | bracket | paren | sign | word
  /-- No expression starts with it. -/
  | none
deriving DecidableEq

def leadOf (c : Char) : Lead :=
  if Text.isWord c then .word
  else if c = '$' then .sigil
  else if c = '\'' then .quote
  else if c = '[' then .bracket
  else if c = '(' then .paren
  else if c = '!' || c = '-' || c = '+' then .sign
  else .none

/-- The forms that take no parentheses as an operand, with the lead of their text. -/
inductive Primary : Form Tree → Lead → Prop
  | var {name : String} (h : Name.isIdentifier name.toList = true) : Primary (.var name) .sigil
  | str (text : String) : Primary (.literal (.str text)) .quote
  | word {value : Literal} (h : value.isWord = true) : Primary (.literal value) .word
  | call {name : Name} (h : name.isValid = true) (args : List (Arg Tree)) :
    Primary (.call (.named name) args) .word
  | array (items : Forest) : Primary (.array items) .bracket
  | unary (op : UnaryOp) (operand : Tree) : Primary (.unary op operand) .sign

theorem Form.exists_primary {form : Form Tree} (h : form.isOperation = true)
    (hcompound : isCompound form = false) : ∃ lead, Primary form lead := by
  cases form
  case literal value =>
    cases value
    case str text => exact ⟨_, .str text⟩
    all_goals exact ⟨_, .word h⟩
  case var name => exact ⟨_, .var h⟩
  case array items => exact ⟨_, .array items⟩
  case unary op operand => exact ⟨_, .unary op operand⟩
  case call callee args =>
    cases callee with
    | named name =>
      rw [Form.isOperation, Bool.and_eq_true] at h
      exact ⟨_, .call h.1 args⟩
    | computed callee => contradiction
  all_goals contradiction

/-! ## Words -/

theorem isWord_of_isDigit {c : Char} (h : c.isDigit = true) : Text.isWord c = true := by
  have hascii : c.toNat < 128 := by
    have hrange : 48 ≤ c.toNat ∧ c.toNat ≤ 57 := by
      simpa [Char.isDigit, UInt32.le_iff_toNat_le] using h
    omega
  have hnumeric : isNumeric c = true := by rw [isNumeric, if_pos hascii, h]
  simp [Text.isWord, Name.continuesIdentifier, hnumeric]

theorem toList_source_int {value : Int64} (h : 0 ≤ value.toInt) :
    (Literal.source (.int value)).toList = Nat.toDigits 10 value.toInt.toNat := by
  rw [Literal.source, Int.toString_eq_repr, Int.repr_eq_if, if_pos h, Nat.toList_repr]

theorem isDigit_source_int {value : Int64} (h : 0 ≤ value.toInt) :
    ∀ c ∈ (Literal.source (.int value)).toList, c.isDigit = true := by
  intro c hc
  rw [toList_source_int h] at hc
  exact Nat.isDigit_of_mem_toDigits (by decide) (by decide) hc

theorem isWord_source_literal {value : Literal} (h : value.isWord = true) :
    ∀ c ∈ value.source.toList, Text.isWord c = true := by
  cases value with
  | int value => exact fun c hc => isWord_of_isDigit (isDigit_source_int (of_decide_eq_true h) c hc)
  | bool value => cases value <;> exact List.all_eq_true.mp rfl
  | null => exact List.all_eq_true.mp rfl
  | float value => contradiction
  | str text => contradiction

theorem source_literal_ne_nil {value : Literal} (h : value.isWord = true) :
    value.source.toList ≠ [] := by
  cases value with
  | int value =>
    rw [toList_source_int (of_decide_eq_true h)]
    exact Nat.toDigits_ne_nil
  | bool value => cases value <;> decide
  | null => decide
  | float value => contradiction
  | str text => contradiction

theorem source_int_inj {v w : Int64} (hv : 0 ≤ v.toInt) (hw : 0 ≤ w.toInt)
    (h : (Literal.source (.int v)).toList = (Literal.source (.int w)).toList) : v = w := by
  rw [toList_source_int hv, toList_source_int hw] at h
  have hnat : v.toInt.toNat = w.toInt.toNat := by
    rw [← Nat.ofDigitChars_toDigits (b := 10) (n := v.toInt.toNat) (by decide) (by decide), h,
      Nat.ofDigitChars_toDigits (by decide) (by decide)]
  exact Int64.toInt_inj.mp (by omega)

theorem source_int_ne {value : Int64} (h : 0 ≤ value.toInt) {w : List Char} {c : Char} (hc : c ∈ w)
    (hdigit : c.isDigit = false) : (Literal.source (.int value)).toList ≠ w := by
  rintro rfl
  exact Bool.false_ne_true (hdigit.symm.trans (isDigit_source_int h c hc))

theorem source_literal_inj {v w : Literal} (hv : v.isWord = true) (hw : w.isWord = true)
    (h : v.source.toList = w.source.toList) : v = w := by
  cases v <;> cases w
  case int.int v w => rw [source_int_inj (of_decide_eq_true hv) (of_decide_eq_true hw) h]
  case bool.bool v w => revert h; cases v <;> cases w <;> decide
  case null.null => rfl
  case int.bool v w =>
    cases w <;> exact absurd h (source_int_ne (of_decide_eq_true hv) List.mem_cons_self rfl)
  case int.null => exact absurd h (source_int_ne (of_decide_eq_true hv) List.mem_cons_self rfl)
  case bool.int v w =>
    cases v <;> exact absurd h.symm (source_int_ne (of_decide_eq_true hw) List.mem_cons_self rfl)
  case null.int => exact absurd h.symm (source_int_ne (of_decide_eq_true hw) List.mem_cons_self rfl)
  case bool.null v => revert h; cases v <;> decide
  case null.bool w => revert h; cases w <;> decide
  all_goals contradiction

/-! ## Names -/

theorem backslash_not_mem {x : List Char} (h : Name.isIdentifier x = true) : '\\' ∉ x := by
  intro hmem
  have hcontinues : ∀ c ∈ x, Name.continuesIdentifier c = true := by
    cases x with
    | nil => simp
    | cons c x =>
      rw [Name.isIdentifier, Bool.and_eq_true, List.all_eq_true] at h
      have hstart := h.1
      simp only [Name.startsIdentifier, Bool.or_eq_true] at hstart
      refine List.forall_mem_cons.mpr ⟨?_, h.2⟩
      simp only [Name.continuesIdentifier, Bool.or_eq_true]
      tauto
  have hslash : Name.continuesIdentifier '\\' = false := rfl
  rw [hcontinues _ hmem] at hslash
  contradiction

/-- The texts between the backslashes of a name; a fully qualified name starts with an empty one. -/
def Name.pieces (n : Name) : List (List Char) :=
  (if n.qualified then [[]] else []) ++ n.parts.map String.toList

theorem splitOn_source {n : Name} (h : n.isValid = true) :
    n.source.toList.splitOn '\\' = n.pieces := by
  simp only [Name.isValid, Bool.and_eq_true, Bool.not_eq_true', List.isEmpty_eq_false_iff,
    List.all_eq_true] at h
  have hsource : n.source.toList = ['\\'].intercalate n.pieces := by
    rw [Name.source, Name.pieces, Name.text]
    obtain ⟨part, parts, hparts⟩ := List.exists_cons_of_ne_nil h.1
    cases n.qualified <;> simp [hparts, String.toList_intercalate]
  have hne : n.pieces ≠ [] := by simp [Name.pieces, h.1]
  rw [hsource, List.splitOn_intercalate _ (fun piece hpiece => ?_) hne]
  rcases List.mem_append.mp hpiece with hpiece | hpiece
  · split at hpiece <;> simp_all
  · obtain ⟨part, hpart, rfl⟩ := List.mem_map.mp hpiece
    exact backslash_not_mem (h.2 part hpart)

/-- Only a fully qualified name has an empty piece. -/
theorem nil_mem_pieces_iff {n : Name} (h : n.isValid = true) : [] ∈ n.pieces ↔ n.qualified = true := by
  have hparts : [] ∉ n.parts.map String.toList := by
    intro hmem
    obtain ⟨part, hpart, hnil⟩ := List.mem_map.mp hmem
    rw [Name.isValid, Bool.and_eq_true, List.all_eq_true] at h
    have hvalid := h.2 part hpart
    rw [hnil] at hvalid
    contradiction
  rw [Name.pieces, List.mem_append, or_iff_left hparts]
  cases n.qualified <;> simp

theorem source_name_inj {m n : Name} (hm : m.isValid = true) (hn : n.isValid = true)
    (h : m.source.toList = n.source.toList) : m = n := by
  have hpieces : m.pieces = n.pieces := by rw [← splitOn_source hm, h, splitOn_source hn]
  have hqualified : m.qualified = n.qualified := by
    rw [Bool.eq_iff_iff, ← nil_mem_pieces_iff hm, ← nil_mem_pieces_iff hn, hpieces]
  rw [Name.pieces, Name.pieces, hqualified] at hpieces
  have hparts : m.parts = n.parts :=
    List.map_injective_iff.mpr (fun _ _ => String.toList_inj.mp) (List.append_cancel_left hpieces)
  cases m
  cases n
  cases hqualified
  cases hparts
  rfl

theorem source_name_ne_nil {n : Name} (h : n.isValid = true) : n.source.toList ≠ [] := by
  intro hnil
  have hpieces := splitOn_source h
  rw [hnil] at hpieces
  have hqualified := (nil_mem_pieces_iff h).mp (hpieces ▸ List.mem_cons_self)
  rw [Name.source, if_pos hqualified] at hnil
  simp at hnil

/-! ## Sources -/

/-- The source of a tree, in parentheses or not. -/
def Tree.placed (inParens : Bool) (t : Tree) : String := if inParens then parens t.source else t.source

theorem operand_print (t : Tree) : operand t.print = t.placed (isCompound t.form) := rfl

theorem signed_print (t : Tree) : signed t.print = t.placed (isSigned t.form || isCompound t.form) := by
  rw [signed, operand_print, Tree.placed, Tree.placed]
  cases h : isSigned t.form <;> simp [Tree.print, h]

theorem toList_placed_true (t : Tree) :
    (t.placed true).toList = '(' :: (t.source.toList ++ [')']) := by
  simp [Tree.placed, parens]

section
variable (attrs : Attributes)

theorem source_binary (op : BinaryOp) (left right : Tree) :
    (Tree.source ⟨.binary op left right, attrs⟩).toList = (operand left.print).toList ++
      ' ' :: (op.symbol.toList ++ ' ' :: (operand right.print).toList) := by
  rw [Tree.source_mk]
  simp [Form.map, Form.render]

theorem source_assign (target value : Tree) :
    (Tree.source ⟨.assign target value, attrs⟩).toList =
      target.source.toList ++ ' ' :: '=' :: ' ' :: value.source.toList := by
  rw [Tree.source_mk]
  simp [Form.map, Form.render, Tree.print]

theorem source_unary (op : UnaryOp) (e : Tree) :
    (Tree.source ⟨.unary op e, attrs⟩).toList = op.symbol.toList ++ (signed e.print).toList := by
  rw [Tree.source_mk]
  simp [Form.map, Form.render]

theorem source_var (name : String) :
    (Tree.source ⟨.var name, attrs⟩).toList = '$' :: name.toList := by
  rw [Tree.source_mk]
  simp [Form.map, Form.render]

theorem source_array (items : Forest) :
    (Tree.source ⟨.array items, attrs⟩).toList =
      '[' :: ((commas (items.map Tree.source)).toList ++ [']']) := by
  rw [Tree.source_mk]
  simp [Form.map, Form.render, list, Tree.print, Function.comp_def]

theorem source_call (name : Name) (args : List (Arg Tree)) :
    (Tree.source ⟨.call (.named name) args, attrs⟩).toList =
      name.source.toList ++ '(' :: ((commas (args.map Arg.source)).toList ++ [')']) := by
  have harg : Arg.render ∘ Arg.map Tree.print = Arg.source := rfl
  rw [Tree.source_mk]
  simp [Form.map, Form.render, Reference.map, Reference.render, argList, parens, harg]

theorem source_literal (value : Literal) :
    (Tree.source ⟨.literal value, attrs⟩).toList = value.source.toList := by
  rw [Tree.source_mk]
  rfl

end

theorem starts_word {w : List Char} (hne : w ≠ []) (hw : ∀ c ∈ w, Text.isWord c = true)
    (x : List Char) : ∃ c y, w ++ x = c :: y ∧ leadOf c = .word := by
  obtain ⟨c, w, rfl⟩ := List.exists_cons_of_ne_nil hne
  exact ⟨c, w ++ x, rfl, if_pos (hw c List.mem_cons_self)⟩

theorem Primary.starts {t : Tree} {lead : Lead} (h : Primary t.form lead) :
    ∃ c x, t.source.toList = c :: x ∧ leadOf c = lead := by
  obtain ⟨form, attrs⟩ := t
  cases h with
  | var h => exact ⟨_, _, source_var attrs _, rfl⟩
  | str text =>
    rw [source_literal, Literal.source, toList_quote]
    exact ⟨_, _, rfl, rfl⟩
  | word h =>
    rw [source_literal, ← List.append_nil (Literal.source _).toList]
    exact starts_word (source_literal_ne_nil h) (isWord_source_literal h) []
  | call h args =>
    rw [source_call]
    exact starts_word (source_name_ne_nil h) (isWord_of_isValid h) _
  | array items => exact ⟨_, _, source_array attrs items, rfl⟩
  | unary op operand =>
    rw [source_unary]
    cases op <;> exact ⟨_, _, rfl, rfl⟩

/-- An operation with the operand that its text starts with and the text after it. -/
inductive Tree.Splits : Tree → Tree → List Char → Prop
  | primary {t : Tree} {lead : Lead} (h : Primary t.form lead) : Splits t t []
  | binary (op : BinaryOp) (left right : Tree) (attrs : Attributes) :
    Splits ⟨.binary op left right, attrs⟩ left
      (' ' :: (op.symbol.toList ++ ' ' :: (operand right.print).toList))
  | assign {target : Tree} {lead : Lead} (h : Primary target.form lead) (value : Tree)
    (attrs : Attributes) :
    Splits ⟨.assign target value, attrs⟩ target (' ' :: '=' :: ' ' :: value.source.toList)

theorem Primary.lead_ne {form : Form Tree} {lead : Lead} (h : Primary form lead) :
    lead ≠ .none ∧ lead ≠ .paren := by
  cases h <;> decide

theorem Primary.lead_ne_sign {form : Form Tree} {lead : Lead} (h : Primary form lead)
    (hsigned : isSigned form = false) : lead ≠ .sign := by
  cases h
  case unary => contradiction
  all_goals decide

theorem Primary.not_isCompound {form : Form Tree} {lead : Lead} (h : Primary form lead) :
    isCompound form = false := by
  cases h <;> rfl

theorem Primary.operand_eq {t : Tree} {lead : Lead} (h : Primary t.form lead) :
    operand t.print = t.source := by
  rw [operand_print, h.not_isCompound]
  rfl

theorem Tree.Splits.source_eq {t first : Tree} {rest : List Char} (h : t.Splits first rest) :
    t.source.toList = (operand first.print).toList ++ rest := by
  cases h with
  | primary h => rw [h.operand_eq, List.append_nil]
  | binary op _ right attrs => exact source_binary attrs op first right
  | assign h value attrs => rw [h.operand_eq, source_assign]

namespace Tree.IsOperation
variable {t : Tree} (h : t.IsOperation)
include h

theorem child {c : Tree} (hc : c ∈ t.form.children) : c.IsOperation := fun u hu => h u (.inChild hc hu)

theorem primary (hcompound : isCompound t.form = false) : ∃ lead, Primary t.form lead :=
  Form.exists_primary (h t (.here t)) hcompound

theorem exists_splits : ∃ first rest, t.Splits first rest ∧ first.IsOperation := by
  cases hcompound : isCompound t.form with
  | false =>
    obtain ⟨lead, hprimary⟩ := h.primary hcompound
    exact ⟨_, _, .primary hprimary, h⟩
  | true =>
    obtain ⟨form, attrs⟩ := t
    have hself := h _ (.here _)
    cases form
    case binary op left right => exact ⟨_, _, .binary op left right attrs, h.child List.mem_cons_self⟩
    case assign target value =>
      have htarget := h.child (c := target) List.mem_cons_self
      have hvar : target.kind = .var := of_decide_eq_true hself
      obtain ⟨name, _, rfl⟩ := Tree.eq_var_of_kind hvar
      exact ⟨_, _, .assign (.var (htarget _ (.here _))) value attrs, htarget⟩
    all_goals contradiction

theorem operand_starts : ∃ c x, (operand t.print).toList = c :: x ∧ leadOf c ≠ .none := by
  cases hcompound : isCompound t.form with
  | false =>
    obtain ⟨lead, hprimary⟩ := h.primary hcompound
    obtain ⟨c, x, hsource, hlead⟩ := hprimary.starts
    exact ⟨c, x, hprimary.operand_eq ▸ hsource, hlead ▸ hprimary.lead_ne.1⟩
  | true =>
    rw [operand_print, hcompound, toList_placed_true]
    exact ⟨_, _, rfl, by decide⟩

theorem starts : ∃ c x, t.source.toList = c :: x ∧ leadOf c ≠ .none := by
  obtain ⟨first, rest, hsplits, hfirst⟩ := h.exists_splits
  obtain ⟨c, x, hoperand, hlead⟩ := hfirst.operand_starts
  exact ⟨c, x ++ rest, by rw [hsplits.source_eq, hoperand, List.cons_append], hlead⟩

end Tree.IsOperation

end Graft
