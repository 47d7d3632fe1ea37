import Graft.Proofs.Signs
import Graft.Tree.Make

/-! # Unique reading

Two operator expressions with one source are the same up to attributes. The source of a primary form is
told from any other up to the blank, comma or bracket that follows it, that of a whole expression up to
the comma or bracket (`Tree.Legible`). So an operand is told from any other, in parentheses or not
(`Tree.placed_inj`), and a list from any other by its items (`Determines.commas`).
-/

set_option autoImplicit false

namespace Graft
open Printed Text

/-! ## Stops -/

/-- The characters that end an expression. -/
def endsExpression (c : Char) : Bool := c = ',' || c = ')' || c = ']'

/-- The characters that end an operand. -/
def endsOperand (c : Char) : Bool := c = ' ' || endsExpression c

/-- A text is empty or starts with a stop. -/
def Stopped (stop : Char → Bool) (x : List Char) : Prop := ∀ c ∈ x.head?, stop c = true

theorem Stopped.cons {stop : Char → Bool} {c : Char} (h : stop c = true) (x : List Char) :
    Stopped stop (c :: x) := by
  intro d hd
  cases hd
  exact h

theorem Stopped.operand {x : List Char} (h : Stopped endsExpression x) : Stopped endsOperand x := by
  intro c hc
  rw [endsOperand, h c hc, Bool.or_true]

/-- Characters of a class before something else are told from the rest. -/
theorem append_inj_of_class {p : Char → Bool} {a b x y : List Char} (ha : ∀ c ∈ a, p c = true)
    (hb : ∀ c ∈ b, p c = true) (hx : ∀ c ∈ x.head?, p c = false) (hy : ∀ c ∈ y.head?, p c = false)
    (h : a ++ x = b ++ y) : a = b ∧ x = y := by
  have hdrop : ∀ {z : List Char}, (∀ c ∈ z.head?, p c = false) → z.dropWhile p = z := by
    intro z hz
    cases z with
    | nil => rfl
    | cons c z => rw [List.dropWhile_cons, hz c rfl]; rfl
  have hrest : x = y := by
    rw [← hdrop hx, ← hdrop hy, ← List.dropWhile_append_of_pos ha, h, List.dropWhile_append_of_pos hb]
  subst hrest
  exact ⟨List.append_cancel_right h, rfl⟩

theorem Stopped.not_isWord {x : List Char} (h : Stopped endsOperand x) :
    ∀ c ∈ x.head?, Text.isWord c = false := by
  intro c hc
  have hstop := h c hc
  simp only [endsOperand, endsExpression, Bool.or_eq_true, decide_eq_true_eq] at hstop
  obtain rfl | (rfl | rfl) | rfl := hstop <;> rfl

/-! ## Literals -/

theorem escape_cases (c : Char) (x : List Char) :
    ((c = '\'' ∨ c = '\\') ∧ escape (c :: x) = '\\' :: c :: escape x) ∨
      (c ≠ '\'' ∧ c ≠ '\\' ∧ escape (c :: x) = c :: escape x) := by
  by_cases hquote : c = '\''
  · subst hquote
    exact .inl ⟨.inl rfl, rfl⟩
  · by_cases hslash : c = '\\'
    · subst hslash
      exact .inl ⟨.inr rfl, rfl⟩
    · exact .inr ⟨hquote, hslash, escape_cons x hquote hslash⟩

theorem escape_append_ne (c : Char) (a x y : List Char) : escape (c :: a) ++ x ≠ '\'' :: y := by
  obtain ⟨-, he⟩ | ⟨hquote, -, he⟩ := escape_cases c a
  · simp [he]
  · simp [he, hquote]

/-- A literal ends at the first quote that is not escaped. -/
theorem escape_inj {a b x y : List Char} (h : escape a ++ '\'' :: x = escape b ++ '\'' :: y) :
    a = b ∧ x = y := by
  induction a generalizing b with
  | nil =>
    cases b with
    | nil => exact ⟨rfl, (List.cons.inj h).2⟩
    | cons d b => exact absurd h.symm (escape_append_ne d b _ _)
  | cons c a ih =>
    cases b with
    | nil => exact absurd h (escape_append_ne c a _ _)
    | cons d b =>
      obtain ⟨hc, hca⟩ | ⟨_, hc, hca⟩ := escape_cases c a <;>
        obtain ⟨hd, hdb⟩ | ⟨_, hd, hdb⟩ := escape_cases d b <;>
        rw [hca, hdb] at h <;> grind

/-! ## Texts that determine what they are of -/

section
variable {α β : Type}

/-- Before a stop, the text of `a` is told from that of anything with another value. -/
def Determines (stop : Char → Bool) (P : α → Prop) (text : α → String) (value : α → β) (a : α) : Prop :=
  ∀ b, P b → ∀ x y, Stopped stop x → Stopped stop y → (text a).toList ++ x = (text b).toList ++ y →
    value a = value b ∧ x = y

/-- The items of a list after the first. -/
def further (texts : List String) : List Char := texts.flatMap fun text => ',' :: ' ' :: text.toList

theorem toList_commas_cons (a : String) (as : List String) :
    (commas (a :: as)).toList = a.toList ++ further as := by
  induction as generalizing a with
  | nil => simp [commas, further]
  | cons b as ih =>
    rw [commas, String.intercalate_cons_cons, ← commas, String.toList_append, ih]
    simp [further]

variable {P : α → Prop} {text : α → String} {value : α → β} {close : Char}

theorem stopped_further (hclose : endsExpression close = true) (texts : List String) (x : List Char) :
    Stopped endsExpression (further texts ++ close :: x) := by
  cases texts with
  | nil => exact .cons hclose x
  | cons a as => exact .cons rfl _

variable (hclose : endsExpression close = true) (hcomma : close ≠ ',')
include hclose hcomma

theorem Determines.further {as bs : List α} (has : ∀ a ∈ as, Determines endsExpression P text value a)
    (hbs : ∀ b ∈ bs, P b) {x y : List Char}
    (h : Graft.further (as.map text) ++ close :: x = Graft.further (bs.map text) ++ close :: y) :
    as.map value = bs.map value ∧ x = y := by
  induction as generalizing bs with
  | nil =>
    cases bs with
    | nil => exact ⟨rfl, (List.cons.inj h).2⟩
    | cons b bs => exact absurd (List.cons.inj h).1 hcomma
  | cons a as ih =>
    cases bs with
    | nil => exact absurd (List.cons.inj h).1.symm hcomma
    | cons b bs =>
      rw [List.forall_mem_cons] at has hbs
      simp only [Graft.further, List.map_cons, List.flatMap_cons, List.append_assoc, List.cons_append,
        List.cons.injEq, true_and] at h
      obtain ⟨hvalue, h⟩ := has.1 b hbs.1 _ _ (stopped_further hclose _ x)
        (stopped_further hclose _ y) h
      obtain ⟨hvalues, hxy⟩ := ih has.2 hbs.2 h
      exact ⟨by rw [List.map_cons, List.map_cons, hvalue, hvalues], hxy⟩

/-- A list is told from any other if its items are and none starts as a list ends. -/
theorem Determines.commas {as bs : List α}
    (has : ∀ a ∈ as, P a ∧ Determines endsExpression P text value a)
    (hbs : ∀ b ∈ bs, P b) (hstarts : ∀ a, P a → ∃ c x, (text a).toList = c :: x ∧ c ≠ close)
    {x y : List Char}
    (h : (Printed.commas (as.map text)).toList ++ close :: x =
      (Printed.commas (bs.map text)).toList ++ close :: y) :
    as.map value = bs.map value ∧ x = y := by
  have hne : ∀ a as x y, P a → (Printed.commas ((a :: as).map text)).toList ++ x ≠ close :: y := by
    intro a as x y ha heq
    obtain ⟨c, z, hc, hclose⟩ := hstarts a ha
    rw [List.map_cons, toList_commas_cons, hc] at heq
    exact hclose (List.cons.inj heq).1
  cases as with
  | nil =>
    cases bs with
    | nil => exact ⟨rfl, (List.cons.inj h).2⟩
    | cons b bs => exact absurd h.symm (hne b bs _ _ (hbs b List.mem_cons_self))
  | cons a as =>
    cases bs with
    | nil => exact absurd h (hne a as _ _ (has a List.mem_cons_self).1)
    | cons b bs =>
      -- with a comma and a blank before it, the first item is like the others
      rw [List.map_cons, List.map_cons, toList_commas_cons, toList_commas_cons] at h
      exact Determines.further hclose hcomma (fun c hc => (has c hc).2) hbs
        (congrArg (',' :: ' ' :: ·) h)

end

/-! ## Arguments -/

def isMark (c : Char) : Bool := c = '&' || c = '.'

theorem isMark_of_mem {α : Type} (a : Arg α) : ∀ c ∈ a.mark.toList, isMark c = true := by
  rw [Arg.mark]
  split
  · exact List.all_eq_true.mp rfl
  · split <;> exact List.all_eq_true.mp rfl

theorem flags_of_mark_eq {α : Type} {a b : Arg α} (ha : a.isMarkedOnce = true)
    (hb : b.isMarkedOnce = true) (h : a.mark.toList = b.mark.toList) : a.byRef = b.byRef ∧ a.unpack = b.unpack := by
  simp only [Arg.isMarkedOnce, Arg.mark] at ha hb h
  revert ha hb h
  cases a.byRef <;> cases a.unpack <;> cases b.byRef <;> cases b.unpack <;> decide

theorem toList_source_arg (a : Arg Tree) :
    a.source.toList = a.mark.toList ++ a.value.source.toList := by
  rw [Arg.source, Arg.render, String.toList_append]
  rfl

/-- An argument of an operation. -/
def Arg.IsOperation (a : Arg Tree) : Prop := a.isMarkedOnce = true ∧ a.value.IsOperation

theorem Arg.IsOperation.not_isMark {a : Arg Tree} (h : a.IsOperation) (x : List Char) :
    ∀ c ∈ (a.value.source.toList ++ x).head?, isMark c = false := by
  obtain ⟨c, y, hsource, hlead⟩ := h.2.starts
  rw [hsource]
  intro d hd
  cases hd
  rw [← Bool.not_eq_true]
  intro hmark
  simp only [isMark, Bool.or_eq_true, decide_eq_true_eq] at hmark
  obtain rfl | rfl := hmark <;> exact hlead rfl

theorem Arg.determines {a : Arg Tree} (ha : a.IsOperation)
    (h : Determines endsExpression Tree.IsOperation Tree.source Tree.erase a.value) :
    Determines endsExpression Arg.IsOperation Arg.source (Arg.map Tree.erase) a := by
  intro b hb x y hx hy heq
  rw [toList_source_arg, toList_source_arg, List.append_assoc, List.append_assoc] at heq
  obtain ⟨hmark, heq⟩ := append_inj_of_class (isMark_of_mem a) (isMark_of_mem b) (ha.not_isMark x)
    (hb.not_isMark y) heq
  obtain ⟨hbyRef, hunpack⟩ := flags_of_mark_eq ha.1 hb.1 hmark
  obtain ⟨hvalue, hxy⟩ := h b.value hb.2 x y hx hy heq
  exact ⟨by rw [Arg.map, Arg.map, hvalue, hbyRef, hunpack], hxy⟩

/-! ## Operands -/

/-- An operation that takes no parentheses as an operand. -/
def Tree.IsPrimary (t : Tree) : Prop := t.IsOperation ∧ isCompound t.form = false

theorem Tree.IsPrimary.starts {t : Tree} (h : t.IsPrimary) :
    ∃ c x, t.source.toList = c :: x ∧ leadOf c ≠ .paren := by
  obtain ⟨lead, hprimary⟩ := h.1.primary h.2
  obtain ⟨c, x, hsource, hlead⟩ := hprimary.starts
  exact ⟨c, x, hsource, hlead ▸ hprimary.lead_ne.2⟩

/-- The source of an operation is told from that of any other that it is not equal to up to attributes:
before a closing character, and before any stop if both are primary. -/
structure Tree.Legible (t : Tree) : Prop where
  whole : Determines endsExpression IsOperation source erase t
  primary : t.IsPrimary → Determines endsOperand IsPrimary source erase t

theorem Tree.IsPrimary.placed_ne {t : Tree} (ht : t.IsPrimary) (u : Tree) (x y : List Char) :
    (t.placed false).toList ++ x ≠ (u.placed true).toList ++ y := by
  intro h
  obtain ⟨c, z, hsource, hlead⟩ := ht.starts
  have hplaced : (t.placed false).toList = c :: z := hsource
  rw [hplaced, toList_placed_true] at h
  obtain ⟨rfl, -⟩ := List.cons.inj h
  exact hlead rfl

section
variable {t u : Tree} {x y : List Char}

/-- An operand is told from any other, whichever of them stand in parentheses. -/
theorem Tree.placed_inj {inParens inParens' : Bool}
    (hwhole : inParens = true → Determines endsExpression IsOperation source erase t)
    (hprimary : t.IsPrimary → Determines endsOperand IsPrimary source erase t) (ht : t.IsOperation)
    (hu : u.IsOperation) (hbare : inParens = false → isCompound t.form = false)
    (hbare' : inParens' = false → isCompound u.form = false) (hx : Stopped endsOperand x)
    (hy : Stopped endsOperand y)
    (heq : (t.placed inParens).toList ++ x = (u.placed inParens').toList ++ y) :
    t.erase = u.erase ∧ x = y := by
  cases inParens <;> cases inParens'
  case false.false => exact hprimary ⟨ht, hbare rfl⟩ u ⟨hu, hbare' rfl⟩ x y hx hy heq
  case true.true =>
    rw [toList_placed_true, toList_placed_true] at heq
    simp only [List.cons_append, List.append_assoc, List.nil_append, List.cons.injEq, true_and] at heq
    obtain ⟨herase, heq⟩ := hwhole rfl u hu _ _ (.cons rfl _) (.cons rfl _) heq
    exact ⟨herase, (List.cons.inj heq).2⟩
  case false.true => exact absurd heq (Tree.IsPrimary.placed_ne ⟨ht, hbare rfl⟩ u x y)
  case true.false => exact absurd heq.symm (Tree.IsPrimary.placed_ne ⟨hu, hbare' rfl⟩ t y x)

theorem Tree.Legible.operand (h : t.Legible) (ht : t.IsOperation) (hu : u.IsOperation)
    (hx : Stopped endsOperand x) (hy : Stopped endsOperand y)
    (heq : (Printed.operand t.print).toList ++ x = (Printed.operand u.print).toList ++ y) :
    t.erase = u.erase ∧ x = y :=
  placed_inj (fun _ => h.whole) h.primary ht hu id id hx hy heq

theorem Tree.Legible.signed (h : t.Legible) (ht : t.IsOperation) (hu : u.IsOperation)
    (hx : Stopped endsOperand x) (hy : Stopped endsOperand y)
    (heq : (Printed.signed t.print).toList ++ x = (Printed.signed u.print).toList ++ y) :
    t.erase = u.erase ∧ x = y := by
  rw [signed_print, signed_print] at heq
  exact placed_inj (fun _ => h.whole) h.primary ht hu (fun hp => (Bool.or_eq_false_iff.mp hp).2)
    (fun hp => (Bool.or_eq_false_iff.mp hp).2) hx hy heq

end

/-! ## Primary forms -/

theorem Tree.erase_congr {t u : Tree} (h : t.form.map erase = u.form.map erase) :
    t.erase = u.erase := by
  rw [erase_eq, erase_eq, h]

theorem Primary.lead_eq {t u : Tree} {lead lead' : Lead} (ht : Primary t.form lead)
    (hu : Primary u.form lead') {x y : List Char} (h : t.source.toList ++ x = u.source.toList ++ y) :
    lead = lead' := by
  obtain ⟨c, z, hc, hlead⟩ := ht.starts
  obtain ⟨d, w, hd, hlead'⟩ := hu.starts
  rw [hc, hd] at h
  rw [← hlead, ← hlead', (List.cons.inj h).1]

theorem Tree.IsOperation.starts_ne {t : Tree} (h : t.IsOperation) (close : Char)
    (hclose : leadOf close = .none) : ∃ c x, t.source.toList = c :: x ∧ c ≠ close := by
  obtain ⟨c, x, hsource, hlead⟩ := h.starts
  refine ⟨c, x, hsource, ?_⟩
  rintro rfl
  exact hlead hclose

theorem Arg.IsOperation.starts_ne {a : Arg Tree} (h : a.IsOperation) :
    ∃ c x, a.source.toList = c :: x ∧ c ≠ ')' := by
  obtain ⟨c, x, hsource, hne⟩ := h.2.starts_ne ')' rfl
  rw [toList_source_arg, Arg.mark, hsource]
  split
  · exact ⟨_, _, rfl, by decide⟩
  · split
    · exact ⟨_, _, rfl, by decide⟩
    · exact ⟨c, x, rfl, hne⟩

theorem Tree.IsOperation.arg {name : Name} {args : List (Arg Tree)} {attrs : Attributes}
    (h : Tree.IsOperation ⟨.call (.named name) args, attrs⟩) {a : Arg Tree} (ha : a ∈ args) :
    a.IsOperation := by
  have hself := h _ (.here _)
  rw [Form.isOperation, Bool.and_eq_true, List.all_eq_true] at hself
  exact ⟨hself.2 a ha, h.child (List.mem_append_right _ (List.mem_map_of_mem ha))⟩

theorem not_isWord_paren (z : List Char) : ∀ c ∈ ('(' :: z).head?, Text.isWord c = false := by
  intro c hc
  cases hc
  rfl

section
variable {x y : List Char} {attrs attrs' : Attributes}

theorem source_array_inj {items items' : Forest} (hlegible : ∀ c ∈ items, c.Legible)
    (h : Tree.IsOperation ⟨.array items, attrs⟩) (h' : Tree.IsOperation ⟨.array items', attrs'⟩)
    (heq : (Tree.source ⟨.array items, attrs⟩).toList ++ x =
      (Tree.source ⟨.array items', attrs'⟩).toList ++ y) :
    items.map Tree.erase = items'.map Tree.erase ∧ x = y := by
  rw [source_array, source_array] at heq
  simp only [List.cons_append, List.append_assoc, List.nil_append, List.cons.injEq, true_and] at heq
  exact Determines.commas rfl (by decide) (fun c hc => ⟨h.child hc, (hlegible c hc).whole⟩)
    (fun c hc => h'.child hc) (fun c hc => hc.starts_ne ']' rfl) heq

theorem source_call_inj {name name' : Name} {args args' : List (Arg Tree)}
    (hlegible : ∀ a ∈ args, a.value.Legible) (hname : name.isValid = true)
    (hname' : name'.isValid = true) (h : Tree.IsOperation ⟨.call (.named name) args, attrs⟩)
    (h' : Tree.IsOperation ⟨.call (.named name') args', attrs'⟩)
    (heq : (Tree.source ⟨.call (.named name) args, attrs⟩).toList ++ x =
      (Tree.source ⟨.call (.named name') args', attrs'⟩).toList ++ y) :
    name = name' ∧ args.map (Arg.map Tree.erase) = args'.map (Arg.map Tree.erase) ∧ x = y := by
  rw [source_call, source_call] at heq
  simp only [List.append_assoc, List.cons_append, List.nil_append] at heq
  obtain ⟨hnames, hargs⟩ := append_inj_of_class (isWord_of_isValid hname) (isWord_of_isValid hname')
    (not_isWord_paren _) (not_isWord_paren _) heq
  refine ⟨source_name_inj hname hname' hnames, ?_⟩
  exact Determines.commas rfl (by decide)
    (fun a ha => ⟨h.arg ha, Arg.determines (h.arg ha) (hlegible a ha).whole⟩)
    (fun a ha => h'.arg ha) (fun a ha => ha.starts_ne) (List.cons.inj hargs).2

theorem source_unary_inj {op op' : UnaryOp} {e e' : Tree} (hlegible : e.Legible) (h : e.IsOperation)
    (h' : e'.IsOperation) (hx : Stopped endsOperand x) (hy : Stopped endsOperand y)
    (heq : (Tree.source ⟨.unary op e, attrs⟩).toList ++ x =
      (Tree.source ⟨.unary op' e', attrs'⟩).toList ++ y) : op = op' ∧ e.erase = e'.erase ∧ x = y := by
  rw [source_unary, source_unary, List.append_assoc, List.append_assoc] at heq
  have hop : op = op' ∧ (signed e.print).toList ++ x = (signed e'.print).toList ++ y := by
    cases op <;> cases op' <;> simp_all [UnaryOp.symbol]
  exact ⟨hop.1, hlegible.signed h h' hx hy hop.2⟩

theorem source_var_inj {name name' : String} (h : Name.isIdentifier name.toList = true)
    (h' : Name.isIdentifier name'.toList = true) (hx : Stopped endsOperand x)
    (hy : Stopped endsOperand y) (heq : (Tree.source ⟨.var name, attrs⟩).toList ++ x =
      (Tree.source ⟨.var name', attrs'⟩).toList ++ y) : name = name' ∧ x = y := by
  rw [source_var, source_var] at heq
  obtain ⟨hnames, hxy⟩ := append_inj_of_class (isWord_of_isIdentifier h) (isWord_of_isIdentifier h')
    hx.not_isWord hy.not_isWord (List.cons.inj heq).2
  exact ⟨String.toList_inj.mp hnames, hxy⟩

theorem source_str_inj {text text' : String}
    (heq : (Tree.source ⟨.literal (.str text), attrs⟩).toList ++ x =
      (Tree.source ⟨.literal (.str text'), attrs'⟩).toList ++ y) : text = text' ∧ x = y := by
  rw [source_literal, source_literal, Literal.source, Literal.source, toList_quote, toList_quote,
    quoted, quoted] at heq
  simp only [List.cons_append, List.append_assoc, List.nil_append, List.cons.injEq, true_and] at heq
  obtain ⟨htexts, hxy⟩ := escape_inj heq
  exact ⟨String.toList_inj.mp htexts, hxy⟩

theorem source_word_inj {v w : Literal} (hv : v.isWord = true) (hw : w.isWord = true)
    (hx : Stopped endsOperand x) (hy : Stopped endsOperand y)
    (heq : (Tree.source ⟨.literal v, attrs⟩).toList ++ x =
      (Tree.source ⟨.literal w, attrs'⟩).toList ++ y) : v = w ∧ x = y := by
  rw [source_literal, source_literal] at heq
  obtain ⟨hvalues, hxy⟩ := append_inj_of_class (isWord_source_literal hv) (isWord_source_literal hw)
    hx.not_isWord hy.not_isWord heq
  exact ⟨source_literal_inj hv hw hvalues, hxy⟩

/-- A literal that reads as a name is no call, because no parenthesis follows it. -/
theorem source_word_ne_call {value : Literal} {name : Name} {args : List (Arg Tree)}
    (hvalue : value.isWord = true) (hname : name.isValid = true) (hx : Stopped endsOperand x) :
    (Tree.source ⟨.literal value, attrs⟩).toList ++ x ≠
      (Tree.source ⟨.call (.named name) args, attrs'⟩).toList ++ y := by
  intro heq
  rw [source_literal, source_call, List.append_assoc] at heq
  obtain ⟨-, rfl⟩ := append_inj_of_class (isWord_source_literal hvalue) (isWord_of_isValid hname)
    hx.not_isWord (not_isWord_paren _) heq
  cases hx '(' rfl

end

theorem Tree.determines_primary {t : Tree} (hchildren : ∀ c ∈ t.form.children, c.Legible)
    (ht : t.IsPrimary) : Determines endsOperand IsPrimary source erase t := by
  intro u hu x y hx hy heq
  obtain ⟨lead, hprimary⟩ := ht.1.primary ht.2
  obtain ⟨lead', hprimary'⟩ := hu.1.primary hu.2
  -- the first characters agree, so only forms of one lead are left
  obtain rfl := hprimary.lead_eq hprimary' heq
  obtain ⟨form, attrs⟩ := t
  obtain ⟨form', attrs'⟩ := u
  cases hprimary with
  | var h =>
    cases hprimary' with
    | var h' =>
      obtain ⟨rfl, hxy⟩ := source_var_inj h h' hx hy heq
      exact ⟨erase_congr rfl, hxy⟩
  | str text =>
    cases hprimary' with
    | str text' =>
      obtain ⟨rfl, hxy⟩ := source_str_inj heq
      exact ⟨erase_congr rfl, hxy⟩
  | word h =>
    cases hprimary' with
    | word h' =>
      obtain ⟨rfl, hxy⟩ := source_word_inj h h' hx hy heq
      exact ⟨erase_congr rfl, hxy⟩
    | call h' args' => exact absurd heq (source_word_ne_call h h' hx)
  | @call name h args =>
    cases hprimary' with
    | word h' => exact absurd heq.symm (source_word_ne_call h' h hy)
    | call h' args' =>
      have hlegible : ∀ a ∈ args, a.value.Legible := fun a ha =>
        hchildren _ (List.mem_append_right _ (List.mem_map_of_mem ha))
      obtain ⟨rfl, hargs, hxy⟩ := source_call_inj hlegible h h' ht.1 hu.1 heq
      exact ⟨erase_congr (congrArg (Form.call (.named name)) hargs), hxy⟩
  | array items =>
    cases hprimary' with
    | array items' =>
      obtain ⟨hitems, hxy⟩ := source_array_inj hchildren ht.1 hu.1 heq
      exact ⟨erase_congr (congrArg Form.array hitems), hxy⟩
  | unary op e =>
    cases hprimary' with
    | unary op' e' =>
      obtain ⟨rfl, he, hxy⟩ := source_unary_inj (hchildren e List.mem_cons_self)
        (ht.1.child List.mem_cons_self) (hu.1.child List.mem_cons_self) hx hy heq
      exact ⟨erase_congr (congrArg (Form.unary op) he), hxy⟩

/-! ## Whole expressions -/

theorem Tree.Splits.stopped {t first : Tree} {rest : List Char} (h : t.Splits first rest)
    {x : List Char} (hx : Stopped endsExpression x) : Stopped endsOperand (rest ++ x) := by
  cases h with
  | primary h => exact hx.operand
  | binary op _ right attrs => exact .cons rfl _
  | assign h value attrs => exact .cons rfl _

theorem not_stopped_blank (x : List Char) : ¬Stopped endsExpression (' ' :: x) := by
  intro h
  cases h ' ' rfl

theorem symbol_inj {op op' : BinaryOp} {x y : List Char}
    (h : op.symbol.toList ++ ' ' :: x = op'.symbol.toList ++ ' ' :: y) : op = op' ∧ x = y := by
  have hclass : ∀ op : BinaryOp, ∀ c ∈ op.symbol.toList, (c != ' ') = true := by
    intro op
    cases op <;> exact List.all_eq_true.mp rfl
  have hblank : ∀ z : List Char, ∀ c ∈ (' ' :: z).head?, (c != ' ') = false := by
    intro z c hc
    cases hc
    rfl
  obtain ⟨hsymbol, hxy⟩ := append_inj_of_class (hclass op) (hclass op') (hblank x) (hblank y) h
  refine ⟨?_, (List.cons.inj hxy).2⟩
  revert hsymbol
  cases op <;> cases op' <;> decide

theorem symbol_ne (op : BinaryOp) (x y : List Char) :
    op.symbol.toList ++ ' ' :: x ≠ '=' :: ' ' :: y := by
  cases op <;> simp [BinaryOp.symbol]

section
variable {t : Tree} (ht : t.IsOperation) (hchildren : ∀ c ∈ t.form.children, c.Legible)
  (hprimary : t.IsPrimary → Determines endsOperand Tree.IsPrimary Tree.source Tree.erase t)
include ht hchildren hprimary

theorem Tree.Splits.first_inj {u first first' : Tree} {rest rest' x y : List Char}
    (hsplits : t.Splits first rest) (hsplits' : u.Splits first' rest') (hfirst : first.IsOperation)
    (hfirst' : first'.IsOperation) (hx : Stopped endsExpression x) (hy : Stopped endsExpression y)
    (heq : t.source.toList ++ x = u.source.toList ++ y) :
    first.erase = first'.erase ∧ rest ++ x = rest' ++ y := by
  rw [hsplits.source_eq, hsplits'.source_eq, List.append_assoc, List.append_assoc] at heq
  have hrest := hsplits.stopped hx
  have hrest' := hsplits'.stopped hy
  cases hsplits with
  | primary h =>
    have hbare := h.not_isCompound
    refine placed_inj (fun hparens => ?_) hprimary ht hfirst' id id hrest hrest' heq
    rw [hbare] at hparens
    cases hparens
  | binary | assign =>
    exact (hchildren first List.mem_cons_self).operand hfirst hfirst' hrest hrest' heq

theorem Tree.determines_whole : Determines endsExpression IsOperation source erase t := by
  intro u hu x y hx hy heq
  obtain ⟨first, rest, hsplits, hfirst⟩ := ht.exists_splits
  obtain ⟨first', rest', hsplits', hfirst'⟩ := hu.exists_splits
  obtain ⟨herase, hafter⟩ :=
    hsplits.first_inj ht hchildren hprimary hsplits' hfirst hfirst' hx hy heq
  cases hsplits with
  | primary _ =>
    cases hsplits' with
    | primary _ => exact ⟨herase, hafter⟩
    | binary | assign =>
      rw [List.nil_append] at hafter
      subst hafter
      exact absurd hx (not_stopped_blank _)
  | binary op _ right attrs =>
    simp only [List.cons_append, List.append_assoc] at hafter
    cases hsplits' with
    | primary _ =>
      rw [List.nil_append] at hafter
      subst hafter
      exact absurd hy (not_stopped_blank _)
    | binary op' _ right' attrs' =>
      simp only [List.cons_append, List.append_assoc, List.cons.injEq, true_and] at hafter
      obtain ⟨rfl, hoperand⟩ := symbol_inj hafter
      have hmem : right ∈ (Form.binary op first right).children :=
        List.mem_cons_of_mem _ List.mem_cons_self
      obtain ⟨hright, hxy⟩ := (hchildren right hmem).operand (ht.child hmem)
        (hu.child (List.mem_cons_of_mem _ List.mem_cons_self)) hx.operand hy.operand hoperand
      exact ⟨erase_congr (congrArg₂ (Form.binary op) herase hright), hxy⟩
    | assign _ value attrs' => exact absurd (List.cons.inj hafter).2 (symbol_ne op _ _)
  | assign _ value attrs =>
    simp only [List.cons_append] at hafter
    cases hsplits' with
    | primary _ =>
      rw [List.nil_append] at hafter
      subst hafter
      exact absurd hy (not_stopped_blank _)
    | binary op' _ right' attrs' =>
      simp only [List.cons_append, List.append_assoc, List.cons.injEq, true_and] at hafter
      exact absurd hafter.symm (symbol_ne op' _ _)
    | assign _ value' attrs' =>
      simp only [List.cons_append, List.cons.injEq, true_and] at hafter
      have hmem : value ∈ (Form.assign first value).children :=
        List.mem_cons_of_mem _ List.mem_cons_self
      obtain ⟨hvalue, hxy⟩ := (hchildren value hmem).whole value'
        (hu.child (List.mem_cons_of_mem _ List.mem_cons_self)) x y hx hy hafter
      exact ⟨erase_congr (congrArg₂ Form.assign herase hvalue), hxy⟩

end

theorem Tree.IsOperation.legible {t : Tree} (h : t.IsOperation) : t.Legible := by
  induction t using Tree.inductionOn with
  | mk form attrs ih =>
    have hchildren : ∀ c ∈ form.children, c.Legible := fun c hc => ih c hc (h.child hc)
    have hprimary := determines_primary (t := ⟨form, attrs⟩) hchildren
    exact ⟨determines_whole h hchildren hprimary, hprimary⟩

/-- Operator expressions with one source are equal up to attributes; so are those with one text as an
operand or after a sign; and outside literals no two signs stand side by side. -/
theorem erase_eq_of_source_eq (t u : Tree) (ht : t.IsOperation) (hu : u.IsOperation) :
    (t.source = u.source → t.erase = u.erase) ∧
      (operand t.print = operand u.print → t.erase = u.erase) ∧
      (signed t.print = signed u.print → t.erase = u.erase) ∧ SignsApart t.source := by
  have hstop : ∀ stop, Stopped stop [] := fun stop c hc => nomatch hc
  have hlegible := ht.legible
  refine ⟨fun h => ?_, fun h => ?_, fun h => ?_, ht.settled.apart⟩
  · exact (hlegible.whole u hu [] [] (hstop _) (hstop _) (by rw [h])).1
  · exact (hlegible.operand ht hu (hstop _) (hstop _) (by rw [h])).1
  · exact (hlegible.signed ht hu (hstop _) (hstop _) (by rw [h])).1

/-- `-(-$a) - -f('b - -')`, with a position and a comment inside. -/
def annotatedDifference : Tree :=
  Make.binary .sub (Make.unary .minus ⟨.unary .minus (Make.var "a"), ⟨some (.point 1 2), ["twice"]⟩⟩)
    (Make.unary .minus (Make.call "f" [Make.str "b - -"]))

def plainDifference : Tree :=
  Make.binary .sub (Make.unary .minus (Make.unary .minus (Make.var "a")))
    (Make.unary .minus (Make.call "f" [Make.str "b - -"]))

theorem erase_eq_of_source_eq_difference :
    annotatedDifference.IsOperation ∧ plainDifference.IsOperation ∧
      annotatedDifference.source = plainDifference.source ∧
      annotatedDifference.erase = plainDifference.erase ∧ SignsApart annotatedDifference.source := by
  have hleaf : ∀ form attrs, form.isOperation = true → form.children = [] →
      Tree.IsOperation ⟨form, attrs⟩ := fun form attrs h hnil =>
    (Tree.isOperation_mk form attrs).mpr ⟨h, hnil ▸ List.forall_mem_nil _⟩
  have hunary : ∀ op e attrs, e.IsOperation → Tree.IsOperation ⟨.unary op e, attrs⟩ :=
    fun op e attrs h => (Tree.isOperation_mk _ _).mpr ⟨rfl, List.forall_mem_singleton.mpr h⟩
  have hbinary : ∀ left right, left.IsOperation → right.IsOperation →
      (Make.binary .sub left right).IsOperation := fun left right hleft hright =>
    (Tree.isOperation_mk _ _).mpr
      ⟨rfl, List.forall_mem_cons.mpr ⟨hleft, List.forall_mem_singleton.mpr hright⟩⟩
  have hvar : (Make.var "a").IsOperation := hleaf _ _ rfl rfl
  have hcall : (Make.call "f" [Make.str "b - -"]).IsOperation :=
    (Tree.isOperation_mk _ _).mpr ⟨rfl, List.forall_mem_singleton.mpr (hleaf _ _ rfl rfl)⟩
  have hannotated : annotatedDifference.IsOperation :=
    hbinary _ _ (hunary _ _ _ (hunary _ _ _ hvar)) (hunary _ _ _ hcall)
  have hplain : plainDifference.IsOperation :=
    hbinary _ _ (hunary _ _ _ (hunary _ _ _ hvar)) (hunary _ _ _ hcall)
  have hsource : annotatedDifference.source = plainDifference.source := rfl
  obtain ⟨herase, -, -, hapart⟩ :=
    erase_eq_of_source_eq annotatedDifference plainDifference hannotated hplain
  exact ⟨hannotated, hplain, hsource, herase hsource, hapart⟩

end Graft
