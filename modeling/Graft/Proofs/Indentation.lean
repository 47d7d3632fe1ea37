import Mathlib.Data.List.Infix
import Graft.Text.Lines
import Graft.Text.Quoted

/-! # Indented texts

Indenting goes by lines; `shift` says the same character by character, with a mark for the start of a
line (`toList_indent`). A literal is not spared: where a quoted text stands in a text, the indented text
has the quoted text with its later lines indented, `hang` (`quoted_infix_shift`). That is the same
text exactly when it has no line feed (`hang_iterate_eq_self_iff`).
-/

set_option autoImplicit false

namespace Graft.Text

/-! ## Character by character -/

/-- What stands before the first character of a line, and nothing before the others. -/
def margin (fresh : Bool) : List Char := if fresh then [' ', ' ', ' ', ' '] else []

/-- A text with its lines one level deeper and without its last line end; `fresh` says whether it
starts a line. -/
def shift : (fresh : Bool) → List Char → List Char
  | _, [] => []
  | _, ['\n'] => []
  | _, ['\r', '\n'] => []
  | _, '\n' :: rest => '\n' :: shift true rest
  | _, '\r' :: '\n' :: rest => '\n' :: shift true rest
  | fresh, c :: rest => margin fresh ++ c :: shift false rest

theorem splitLines_eq_nil_iff (x : List Char) : splitLines x = [] ↔ x = [] := by
  fun_cases splitLines x <;> simp_all

/-- Lines joined again, one level deeper; the first only if it is `fresh`. -/
def joinLines (fresh : Bool) : List (List Char) → List Char
  | [] => []
  | line :: lines =>
    (if line = [] then [] else margin fresh ++ line) ++
      (if lines = [] then [] else '\n' :: joinLines true lines)

theorem shift_eq_joinLines (fresh : Bool) (x : List Char) :
    shift fresh x = joinLines fresh (splitLines x) := by
  fun_induction shift fresh x with
  | case1 | case2 | case3 => rfl
  | case4 fresh rest hrest ih | case5 fresh rest hrest ih =>
    rw [ih, splitLines, joinLines]
    have hlines : splitLines rest ≠ [] := fun h => hrest ((splitLines_eq_nil_iff rest).mp h)
    simp [hlines]
  | case6 fresh c rest _ _ hfeed hreturn ih =>
    rw [ih, splitLines]
    · cases splitLines rest with
      | nil => simp [joinLines]
      | cons line lines => by_cases hline : line = [] <;> simp [joinLines, hline, margin]
    · exact hfeed
    · exact hreturn

theorem toList_indentLine (line : List Char) :
    (indentLine (.ofList line)).toList = if line = [] then [] else margin true ++ line := by
  by_cases hline : line = [] <;> simp [indentLine, margin, hline]

theorem toList_indent (text : String) : (indent text).toList = shift true text.toList := by
  rw [shift_eq_joinLines, indent, lines, String.toList_intercalate, List.map_map, List.map_map]
  induction splitLines text.toList with
  | nil => rfl
  | cons line lines ih =>
    rw [joinLines, ← ih, ← toList_indentLine]
    cases lines <;> simp

/-! ## Before and after a quote -/

theorem shift_cons (fresh : Bool) {c : Char} {x : List Char} (hfeed : c ≠ '\n')
    (hreturn : ∀ rest, c = '\r' → x ≠ '\n' :: rest) :
    shift fresh (c :: x) = margin fresh ++ c :: shift false x := by
  rw [shift]
  · exact fun h _ => hfeed h
  · exact hreturn []
  · exact hfeed
  · exact hreturn

theorem shift_quote (fresh : Bool) (x : List Char) :
    shift fresh ('\'' :: x) = margin fresh ++ '\'' :: shift false x :=
  shift_cons fresh (by decide) (by simp)

/-- What comes before a quote is shifted apart from it, up to the start of the quote's line. -/
theorem exists_shift_append (fresh : Bool) (x y : List Char) :
    ∃ x' fresh', shift fresh (x ++ '\'' :: y) = x' ++ shift fresh' ('\'' :: y) := by
  fun_induction shift fresh x with
  | case1 fresh => exact ⟨[], fresh, rfl⟩
  | case2 | case3 => exact ⟨['\n'], true, by simp [shift]⟩
  | case4 fresh rest hrest ih | case5 fresh rest hrest ih =>
    obtain ⟨x', fresh', h⟩ := ih
    exact ⟨'\n' :: x', fresh', by simp [shift, h]⟩
  | case6 fresh c rest _ _ hfeed hreturn ih =>
    obtain ⟨x', fresh', h⟩ := ih
    have hnext : ∀ rest', c = '\r' → rest ++ '\'' :: y ≠ '\n' :: rest' := by
      intro rest' hc h
      cases rest with
      | nil => simp at h
      | cons d rest => exact hreturn rest hc (by rw [(List.cons.inj h).1])
    refine ⟨margin fresh ++ c :: x', fresh', ?_⟩
    rw [List.cons_append, shift_cons fresh hfeed hnext, h]
    simp

/-! ## Texts between quotes -/

def quoted (x : List Char) : List Char := '\'' :: (escape x ++ ['\''])

theorem toList_quote (text : String) : (quote text).toList = quoted text.toList := by
  simp [quote, quoted]

/-- A text with its later lines one level deeper, the last also if nothing stands in it yet. -/
def hang : (fresh : Bool) → List Char → List Char
  | fresh, [] => margin fresh
  | _, '\n' :: rest => '\n' :: hang true rest
  | _, '\r' :: '\n' :: rest => '\n' :: hang true rest
  | fresh, c :: rest => margin fresh ++ c :: hang false rest

theorem escape_cons {c : Char} (x : List Char) (hquote : c ≠ '\'') (hslash : c ≠ '\\') :
    escape (c :: x) = c :: escape x := by
  rw [escape]
  · exact hquote
  · exact hslash

theorem escape_margin (fresh : Bool) (x : List Char) :
    escape (margin fresh ++ x) = margin fresh ++ escape x := by
  cases fresh <;> simp [margin, escape]

theorem eq_cons_of_escape_append {x y z : List Char} (h : escape x ++ '\'' :: y = '\n' :: z) :
    ∃ rest, x = '\n' :: rest := by
  fun_cases escape x <;> simp_all [escape]

/-- The closing quote keeps the last line of a literal from being empty. -/
theorem shift_escape (fresh : Bool) (x y : List Char) :
    shift fresh (escape x ++ '\'' :: y) = escape (hang fresh x) ++ '\'' :: shift false y := by
  fun_induction hang fresh x with
  | case1 fresh =>
    have hmargin : escape (margin fresh) = margin fresh := by cases fresh <;> rfl
    rw [hmargin]
    exact shift_quote fresh y
  | case2 fresh rest ih | case3 fresh rest ih => simpa [escape, shift] using ih
  | case4 fresh c rest hfeed hreturn ih =>
    rw [escape_margin]
    by_cases hspecial : c = '\'' ∨ c = '\\'
    · rcases hspecial with rfl | rfl <;> simp [escape, shift_cons, ih, margin]
    · rw [not_or] at hspecial
      have hnext : ∀ rest', c = '\r' → escape rest ++ '\'' :: y ≠ '\n' :: rest' := by
        intro rest' hc h
        obtain ⟨rest'', hrest⟩ := eq_cons_of_escape_append h
        exact hreturn rest'' hc hrest
      rw [escape_cons rest hspecial.1 hspecial.2, escape_cons _ hspecial.1 hspecial.2,
        List.cons_append, shift_cons fresh hfeed hnext, ih]
      simp

/-- Where a quoted text stands in a text, the shifted text has it with its later lines deeper. -/
theorem quoted_infix_shift {x text : List Char} (h : quoted x <:+: text) (fresh : Bool) :
    quoted (hang false x) <:+: shift fresh text := by
  obtain ⟨a, b, rfl⟩ := h
  obtain ⟨a', fresh', hbefore⟩ := exists_shift_append fresh a (escape x ++ '\'' :: b)
  rw [shift_quote, shift_escape] at hbefore
  refine ⟨a' ++ margin fresh', shift false b, ?_⟩
  simpa [quoted] using hbefore.symm

/-! ## Texts that change -/

theorem hang_eq_self {x : List Char} (h : '\n' ∉ x) : hang false x = x := by
  induction x with
  | nil => rfl
  | cons c x ih =>
    rw [List.mem_cons, not_or] at h
    rw [hang, ih h.2]
    · rfl
    · exact fun hc => h.1 hc.symm
    · rintro rest - rfl
      simp at h

theorem count_le_count_hang (fresh : Bool) (x : List Char) :
    x.count ' ' ≤ (hang fresh x).count ' ' := by
  fun_induction hang fresh x with
  | case1 => simp
  | case2 fresh rest ih | case3 fresh rest ih => simpa using ih
  | case4 fresh c rest _ _ ih =>
    rw [List.count_append, List.count_cons, List.count_cons]
    omega

theorem count_lt_count_hang (fresh : Bool) (x : List Char) (h : fresh = true ∨ '\n' ∈ x) :
    x.count ' ' < (hang fresh x).count ' ' := by
  fun_induction hang fresh x with
  | case1 fresh =>
    have hfresh : fresh = true := by simpa using h
    subst hfresh
    decide
  | case2 fresh rest ih | case3 fresh rest ih => simpa using ih (.inl rfl)
  | case4 fresh c rest hfeed hreturn ih =>
    rw [List.count_append, List.count_cons, List.count_cons]
    rcases h with rfl | h
    · have hrest := count_le_count_hang false rest
      have hmargin : (margin true).count ' ' = 4 := rfl
      omega
    · have hlt := ih (.inr (List.mem_of_ne_of_mem (Ne.symm hfeed) h))
      omega

theorem feed_mem_hang (fresh : Bool) (x : List Char) (h : '\n' ∈ x) : '\n' ∈ hang fresh x := by
  fun_induction hang fresh x with
  | case1 => contradiction
  | case2 | case3 => simp
  | case4 fresh c rest hfeed hreturn ih =>
    have hrest := ih (List.mem_of_ne_of_mem (Ne.symm hfeed) h)
    simp [hrest]

/-- At every depth, a text stays as it is exactly if it has no line feed. -/
theorem hang_iterate_eq_self_iff (x : List Char) (depth : Nat) :
    (hang false)^[depth] x = x ↔ depth = 0 ∨ '\n' ∉ x := by
  constructor
  · intro h
    by_contra hne
    rw [not_or, not_not] at hne
    -- each level adds blanks and keeps a line feed to add more at
    have hgrows : ∀ n, x.count ' ' + n ≤ ((hang false)^[n] x).count ' ' ∧
        '\n' ∈ (hang false)^[n] x := by
      intro n
      induction n with
      | zero => exact ⟨le_rfl, hne.2⟩
      | succ n ih =>
        rw [Function.iterate_succ_apply']
        have hlt := count_lt_count_hang false _ (.inr ih.2)
        exact ⟨by omega, feed_mem_hang false _ ih.2⟩
    have hcount := (hgrows depth).1
    rw [h] at hcount
    omega
  · rintro (rfl | h)
    · rfl
    · exact Function.iterate_fixed (hang_eq_self h) depth

/-! ## Where a literal can be found -/

theorem count_quote_shift (fresh : Bool) (x : List Char) :
    (shift fresh x).count '\'' = x.count '\'' := by
  fun_induction shift fresh x with
  | case1 | case2 | case3 => rfl
  | case4 fresh rest _ ih | case5 fresh rest _ ih => simpa using ih
  | case6 fresh c rest _ _ _ _ ih =>
    have hmargin : (margin fresh).count '\'' = 0 := by cases fresh <;> rfl
    rw [List.count_append, List.count_cons, List.count_cons, hmargin, ih, Nat.zero_add]

theorem eq_of_append_quote {a b x y : List Char} (ha : '\'' ∉ a) (hb : '\'' ∉ b)
    (h : a ++ '\'' :: x = b ++ '\'' :: y) : a = b ∧ x = y := by
  induction a generalizing b with
  | nil =>
    cases b with
    | nil => exact ⟨rfl, (List.cons.inj h).2⟩
    | cons d b => exact absurd ((List.cons.inj h).1 ▸ List.mem_cons_self) hb
  | cons c a ih =>
    cases b with
    | nil => exact absurd ((List.cons.inj h).1 ▸ List.mem_cons_self) ha
    | cons d b =>
      rw [List.mem_cons, not_or] at ha hb
      obtain ⟨hhead, htail⟩ := List.cons.inj h
      obtain ⟨hab, hxy⟩ := ih ha.2 hb.2 htail
      exact ⟨by rw [hhead, hab], hxy⟩

/-- Where all quotes of a text are those of one literal, no other with as many quotes is found. -/
theorem quoted_eq_of_infix {x y a b : List Char} (ha : '\'' ∉ a) (hb : '\'' ∉ b)
    (hcount : (quoted x).count '\'' = (quoted y).count '\'') (h : quoted x <:+: a ++ quoted y ++ b) :
    quoted x = quoted y := by
  obtain ⟨u, v, huv⟩ := h
  have hquotes := congrArg (List.count '\'') huv
  rw [List.count_append, List.count_append, List.count_append, List.count_append, hcount,
    List.count_eq_zero_of_not_mem ha, List.count_eq_zero_of_not_mem hb] at hquotes
  -- no quote is left for what stands around the literal, so it starts and ends where the other does
  have hu : '\'' ∉ u := List.count_eq_zero.mp (by omega)
  have hv : '\'' ∉ v := List.count_eq_zero.mp (by omega)
  have hfront := eq_of_append_quote (x := escape x ++ '\'' :: v) (y := escape y ++ '\'' :: b) hu ha
    (by simpa [quoted] using huv)
  have hback := eq_of_append_quote (x := (escape x).reverse) (y := (escape y).reverse)
    (List.mem_reverse.not.mpr hv) (List.mem_reverse.not.mpr hb)
    (by simpa using congrArg List.reverse hfront.2)
  rw [quoted, quoted, List.reverse_injective hback.2]

theorem count_quote_quoted_hang (x : List Char) :
    (quoted (hang false x)).count '\'' = (quoted x).count '\'' := by
  have hshift := count_quote_shift false (quoted x)
  rwa [quoted, shift_quote, shift_escape] at hshift

theorem count_blank_escape (x : List Char) : (escape x).count ' ' = x.count ' ' := by
  fun_induction escape x <;> simp_all [List.count_cons]

/-- A literal is found in a text around its deepened form, without quotes, only if it is the same. -/
theorem quoted_infix_hang_iff {x a b : List Char} (ha : '\'' ∉ a) (hb : '\'' ∉ b) :
    quoted x <:+: a ++ quoted (hang false x) ++ b ↔ '\n' ∉ x := by
  constructor
  · intro h hfeed
    have heq := quoted_eq_of_infix ha hb (count_quote_quoted_hang x).symm h
    have hblanks := congrArg (List.count ' ') heq
    have hlt := count_lt_count_hang false x (.inr hfeed)
    simp only [quoted, List.count_cons, List.count_append, count_blank_escape] at hblanks
    omega
  · intro h
    rw [hang_eq_self h]
    exact List.infix_append a (quoted x) b

end Graft.Text
