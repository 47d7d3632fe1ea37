import Graft.Proofs.Bodies

/-! # Outlines

A scan of source tells code from literals and bodies and keeps of each group in parentheses, brackets
or braces only its ends; what is left is the outline. A literal ends at the first quote that is not
escaped. A body ends at the first line that starts with a brace, whatever is in it, because its lines
are indented (`outlined_body`). A text that is `Outlined` can stand at any depth of another, so outlines
are put together as texts are.
-/

set_option autoImplicit false

namespace Graft.Text

/-! ## Scanning -/

/-- Where a scan of source stands, with the number of groups around it. -/
inductive Scan where
  | code (depth : Nat)
  /-- Right after a brace, which opens a group or a body. -/
  | opened (depth : Nat)
  | literal (depth : Nat)
  | escaped (depth : Nat)
  /-- In a body, at the start of a line or not. -/
  | body (depth : Nat) (fresh : Bool)
  | stuck
deriving DecidableEq

namespace Scan

/-- The characters that open or close something, or end a line. -/
def marks : List Char := ['\'', '(', '[', '{', ')', ']', '}', '\n']

def isPlain (c : Char) : Bool := !marks.contains c

theorem isPlain_of {p : Char → Bool} (hp : marks.all (fun d => !p d) = true) {c : Char}
    (h : p c = true) : isPlain c = true := by
  rw [isPlain, Bool.not_eq_true', ← Bool.not_eq_true, List.contains_iff_mem]
  intro hmem
  have hmark := List.all_eq_true.mp hp c hmem
  rw [h] at hmark
  contradiction

/-- What follows a character in code. -/
def inCode (n : Nat) (c : Char) : Scan :=
  if isPlain c then code n
  else if c = '\'' then literal n
  else if c = '{' then opened n
  else if c = '(' || c = '[' then code (n + 1)
  else if c = '\n' then stuck
  else code (n - 1)

def step : Scan → Char → Scan
  | code n, c => inCode n c
  | opened n, c => if c = '\n' then body n true else inCode (n + 1) c
  | literal n, c => if c = '\'' then code n else if c = '\\' then escaped n else literal n
  | escaped n, _ => literal n
  | body n fresh, c =>
    if c = '\n' then body n true else if fresh && c = '}' then code n else body n false
  | stuck, _ => stuck

/-- What a step adds to the outline: the characters outside all groups, and the ends of those. -/
def emit (s : Scan) (c : Char) : List Char := if s = code 0 ∨ s.step c = code 0 then [c] else []

/-- Scans characters from where a scan stands, and gives the outline. -/
def run : Scan → List Char → Scan × List Char
  | s, [] => (s, [])
  | s, c :: rest => ((run (s.step c) rest).1, s.emit c ++ (run (s.step c) rest).2)

theorem run_append (s : Scan) (x y : List Char) :
    run s (x ++ y) = ((run (run s x).1 y).1, (run s x).2 ++ (run (run s x).1 y).2) := by
  induction x generalizing s with
  | nil => simp [run]
  | cons c x ih => simp [run, ih]

theorem run_stuck (x : List Char) : run stuck x = (stuck, []) := by
  induction x with
  | nil => rfl
  | cons c x ih => simp [run, step, emit, ih]

end Scan

open Scan

/-! ## Outlines -/

/-- A text that can stand in code at any depth and leaves it there, with its outline. -/
def Outlined (text : String) (o : List Char) : Prop :=
  ∀ n, run (.code n) text.toList = (.code n, if n = 0 then o else [])

def Readable (text : String) : Prop := ∃ o, Outlined text o

theorem Outlined.unique {text : String} {o o' : List Char} (h : Outlined text o)
    (h' : Outlined text o') : o = o' := by
  have heq := (h 0).symm.trans (h' 0)
  simpa using heq

theorem Outlined.append {a b : String} {o p : List Char} (ha : Outlined a o) (hb : Outlined b p) :
    Outlined (a ++ b) (o ++ p) := by
  intro n
  rw [String.toList_append, run_append, ha n, hb n]
  split <;> rfl

theorem Readable.append {a b : String} : Readable a → Readable b → Readable (a ++ b)
  | ⟨_, ha⟩, ⟨_, hb⟩ => ⟨_, ha.append hb⟩

theorem outlined_plain {text : String} (h : text.toList.all isPlain = true) :
    Outlined text text.toList := by
  intro n
  rw [List.all_eq_true] at h
  generalize text.toList = x at h ⊢
  induction x with
  | nil => simp [run]
  | cons c x ih =>
    rw [List.forall_mem_cons] at h
    have hstep : (code n).step c = code n := if_pos h.1
    rw [run, hstep, ih h.2]
    by_cases hn : n = 0 <;> simp [emit, hstep, hn]

theorem Readable.plain {text : String} (h : text.toList.all isPlain = true) : Readable text :=
  ⟨_, outlined_plain h⟩

theorem run_group {first last : Char} (n : Nat) {text : String} {o : List Char} (h : Outlined text o)
    (hfirst : inCode n first = code (n + 1)) (hlast : inCode (n + 1) last = code n) :
    run (code n) (first :: (text.toList ++ [last])) =
      (code n, if n = 0 then [first, last] else []) := by
  have hopen : (code n).step first = code (n + 1) := hfirst
  have hclose : (code (n + 1)).step last = code n := hlast
  rw [run, hopen, run_append, h (n + 1)]
  cases n <;> simp [run, emit, hopen, hclose]

theorem Outlined.parens {text : String} {o : List Char} (h : Outlined text o) :
    Outlined (Printed.parens text) ['(', ')'] := by
  intro n
  simpa [Printed.parens] using run_group n h rfl rfl

theorem Outlined.brackets {text : String} {o : List Char} (h : Outlined text o) :
    Outlined ("[" ++ text ++ "]") ['[', ']'] := by
  intro n
  simpa using run_group n h rfl rfl

/-- A brace opens a group unless a line end follows. -/
theorem run_opened (n : Nat) {c : Char} (hc : c ≠ '\n') (x : List Char) :
    run (opened n) (c :: x) = run (code (n + 1)) (c :: x) := by
  have hstep : (opened n).step c = (code (n + 1)).step c := if_neg hc
  rw [run, run, hstep]
  simp [emit, hstep]

theorem Outlined.head_ne {text : String} {o : List Char} (h : Outlined text o) {c : Char}
    {x : List Char} (hx : text.toList = c :: x) : c ≠ '\n' := by
  rintro rfl
  have hrun := h 0
  have hstep : (code 0).step '\n' = stuck := rfl
  rw [hx, run, hstep, run_stuck] at hrun
  simp at hrun

theorem Outlined.braces {text : String} {o : List Char} (h : Outlined text o) :
    Outlined (Printed.braces text) ['{', '}'] := by
  intro n
  have htext : (Printed.braces text).toList = '{' :: (text.toList ++ ['}']) := by
    simp [Printed.braces]
  have hopen : (code n).step '{' = opened n := rfl
  have hclose : (code (n + 1)).step '}' = code n := rfl
  have hgroup : run (opened n) (text.toList ++ ['}']) = run (code (n + 1)) (text.toList ++ ['}']) := by
    cases hx : text.toList with
    | nil => exact run_opened n (by decide) []
    | cons c x => exact run_opened n (h.head_ne hx) (x ++ ['}'])
  rw [htext, run, hopen, hgroup, run_append, h (n + 1)]
  cases n <;> simp [run, emit, hopen, hclose]

/-! ## Literals and bodies -/

theorem run_literal (n : Nat) (x : List Char) :
    run (literal n) (escape x ++ ['\'']) = (code n, if n = 0 then ['\''] else []) := by
  fun_induction escape x with
  | case1 => cases n <;> simp [run, step, emit]
  | case2 rest ih | case3 rest ih => simp [run, step, emit, ih]
  | case4 c rest hquote hslash ih =>
    have hstep : (literal n).step c = literal n := by rw [step, if_neg hquote, if_neg hslash]
    simp [run, emit, hstep, ih]

theorem outlined_quote (text : String) : Outlined (quote text) ['\'', '\''] := by
  intro n
  have hopen : (code n).step '\'' = literal n := rfl
  rw [toList_quote, quoted, run, hopen, run_literal]
  cases n <;> simp [emit, hopen]

/-- The lines of an indented text do not start with a brace. -/
theorem run_shift (n : Nat) (fresh : Bool) (x : List Char) :
    ∃ fresh', run (body n fresh) (shift fresh x) = (body n fresh', []) := by
  fun_induction shift fresh x with
  | case1 fresh | case2 fresh | case3 fresh => exact ⟨fresh, rfl⟩
  | case4 fresh rest _ ih | case5 fresh rest _ ih =>
    obtain ⟨fresh', h⟩ := ih
    exact ⟨fresh', by simp [run, step, emit, h]⟩
  | case6 fresh c rest _ _ hfeed _ ih =>
    obtain ⟨fresh', h⟩ := ih
    have hc : c ≠ '\n' := hfeed
    refine ⟨fresh', ?_⟩
    -- at the start of a line the margin comes first, so the character cannot close the body
    cases fresh <;> simp [margin, run, step, emit, h, hc]

theorem outlined_body (ps : List Printed) : Outlined (Printed.body ps) ['{', '}'] := by
  intro n
  have hopen : run (code n) ['{', '\n'] = (body n true, if n = 0 then ['{'] else []) := by
    cases n <;> rfl
  have hclose : ∀ fresh, run (body n fresh) ['\n', '}'] = (code n, if n = 0 then ['}'] else []) := by
    intro fresh
    cases n <;> cases fresh <;> rfl
  rw [Printed.body]
  split
  · cases n <;> rfl
  · obtain ⟨fresh, hlines⟩ := run_shift n true (Printed.statements ps).toList
    have htext : ("\x7b\n" ++ indent (Printed.statements ps) ++ "\n\x7d").toList =
        ['{', '\n'] ++ (shift true (Printed.statements ps).toList ++ ['\n', '}']) := by
      simp [toList_indent]
    rw [htext, run_append, hopen, run_append, hlines, hclose]
    cases n <;> rfl

/-! ## Lists -/

theorem Readable.intercalate {separator : String} (hseparator : Readable separator)
    {texts : List String} (h : ∀ text ∈ texts, Readable text) :
    Readable (separator.intercalate texts) := by
  induction texts with
  | nil => exact .plain rfl
  | cons a texts ih =>
    rw [List.forall_mem_cons] at h
    cases texts with
    | nil =>
      rw [String.intercalate_singleton]
      exact h.1
    | cons b texts =>
      rw [String.intercalate_cons_cons]
      exact (h.1.append hseparator).append (ih h.2)

theorem Readable.commas {texts : List String} (h : ∀ text ∈ texts, Readable text) :
    Readable (Printed.commas texts) :=
  Readable.intercalate (.plain rfl) h

theorem Readable.parens {text : String} (h : Readable text) : Readable (Printed.parens text) := by
  obtain ⟨o, h⟩ := h
  exact ⟨_, h.parens⟩

/-! ## Words and numbers -/

/-- A character of a name. -/
def isWord (c : Char) : Bool := Name.continuesIdentifier c || c = '\\'

theorem isWord_of_isIdentifier {x : List Char} (h : Name.isIdentifier x = true) :
    ∀ c ∈ x, isWord c = true := by
  cases x with
  | nil => simp
  | cons c x =>
    rw [Name.isIdentifier, Bool.and_eq_true, List.all_eq_true] at h
    have hcontinues : Name.continuesIdentifier c = true := by
      have hstarts := h.1
      simp only [Name.startsIdentifier, Name.continuesIdentifier, Bool.or_eq_true] at hstarts ⊢
      tauto
    refine List.forall_mem_cons.mpr ⟨?_, fun d hd => ?_⟩
    · rw [isWord, hcontinues, Bool.true_or]
    · rw [isWord, h.2 d hd, Bool.true_or]

theorem forall_mem_intercalate {p : Char → Prop} {separator : String} {texts : List String}
    (hseparator : ∀ c ∈ separator.toList, p c) (h : ∀ text ∈ texts, ∀ c ∈ text.toList, p c) :
    ∀ c ∈ (separator.intercalate texts).toList, p c := by
  induction texts with
  | nil => simp
  | cons a texts ih =>
    rw [List.forall_mem_cons] at h
    cases texts with
    | nil => simpa using h.1
    | cons b texts =>
      rw [String.intercalate_cons_cons, String.toList_append, String.toList_append]
      intro c hc
      rcases List.mem_append.mp hc with hc | hc
      · rcases List.mem_append.mp hc with hc | hc
        · exact h.1 c hc
        · exact hseparator c hc
      · exact ih h.2 c hc

theorem isWord_of_isValid {name : Name} (h : name.isValid = true) :
    ∀ c ∈ name.source.toList, isWord c = true := by
  rw [Name.isValid, Bool.and_eq_true, List.all_eq_true] at h
  have hslash : ∀ c ∈ "\\".toList, isWord c = true := List.all_eq_true.mp rfl
  have htext : ∀ c ∈ name.text.toList, isWord c = true :=
    forall_mem_intercalate hslash fun part hpart => isWord_of_isIdentifier (h.2 part hpart)
  rw [Name.source]
  split
  · rw [String.toList_append]
    exact List.forall_mem_append.mpr ⟨hslash, htext⟩
  · exact htext

theorem outlined_word {text : String} (h : ∀ c ∈ text.toList, isWord c = true) :
    Outlined text text.toList := by
  refine outlined_plain (List.all_eq_true.mpr fun c hc => ?_)
  exact isPlain_of (p := isWord) rfl (h c hc)

theorem readable_nat (n : Nat) : Readable (toString n) := by
  refine .plain ?_
  rw [Nat.toString_eq_repr, Nat.toList_repr, List.all_eq_true]
  intro c hc
  have hdigit := Nat.isDigit_of_mem_toDigits (by decide) (by decide) hc
  exact isPlain_of (p := Char.isDigit) rfl hdigit

theorem readable_int (i : Int) : Readable (toString i) := by
  rw [Int.toString_eq_repr, Int.repr_eq_if]
  split
  · exact readable_nat _
  · exact .append (.plain rfl) (readable_nat _)

theorem readable_positional (digits : Nat) (exponent : Int) :
    Readable (Decimal.positional digits exponent) := by
  rw [Decimal.positional]
  split
  · exact readable_nat _
  · rw [Decimal.withPlaces]
    have hzeros : ∀ n, Readable (String.ofList (List.replicate n '0')) := by
      intro n
      refine .plain ?_
      rw [String.toList_ofList, List.all_replicate]
      split <;> rfl
    exact (((readable_nat _).append (.plain rfl)).append (hzeros _)).append (readable_nat _)

theorem readable_float (x : Binary64) : Readable x.source := by
  have hmagnitude : Readable (if x.isInfinite then "INF"
      else if x.isWhole then toString (x.ratio.1 / x.ratio.2) ++ ".0"
      else Decimal.positional (Decimal.shortest x).1 (Decimal.shortest x).2) := by
    split
    · exact .plain rfl
    · split
      · exact (readable_nat _).append (.plain rfl)
      · exact readable_positional _ _
  rw [Binary64.source]
  split
  · exact .plain rfl
  · dsimp only
    split
    · exact .append (.plain rfl) hmagnitude
    · exact hmagnitude

theorem readable_literal (value : Literal) : Readable value.source := by
  cases value with
  | int value => exact readable_int _
  | float value => exact readable_float value
  | str text => exact ⟨_, outlined_quote text⟩
  | bool value => cases value <;> exact .plain rfl
  | null => exact .plain rfl

end Graft.Text
