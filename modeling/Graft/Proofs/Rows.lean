import Graft.Proofs.Indentation

/-! # Rows of a text

A text is its rows, each but the last ended by a line feed (`ended`). A row whose first characters are
two slashes is a remark, and `withoutRemarks` leaves such rows out. `Sheds` says that of some rows others
are left and how many stray rows of comments besides; it goes along with putting rows together and with
indenting them. Texts are put together by joining the last row of one with the first of the next, so
`Sifts` keeps these two apart: the first may continue any row, and the last is settled as code by what it
has already. `Stands` is the same for a text that starts its first row.
-/

set_option autoImplicit false

namespace Graft.Text

/-! ## Remarks -/

/-- Whether the first characters after the blanks are two slashes. -/
def isRemark : List Char → Bool
  | ' ' :: rest => isRemark rest
  | '/' :: '/' :: _ => true
  | _ => false

def isCode (row : List Char) : Bool := !isRemark row

/-- The rows of a text, without the line feeds between them. -/
def rowsOf (text : String) : List (List Char) := text.toList.splitOn '\n'

/-- The text without its rows that are remarks. -/
def withoutRemarks (text : String) : String :=
  .ofList (['\n'].intercalate ((rowsOf text).filter isCode))

/-- Whether the first character after the blanks is there and is no slash, so that nothing after it can
make the row a remark. -/
def isSettled : List Char → Bool
  | ' ' :: rest => isSettled rest
  | '/' :: _ => false
  | [] => false
  | _ :: _ => true

theorem isRemark_cons {c : Char} (hblank : c ≠ ' ') (hslash : c ≠ '/') (rest : List Char) :
    isRemark (c :: rest) = false := by
  rw [isRemark] <;> simp [hblank, hslash]

theorem isCode_of_isSettled {x : List Char} (h : isSettled x = true) : isCode x = true := by
  fun_induction isSettled x with
  | case1 rest ih => exact ih h
  | case2 | case3 => contradiction
  | case4 c rest hblank hslash => rw [isCode, isRemark_cons hblank hslash, Bool.not_false]

theorem isSettled_append {x : List Char} (h : isSettled x = true) (y : List Char) :
    isSettled (x ++ y) = true := by
  fun_induction isSettled x with
  | case1 rest ih => exact ih h
  | case2 | case3 => contradiction
  | case4 c rest hblank hslash => simp [isSettled]

theorem isRemark_margin (x : List Char) : isRemark (margin true ++ x) = isRemark x := rfl

/-! ## Rows -/

/-- The rows, each with a line feed at its end. -/
def ended (rows : List (List Char)) : List Char := rows.flatMap (· ++ ['\n'])

theorem ended_nil : ended [] = [] := rfl

theorem ended_cons (row : List Char) (rows : List (List Char)) :
    ended (row :: rows) = row ++ '\n' :: ended rows := by simp [ended]

theorem ended_append (rows rows' : List (List Char)) :
    ended (rows ++ rows') = ended rows ++ ended rows' := by simp [ended]

theorem ended_append_eq (rows : List (List Char)) (last : List Char) :
    ended rows ++ last = ['\n'].intercalate (rows ++ [last]) := by
  induction rows with
  | nil => simp [ended_nil]
  | cons row rows ih =>
    obtain ⟨next, rest, hrest⟩ := List.exists_cons_of_ne_nil
      (List.append_ne_nil_of_right_ne_nil rows (List.cons_ne_nil last []))
    rw [ended_cons, List.cons_append, hrest, List.intercalate_cons_cons, ← hrest, ← ih]
    simp

theorem splitOn_ended {rows : List (List Char)} {last : List Char}
    (hrows : ∀ row ∈ rows, '\n' ∉ row) (hlast : '\n' ∉ last) :
    (ended rows ++ last).splitOn '\n' = rows ++ [last] := by
  rw [ended_append_eq]
  refine List.splitOn_intercalate _ (List.forall_mem_append.mpr ⟨hrows, ?_⟩) (by simp)
  simpa using hlast

theorem feed_not_mem_of_mem_splitOn {x row : List Char} (h : row ∈ x.splitOn '\n') : '\n' ∉ row := by
  induction x generalizing row with
  | nil => simp_all [List.splitOn_nil]
  | cons c x ih =>
    obtain ⟨first, rest, hx⟩ := List.exists_cons_of_ne_nil (List.splitOn_ne_nil '\n' x)
    rw [List.splitOn_cons_eq_if_modifyHead, hx] at h
    rw [hx] at ih
    by_cases hc : c = '\n'
    · rw [if_pos (beq_iff_eq.mpr hc)] at h
      rcases List.mem_cons.mp h with rfl | h
      · exact List.not_mem_nil
      · exact ih h
    · rw [if_neg (beq_iff_eq.not.mpr hc), List.modifyHead_cons] at h
      rcases List.mem_cons.mp h with rfl | h
      · exact List.mem_cons.not.mpr (not_or.mpr ⟨Ne.symm hc, ih List.mem_cons_self⟩)
      · exact ih (List.mem_cons_of_mem first h)

theorem ended_splitOn (x : List Char) : ended (x.splitOn '\n') = x ++ ['\n'] := by
  obtain ⟨rows, last, hrows⟩ := (List.eq_nil_or_concat (x.splitOn '\n')).resolve_left
    (List.splitOn_ne_nil '\n' x)
  rw [List.concat_eq_append] at hrows
  have hx : ['\n'].intercalate (x.splitOn '\n') = x := List.intercalate_splitOn '\n'
  rw [hrows, ← ended_append_eq] at hx
  rw [hrows, ended_append, ended_cons, ended_nil, ← hx, List.append_assoc]

/-! ## Rows that are left -/

/-- The rows of a comment after its first that are no remarks themselves. -/
def strays (comment : String) : List (List Char) :=
  (rowsOf comment).tail.filter isCode

def strayCount (comments : List String) : Nat := (comments.flatMap strays).length

theorem strays_eq_nil_of_not_mem {comment : String} (h : '\n' ∉ comment.toList) :
    strays comment = [] := by
  rw [strays, rowsOf, List.splitOn_eq_singleton h]
  rfl

theorem strayCount_append (cs ds : List String) :
    strayCount (cs ++ ds) = strayCount cs + strayCount ds := by simp [strayCount]

theorem strayCount_eq_zero_iff (cs : List String) :
    strayCount cs = 0 ↔ ∀ c ∈ cs, strays c = [] := by
  rw [strayCount, List.length_eq_zero_iff, List.flatMap_eq_nil_iff]

/-- Without remarks, some rows are others and as many more as the comments have stray rows. -/
structure Sheds (comments : List String) (rows left : List (List Char)) : Prop where
  feed_not_mem : ∀ row ∈ rows, '\n' ∉ row
  sublist : left.Sublist (rows.filter isCode)
  length_eq : (rows.filter isCode).length = left.length + strayCount comments

namespace Sheds

theorem nil : Sheds [] [] [] where
  feed_not_mem := by simp
  sublist := .slnil
  length_eq := rfl

theorem code {row : List Char} (hfeed : '\n' ∉ row) (h : isSettled row = true) :
    Sheds [] [row] [row] where
  feed_not_mem := by simpa using hfeed
  sublist := by simp [isCode_of_isSettled h]
  length_eq := by simp [isCode_of_isSettled h, strayCount]

/-- The first row of a comment is a remark whatever it says. -/
theorem comment (c : String) {first : List Char} {rest : List (List Char)}
    (hrows : rowsOf c = first :: rest) :
    Sheds [c] (('/' :: '/' :: ' ' :: first) :: rest) [] := by
  have hfeed : ∀ row ∈ first :: rest, '\n' ∉ row := fun row hrow =>
    feed_not_mem_of_mem_splitOn (hrows ▸ hrow)
  rw [List.forall_mem_cons] at hfeed
  have hremark : isCode ('/' :: '/' :: ' ' :: first) = false := rfl
  refine ⟨List.forall_mem_cons.mpr ⟨by simpa using hfeed.1, hfeed.2⟩, List.nil_sublist _, ?_⟩
  simp [hremark, strayCount, strays, hrows]

theorem append {cs ds : List String} {rows rows' left left' : List (List Char)}
    (h : Sheds cs rows left) (h' : Sheds ds rows' left') :
    Sheds (cs ++ ds) (rows ++ rows') (left ++ left') where
  feed_not_mem := List.forall_mem_append.mpr ⟨h.feed_not_mem, h'.feed_not_mem⟩
  sublist := by
    rw [List.filter_append]
    exact h.sublist.append h'.sublist
  length_eq := by
    rw [List.filter_append, List.length_append, List.length_append, h.length_eq, h'.length_eq,
      strayCount_append]
    omega

theorem map {cs : List String} {rows left : List (List Char)} (h : Sheds cs rows left)
    {f : List Char → List Char} (hfeed : ∀ row, '\n' ∉ row → '\n' ∉ f row)
    (hcode : ∀ row, isCode (f row) = isCode row) : Sheds cs (rows.map f) (left.map f) := by
  have hfilter : (rows.map f).filter isCode = (rows.filter isCode).map f := by
    rw [List.filter_map, Function.comp_def]
    simp only [hcode]
  refine ⟨List.forall_mem_map.mpr fun row hrow => hfeed row (h.feed_not_mem row hrow), ?_, ?_⟩
  · rw [hfilter]
    exact h.sublist.map f
  · rw [hfilter, List.length_map, List.length_map, h.length_eq]

theorem left_feed_not_mem {cs : List String} {rows left : List (List Char)} (h : Sheds cs rows left) :
    ∀ row ∈ left, '\n' ∉ row :=
  fun row hrow => h.feed_not_mem row (List.mem_filter.mp (h.sublist.subset hrow)).1

theorem eq_iff {cs : List String} {rows left : List (List Char)} (h : Sheds cs rows left) :
    rows.filter isCode = left ↔ strayCount cs = 0 := by
  have hlength := h.length_eq
  constructor
  · intro heq
    rw [heq] at hlength
    omega
  · intro hzero
    exact (h.sublist.eq_of_length (by omega)).symm

end Sheds

/-! ## Indented rows -/

/-- The row without a carriage return at its end. -/
def trimReturn : List Char → List Char
  | [] => []
  | ['\r'] => []
  | c :: rest => c :: trimReturn rest

/-- A row one level deeper, if it starts a line. -/
def indentRow (fresh : Bool) (row : List Char) : List Char :=
  if row = [] then [] else margin fresh ++ row

theorem mem_of_mem_trimReturn {c : Char} {row : List Char} (h : c ∈ trimReturn row) : c ∈ row := by
  fun_induction trimReturn row with
  | case1 | case2 => contradiction
  | case3 d row _ ih =>
    rcases List.mem_cons.mp h with rfl | h
    · exact List.mem_cons_self
    · exact List.mem_cons_of_mem d (ih h)

theorem isRemark_trimReturn (row : List Char) : isRemark (trimReturn row) = isRemark row := by
  fun_induction trimReturn row with
  | case1 | case2 => rfl
  | case3 c row hreturn ih =>
    by_cases hblank : c = ' '
    · subst hblank
      exact ih
    by_cases hslash : c = '/'
    · subst hslash
      fun_cases trimReturn row with
      | case1 | case2 => rfl
      | case3 d row => by_cases hd : d = '/' <;> simp [isRemark, hd]
    · rw [isRemark_cons hblank hslash, isRemark_cons hblank hslash]

theorem isRemark_indentRow (row : List Char) : isRemark (indentRow true row) = isRemark row := by
  rw [indentRow]
  split
  · next h => rw [h]
  · exact isRemark_margin row

/-- A row is indented on its own, without the carriage return before its line feed. -/
theorem shift_row (fresh : Bool) {row : List Char} (hrow : '\n' ∉ row) {rest : List Char}
    (hrest : rest ≠ []) :
    shift fresh (row ++ '\n' :: rest) =
      indentRow fresh (trimReturn row) ++ '\n' :: shift true rest := by
  fun_induction trimReturn row generalizing fresh with
  | case1 => simp [shift, indentRow]
  | case2 => simp [shift, indentRow]
  | case3 c row hreturn ih =>
    rw [List.mem_cons, not_or] at hrow
    have hnext : ∀ tail, c = '\r' → row ++ '\n' :: rest ≠ '\n' :: tail := by
      intro tail hc h
      cases row with
      | nil => exact hreturn hc rfl
      | cons d row => exact hrow.2 ((List.cons.inj h).1 ▸ List.mem_cons_self)
    rw [List.cons_append, shift_cons fresh (Ne.symm hrow.1) hnext, ih false hrow.2]
    by_cases hnil : trimReturn row = [] <;> simp [indentRow, margin, hnil]

theorem shift_last (fresh : Bool) {last : List Char} (h : '\n' ∉ last) :
    shift fresh last = indentRow fresh last := by
  induction last generalizing fresh with
  | nil => rfl
  | cons c last ih =>
    rw [List.mem_cons, not_or] at h
    have hnext : ∀ tail, c = '\r' → last ≠ '\n' :: tail := by
      rintro tail - rfl
      exact h.2 List.mem_cons_self
    rw [shift_cons fresh (Ne.symm h.1) hnext, ih false h.2]
    by_cases hnil : last = [] <;> simp [indentRow, margin, hnil]

def indentEnded (row : List Char) : List Char := indentRow true (trimReturn row)

theorem shift_ended {rows : List (List Char)} (hrows : ∀ row ∈ rows, '\n' ∉ row) {last : List Char}
    (hlast : '\n' ∉ last) (hne : last ≠ []) :
    shift true (ended rows ++ last) = ended (rows.map indentEnded) ++ (margin true ++ last) := by
  induction rows with
  | nil =>
    rw [ended_nil, List.nil_append, shift_last true hlast, indentRow, if_neg hne]
    rfl
  | cons row rows ih =>
    rw [List.forall_mem_cons] at hrows
    have hrest : ended rows ++ last ≠ [] := List.append_ne_nil_of_right_ne_nil _ hne
    rw [ended_cons, List.append_assoc, List.cons_append, shift_row true hrows.1 hrest, ih hrows.2,
      List.map_cons, ended_cons, indentEnded]
    simp

theorem Sheds.indent {cs : List String} {rows left : List (List Char)} (h : Sheds cs rows left) :
    Sheds cs (rows.map indentEnded) (left.map indentEnded) := by
  refine h.map (fun row hrow hmem => ?_) fun row => ?_
  · rw [indentEnded, indentRow] at hmem
    split at hmem
    · contradiction
    · have hmargin : '\n' ∉ margin true := by decide
      exact hrow (mem_of_mem_trimReturn ((List.mem_append.mp hmem).resolve_left hmargin))
  · rw [isCode, indentEnded, isRemark_indentRow, isRemark_trimReturn, isCode]

/-! ## Texts put together -/

/-- A text, and what it is without its comments. The first rows of both are the same and may continue
another row. If there are more rows, the last are the same and settled. -/
inductive Sifts : List String → String → String → Prop
  | line {a : String} (h : '\n' ∉ a.toList) : Sifts [] a a
  | lines {cs : List String} {a b : String} {first last : List Char} {rows left : List (List Char)}
    (hfirst : '\n' ∉ first) (hlast : '\n' ∉ last) (hsettled : isSettled last = true)
    (hrows : Sheds cs rows left) (ha : a.toList = first ++ '\n' :: (ended rows ++ last))
    (hb : b.toList = first ++ '\n' :: (ended left ++ last)) : Sifts cs a b

theorem Sheds.braced {cs : List String} {rows left : List (List Char)} (h : Sheds cs rows left)
    {a b : String} (ha : a.toList = '{' :: '\n' :: (ended rows ++ ['}']))
    (hb : b.toList = '{' :: '\n' :: (ended left ++ ['}'])) : Sifts cs a b := by
  have hopen : '\n' ∉ ['{'] := by decide
  have hclose : '\n' ∉ ['}'] := by decide
  exact .lines hopen hclose rfl h ha hb

theorem feed_not_mem_append {x y : List Char} (hx : '\n' ∉ x) (hy : '\n' ∉ y) : '\n' ∉ x ++ y :=
  List.mem_append.not.mpr (not_or.mpr ⟨hx, hy⟩)

theorem feed_not_mem_intercalate {separator : String} (hseparator : '\n' ∉ separator.toList)
    {texts : List String} (h : ∀ text ∈ texts, '\n' ∉ text.toList) :
    '\n' ∉ (separator.intercalate texts).toList := by
  induction texts with
  | nil => simp
  | cons text texts ih =>
    rw [List.forall_mem_cons] at h
    cases texts with
    | nil => simpa using h.1
    | cons next rest =>
      rw [String.intercalate_cons_cons, String.toList_append, String.toList_append]
      exact feed_not_mem_append (feed_not_mem_append h.1 hseparator) (ih h.2)

namespace Sifts
variable {cs ds : List String} {a b a' b' : String}

theorem append (h : Sifts cs a b) (h' : Sifts ds a' b') : Sifts (cs ++ ds) (a ++ a') (b ++ b') := by
  cases h with
  | line h =>
    cases h' with
    | line h' => exact .line (by rw [String.toList_append]; exact feed_not_mem_append h h')
    | lines hfirst hlast hsettled hrows ha hb =>
      refine .lines (feed_not_mem_append h hfirst) hlast hsettled hrows ?_ ?_
      · rw [String.toList_append, ha, List.append_assoc]
      · rw [String.toList_append, hb, List.append_assoc]
  | @lines _ _ _ first last rows left hfirst hlast hsettled hrows ha hb =>
    cases h' with
    | line h' =>
      rw [List.append_nil]
      refine .lines hfirst (feed_not_mem_append hlast h') (isSettled_append hsettled _) hrows ?_ ?_
      · simp [ha]
      · simp [hb]
    | @lines _ _ _ first' last' rows' left' hfirst' hlast' hsettled' hrows' ha' hb' =>
      -- the last row of the one and the first of the other are one row, which is settled already
      have hmiddle : Sheds [] [last ++ first'] [last ++ first'] :=
        .code (feed_not_mem_append hlast hfirst') (isSettled_append hsettled first')
      have hall := hrows.append (hmiddle.append hrows')
      refine .lines hfirst hlast' hsettled' hall ?_ ?_
      · simp [ha, ha', ended_append, ended_cons]
      · simp [hb, hb', ended_append, ended_cons]

theorem left (h : Sifts cs a b) {x : String} (hx : '\n' ∉ x.toList) : Sifts cs (a ++ x) (b ++ x) := by
  have happend := h.append (.line hx)
  rwa [List.append_nil] at happend

theorem right (h : Sifts cs a b) {x : String} (hx : '\n' ∉ x.toList) : Sifts cs (x ++ a) (x ++ b) :=
  (Sifts.line hx).append h

theorem intercalate {γ : Type} {shown : γ → List String} {render bare : γ → String} {xs : List γ}
    (h : ∀ x ∈ xs, Sifts (shown x) (render x) (bare x)) {separator : String}
    (hseparator : '\n' ∉ separator.toList) :
    Sifts (xs.flatMap shown) (separator.intercalate (xs.map render))
      (separator.intercalate (xs.map bare)) := by
  induction xs with
  | nil => exact .line (by simp)
  | cons x xs ih =>
    rw [List.forall_mem_cons] at h
    cases xs with
    | nil => simpa using h.1
    | cons y ys =>
      simp only [List.map_cons, String.intercalate_cons_cons, List.flatMap_cons] at ih ⊢
      exact (h.1.left hseparator).append (ih h.2)

end Sifts

/-! ## Texts that start a row -/

/-- The text starts with a character that settles its row. -/
def Opens (a : String) : Prop := ∃ c x, a.toList = c :: x ∧ c ≠ ' ' ∧ c ≠ '/' ∧ c ≠ '\n'

/-- A text, and what it is without its comments, where both start a row. -/
def Stands (cs : List String) (a b : String) : Prop :=
  ∃ rows left last, Sheds cs rows left ∧ '\n' ∉ last ∧ isSettled last = true ∧
    a.toList = ended rows ++ last ∧ b.toList = ended left ++ last

theorem isSettled_cons {c : Char} (hblank : c ≠ ' ') (hslash : c ≠ '/') (x : List Char) :
    isSettled (c :: x) = true := by
  rw [isSettled]
  · exact hblank
  · exact hslash

theorem Sifts.stands {cs : List String} {a b : String} (h : Sifts cs a b) (hopens : Opens a) :
    Stands cs a b := by
  obtain ⟨c, x, hx, hblank, hslash, hfeed⟩ := hopens
  cases h with
  | line h => exact ⟨[], [], a.toList, .nil, h, hx ▸ isSettled_cons hblank hslash x, rfl, rfl⟩
  | @lines _ _ _ first last rows left hfirst hlast hsettled hrows ha hb =>
    have hfirstSettled : isSettled first = true := by
      cases first with
      | nil => exact absurd (List.cons.inj (ha.symm.trans hx)).1.symm hfeed
      | cons d first =>
        rw [(List.cons.inj (ha.symm.trans hx)).1]
        exact isSettled_cons hblank hslash first
    have hall := (Sheds.code hfirst hfirstSettled).append hrows
    refine ⟨_, _, last, hall, hlast, hsettled, ?_, ?_⟩
    · simp [ha, ended_cons]
    · simp [hb, ended_cons]

namespace Stands
variable {cs ds : List String} {a b a' b' : String}

theorem left (h : Stands cs a b) {x : String} (hx : '\n' ∉ x.toList) :
    Stands cs (a ++ x) (b ++ x) := by
  obtain ⟨rows, left, last, hrows, hlast, hsettled, ha, hb⟩ := h
  refine ⟨rows, left, _, hrows, feed_not_mem_append hlast hx, isSettled_append hsettled _, ?_, ?_⟩
  · rw [String.toList_append, ha, List.append_assoc]
  · rw [String.toList_append, hb, List.append_assoc]

theorem comment (h : Stands cs a b) (c : String) :
    Stands (c :: cs) ("// " ++ c ++ "\n" ++ a) b := by
  obtain ⟨rows, left, last, hrows, hlast, hsettled, ha, hb⟩ := h
  obtain ⟨first, rest, hsplit⟩ := List.exists_cons_of_ne_nil (List.splitOn_ne_nil '\n' c.toList)
  have hended := ended_splitOn c.toList
  rw [hsplit, ended_cons] at hended
  refine ⟨_, left, last, (Sheds.comment c hsplit).append hrows, hlast, hsettled, ?_, hb⟩
  rw [ended_append, ended_cons]
  have htext : ("// " ++ c ++ "\n" ++ a).toList =
      '/' :: '/' :: ' ' :: ((c.toList ++ ['\n']) ++ a.toList) := by simp
  rw [htext, ← hended, ha]
  simp

theorem comments (h : Stands cs a b) (comments : List String) :
    Stands (comments ++ cs)
      (String.join (comments.map fun comment => "// " ++ comment ++ "\n") ++ a) b := by
  induction comments with
  | nil => simpa using h
  | cons c comments ih =>
    rw [List.map_cons, String.join_cons, String.append_assoc]
    exact ih.comment c

theorem next (h : Stands cs a b) (h' : Stands ds a' b') :
    Stands (cs ++ ds) (a ++ "\n" ++ a') (b ++ "\n" ++ b') := by
  obtain ⟨rows, left, last, hrows, hlast, hsettled, ha, hb⟩ := h
  obtain ⟨rows', left', last', hrows', hlast', hsettled', ha', hb'⟩ := h'
  have hall := hrows.append ((Sheds.code hlast hsettled).append hrows')
  refine ⟨_, _, last', hall, hlast', hsettled', ?_, ?_⟩
  · simp [ha, ha', ended_append, ended_cons]
  · simp [hb, hb', ended_append, ended_cons]

theorem intercalate {γ : Type} {shown : γ → List String} {render bare : γ → String} {xs : List γ}
    (hne : xs ≠ []) (h : ∀ x ∈ xs, Stands (shown x) (render x) (bare x)) :
    Stands (xs.flatMap shown) ("\n".intercalate (xs.map render)) ("\n".intercalate (xs.map bare)) := by
  induction xs with
  | nil => contradiction
  | cons x xs ih =>
    rw [List.forall_mem_cons] at h
    cases xs with
    | nil => simpa using h.1
    | cons y ys =>
      simp only [List.map_cons, String.intercalate_cons_cons, List.flatMap_cons] at ih ⊢
      exact h.1.next (ih (List.cons_ne_nil y ys) h.2)

/-- A text that starts a row goes on the row after a line feed. -/
theorem feed (h : Stands cs a b) : Sifts cs ("\n" ++ a) ("\n" ++ b) := by
  obtain ⟨rows, left, last, hrows, hlast, hsettled, ha, hb⟩ := h
  refine .lines List.not_mem_nil hlast hsettled hrows ?_ ?_
  · simp [ha]
  · simp [hb]

/-- Between braces every row is one level deeper, and the braces have rows of their own. -/
theorem braced (h : Stands cs a b) :
    Sifts cs ("\x7b\n" ++ indent a ++ "\n\x7d") ("\x7b\n" ++ indent b ++ "\n\x7d") := by
  obtain ⟨rows, left, last, hrows, hlast, hsettled, ha, hb⟩ := h
  have hne : last ≠ [] := by
    rintro rfl
    contradiction
  have hdeeper : Sheds [] [margin true ++ last] [margin true ++ last] :=
    .code (feed_not_mem_append (by decide) hlast) hsettled
  have hall := hrows.indent.append hdeeper
  rw [List.append_nil] at hall
  have hfull := shift_ended hrows.feed_not_mem hlast hne
  have hbare := shift_ended hrows.left_feed_not_mem hlast hne
  refine hall.braced ?_ ?_
  · simp [toList_indent, ha, hfull, ended_append, ended_cons, ended_nil]
  · simp [toList_indent, hb, hbare, ended_append, ended_cons, ended_nil]

/-- No row of code is left out, and what is left besides are the stray rows of comments. -/
theorem withoutRemarks (h : Stands cs a b) :
    (rowsOf b).Sublist (rowsOf (Text.withoutRemarks a)) ∧
      (rowsOf (Text.withoutRemarks a)).length = (rowsOf b).length + strayCount cs ∧
      (Text.withoutRemarks a = b ↔ strayCount cs = 0) := by
  obtain ⟨rows, left, last, hrows, hlast, hsettled, ha, hb⟩ := h
  have hkept : (Text.withoutRemarks a).toList = ended (rows.filter isCode) ++ last := by
    rw [Text.withoutRemarks, String.toList_ofList, rowsOf, ha, splitOn_ended hrows.feed_not_mem hlast,
      List.filter_append, List.filter_singleton, isCode_of_isSettled hsettled, cond_true,
      ended_append_eq]
  have hfiltered : ∀ row ∈ rows.filter isCode, '\n' ∉ row := fun row hrow =>
    hrows.feed_not_mem row (List.mem_filter.mp hrow).1
  have hsplit := splitOn_ended hfiltered hlast
  have hsplit' := splitOn_ended hrows.left_feed_not_mem hlast
  rw [rowsOf, rowsOf, hkept, hb, hsplit, hsplit']
  refine ⟨hrows.sublist.append_right [last], ?_, ?_⟩
  · rw [List.length_append, List.length_append, hrows.length_eq]
    omega
  · rw [← hrows.eq_iff, ← String.toList_inj, hkept, hb]
    constructor
    · intro heq
      rw [heq, hsplit'] at hsplit
      exact (List.append_cancel_right hsplit).symm
    · intro heq
      rw [heq]

end Stands

end Graft.Text
