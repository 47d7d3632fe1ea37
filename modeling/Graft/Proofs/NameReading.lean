import Graft.Proofs.Operations
import Graft.RuntimeCall
import Graft.Settings

/-! # Reading names

What makes a text the text of a valid name, said without reading it: some backslashes come first, then
identifiers with one backslash between each two (`Name.Spells`). Reading drops all the backslashes in
front, so it makes no difference how many there are (`isValid_read_iff`), and none of them is there
when the name is written and read again (`read_written`). Settings are valid exactly if their class
names are such texts, and otherwise the first that is not is the error (`check_classNames`).
-/

set_option autoImplicit false

namespace Graft

namespace Name

/-! ## Texts of names -/

/-- A letter or an underscore, then letters, numbers and underscores. -/
inductive Identifier : List Char → Prop
  | mk {first : Char} {rest : List Char} (hfirst : Text.isAlphabetic first = true ∨ first = '_')
    (hrest : ∀ c ∈ rest, Text.isAlphabetic c = true ∨ Text.isNumeric c = true ∨ c = '_') :
    Identifier (first :: rest)

theorem isIdentifier_iff (x : List Char) : isIdentifier x = true ↔ Identifier x := by
  constructor
  · intro h
    cases x with
    | nil => contradiction
    | cons first rest =>
      simp only [isIdentifier, Bool.and_eq_true, List.all_eq_true, startsIdentifier,
        continuesIdentifier, Bool.or_eq_true, decide_eq_true_eq, or_assoc] at h
      exact ⟨h.1, h.2⟩
  · rintro ⟨hfirst, hrest⟩
    simp only [isIdentifier, Bool.and_eq_true, List.all_eq_true, startsIdentifier,
      continuesIdentifier, Bool.or_eq_true, decide_eq_true_eq, or_assoc]
    exact ⟨hfirst, hrest⟩

theorem Identifier.ne_nil {x : List Char} (h : Identifier x) : x ≠ [] := by
  cases h
  exact List.cons_ne_nil _ _

theorem Identifier.backslash_not_mem {x : List Char} (h : Identifier x) : '\\' ∉ x :=
  Graft.backslash_not_mem ((isIdentifier_iff x).mpr h)

/-- Identifiers with one backslash between each two, after so many backslashes. -/
def Spells (leads : Nat) (text : String) : Prop :=
  ∃ parts : List (List Char), parts ≠ [] ∧ (∀ part ∈ parts, Identifier part) ∧
    text.toList = List.replicate leads '\\' ++ ['\\'].intercalate parts

/-! ## Cutting at backslashes -/

theorem segments_eq (x : List Char) : segments x = x.splitOn '\\' := by
  induction x with
  | nil => rfl
  | cons c x ih =>
    rw [segments, ih, List.splitOn_cons_eq_if_modifyHead]
    by_cases hc : c = '\\'
    · simp [hc]
    · obtain ⟨part, parts, hparts⟩ := List.exists_cons_of_ne_nil (List.splitOn_ne_nil '\\' x)
      simp [hc, hparts]

theorem head_intercalate_ne {parts : List (List Char)} (hparts : ∀ part ∈ parts, Identifier part)
    {c : Char} {x : List Char} (h : ['\\'].intercalate parts = c :: x) : c ≠ '\\' := by
  cases parts with
  | nil => simp at h
  | cons part parts =>
    obtain ⟨hpart, -⟩ := List.forall_mem_cons.mp hparts
    obtain ⟨first, rest, rfl⟩ := List.exists_cons_of_ne_nil hpart.ne_nil
    have hfirst : first = c := by
      cases parts with
      | nil => simpa using congrArg List.head? h
      | cons next parts => simpa [List.intercalate_cons_cons] using congrArg List.head? h
    rintro rfl
    exact hpart.backslash_not_mem (hfirst ▸ List.mem_cons_self)

/-- The backslashes in front are those that come before the first identifier. -/
theorem span_of_spells {leads : Nat} {parts : List (List Char)}
    (hparts : ∀ part ∈ parts, Identifier part) :
    (List.replicate leads '\\' ++ ['\\'].intercalate parts).dropWhile (· = '\\') =
        ['\\'].intercalate parts ∧
      (List.replicate leads '\\' ++ ['\\'].intercalate parts).takeWhile (· = '\\') =
        List.replicate leads '\\' := by
  have hleads : ∀ c ∈ List.replicate leads '\\', decide (c = '\\') = true := by
    intro c hc
    exact decide_eq_true (List.eq_of_mem_replicate hc)
  rw [List.dropWhile_append_of_pos hleads, List.takeWhile_append_of_pos hleads]
  cases hx : ['\\'].intercalate parts with
  | nil => simp
  | cons c x => simp [head_intercalate_ne hparts hx]

/-! ## Valid names -/

/-- The parts of a name are what is between the backslashes, without those in front. -/
theorem isValid_read (text : String) : (read text).isValid = true ↔
    ∀ part ∈ (text.toList.dropWhile (· = '\\')).splitOn '\\', Identifier part := by
  simp [isValid, read, segments_eq, isIdentifier_iff, List.splitOn_ne_nil]

/-- A text is read as a valid name exactly if it spells one, however many backslashes are in front. -/
theorem isValid_read_iff (text : String) :
    (read text).isValid = true ↔ ∃ leads, Spells leads text := by
  rw [isValid_read]
  constructor
  · intro h
    refine ⟨(text.toList.takeWhile (· = '\\')).length, _, List.splitOn_ne_nil '\\' _, h, ?_⟩
    have hleads : text.toList.takeWhile (· = '\\') =
        List.replicate (text.toList.takeWhile (· = '\\')).length '\\' :=
      List.eq_replicate_of_mem fun c hc => by simpa using List.mem_takeWhile_imp hc
    rw [List.intercalate_splitOn, ← hleads, List.takeWhile_append_dropWhile]
  · rintro ⟨leads, parts, hne, hparts, htext⟩
    rw [htext, (span_of_spells hparts).1,
      List.splitOn_intercalate _ (fun part hpart => (hparts part hpart).backslash_not_mem) hne]
    exact hparts

theorem Spells.leads_eq {leads : Nat} {text : String} (h : Spells leads text) :
    leads = (text.toList.takeWhile (· = '\\')).length := by
  obtain ⟨parts, -, hparts, htext⟩ := h
  rw [htext, (span_of_spells hparts).2, List.length_replicate]

theorem exists_spells_iff_of_not_doubled {text : String} (h : ¬['\\', '\\'] <+: text.toList) :
    (∃ leads, Spells leads text) ↔ ∃ leads ≤ 1, Spells leads text := by
  constructor
  · rintro ⟨leads, parts, hne, hparts, htext⟩
    refine ⟨leads, ?_, parts, hne, hparts, htext⟩
    by_contra hlt
    obtain ⟨n, rfl⟩ := Nat.exists_eq_add_of_le' (Nat.lt_of_not_le hlt)
    rw [htext] at h
    exact h ⟨List.replicate n '\\' ++ ['\\'].intercalate parts, by simp [List.replicate_succ]⟩
  · rintro ⟨leads, -, hspells⟩
    exact ⟨leads, hspells⟩

/-! ## Reading what is written -/

theorem toList_text (n : Name) : n.text.toList = ['\\'].intercalate (n.parts.map String.toList) := by
  rw [text, String.toList_intercalate]
  rfl

/-- The text of a name that was read is what it was read from, without the backslashes in front. -/
theorem toList_text_read (s : String) : (read s).text.toList = s.toList.dropWhile (· = '\\') := by
  have hparts : (read s).parts.map String.toList = (s.toList.dropWhile (· = '\\')).splitOn '\\' := by
    simp [read, segments_eq]
  rw [toList_text, hparts, List.intercalate_splitOn]

/-- Where the text of a name starts with no backslash, one in front of it says that the name is fully
qualified and adds no part. -/
theorem read_source_of_head {n : Name} (h : n.text.toList.head? ≠ some '\\') :
    read n.source = ⟨(n.text.toList.splitOn '\\').map String.ofList, n.qualified⟩ := by
  have hdrop : n.text.toList.dropWhile (· = '\\') = n.text.toList := by
    cases hx : n.text.toList with
    | nil => rfl
    | cons c x =>
      rw [hx, List.head?_cons] at h
      rw [List.dropWhile_cons_of_neg (by simpa using h)]
  cases hq : n.qualified with
  | false =>
    have hsource : n.source = n.text := by simp [source, hq]
    simp [read, segments_eq, hsource, hdrop, h]
  | true =>
    have hsource : n.source.toList = '\\' :: n.text.toList := by simp [source, hq]
    simp [read, segments_eq, hsource, hdrop]

theorem read_source_read (s : String) : read (read s).source = read s := by
  have hhead : (read s).text.toList.head? ≠ some '\\' := by
    intro h
    rw [toList_text_read] at h
    simpa [h] using List.head?_dropWhile_not (fun c => decide (c = '\\')) s.toList
  rw [read_source_of_head hhead, toList_text_read, ← segments_eq]
  rfl

theorem read_source_of_isValid {n : Name} (h : n.isValid = true) : read n.source = n := by
  rw [isValid, Bool.and_eq_true, Bool.not_eq_true', List.isEmpty_eq_false_iff, List.all_eq_true] at h
  obtain ⟨hne, hvalid⟩ := h
  have hparts : ∀ part ∈ n.parts.map String.toList, Identifier part :=
    List.forall_mem_map.mpr fun part hpart => (isIdentifier_iff _).mp (hvalid part hpart)
  have hhead : n.text.toList.head? ≠ some '\\' := by
    intro h
    rw [toList_text] at h
    obtain ⟨x, hx⟩ := List.head?_eq_some_iff.mp h
    exact head_intercalate_ne hparts hx rfl
  have hsplit : n.text.toList.splitOn '\\' = n.parts.map String.toList := by
    rw [toList_text, List.splitOn_intercalate _
      (fun part hpart => (hparts part hpart).backslash_not_mem) (by simpa using hne)]
  rw [read_source_of_head hhead, hsplit]
  simp

/-- Names survive writing and reading: a name read from any text is read again from its source, and so
is every valid name. A class that is passed on as a text is read from it as the same class, fully
qualified. -/
theorem read_written : (∀ s, read (read s).source = read s) ∧
    ∀ n : Name, n.isValid = true → read n.source = n ∧
      (Reference.named n).argument = .text n.text ∧
      readQualified n.text = { n with qualified := true } := by
  refine ⟨read_source_read, fun n h => ⟨read_source_of_isValid h, rfl, ?_⟩⟩
  -- the text of a name is the source of the same name, not qualified
  have hplain : ({ n with qualified := false } : Name).isValid = true := h
  have hsource : ({ n with qualified := false } : Name).source = n.text := if_neg Bool.false_ne_true
  rw [readQualified, qualify, ← hsource, read_source_of_isValid hplain]

/-- A name of two parts; and a text with backslashes in front, in a row and at its end. -/
theorem read_written_parts : (⟨["_a", "b1"], true⟩ : Name).isValid = true ∧
    read "\\_a\\b1" = ⟨["_a", "b1"], true⟩ ∧ readQualified "_a\\b1" = ⟨["_a", "b1"], true⟩ ∧
    read (read "\\\\a\\\\b\\").source = ⟨["a", "", "b", ""], true⟩ := by
  have hvalid : (⟨["_a", "b1"], true⟩ : Name).isValid = true := by decide
  obtain ⟨hagain, hwritten⟩ := read_written
  obtain ⟨hsource, -, htext⟩ := hwritten ⟨["_a", "b1"], true⟩ hvalid
  exact ⟨hvalid, hsource, htext, (hagain "\\\\a\\\\b\\").trans (by decide)⟩

end Name

/-! ## Settings -/

namespace Settings
open Name (Spells isValid_read_iff exists_spells_iff_of_not_doubled)

theorem check_eq_ok_iff (s : Settings) :
    s.check = .ok () ↔ ∀ field ∈ s.classFields, (Name.read field.2).isValid = true := by
  have hfind : s.check = .ok () ↔
      s.classFields.find? (fun field => !(Name.read field.2).isValid) = none := by
    rw [check]
    generalize s.classFields.find? _ = found
    cases found <;> simp
  rw [hfind, List.find?_eq_none]
  simp only [Bool.not_eq_true', Bool.not_eq_false]

theorem check_eq_error_iff (s : Settings) (e : Error) :
    s.check = .error e ↔ ∃ before field value after,
      s.classFields = before ++ (field, value) :: after ∧
        (∀ earlier ∈ before, (Name.read earlier.2).isValid = true) ∧
        (Name.read value).isValid = false ∧ e = .badName field value := by
  have hfind : s.check = .error e ↔ ∃ field value,
      s.classFields.find? (fun field => !(Name.read field.2).isValid) = some (field, value) ∧
        e = .badName field value := by
    rw [check]
    generalize s.classFields.find? _ = found
    cases found with
    | none => simp
    | some found => simp [Prod.ext_iff, eq_comm, and_assoc]
  rw [hfind]
  constructor
  · rintro ⟨field, value, hfirst, rfl⟩
    obtain ⟨hvalue, before, after, hfields, hbefore⟩ := List.find?_eq_some_iff_append.mp hfirst
    exact ⟨before, field, value, after, hfields, by simpa using hbefore, by simpa using hvalue, rfl⟩
  · rintro ⟨before, field, value, after, hfields, hbefore, hvalue, rfl⟩
    refine ⟨field, value, List.find?_eq_some_iff_append.mpr ?_, rfl⟩
    exact ⟨by simpa using hvalue, before, after, hfields, by simpa using hbefore⟩

/-- Settings are valid exactly if each class name is a text of identifiers with single backslashes
between them, after any number of backslashes; the error is the first field in order that is not, with
its value. Where a text does not start with two backslashes, that is the same as at most one in front. -/
theorem check_classNames (s : Settings) :
    (s.check = .ok () ↔ (∃ leads, Spells leads s.timer) ∧ (∃ leads, Spells leads s.bypass) ∧
        ∃ leads, Spells leads s.noValue) ∧
      (∀ e, s.check = .error e ↔ ∃ before field value after,
        [("timer_class", s.timer), ("bypass_class", s.bypass), ("no_return_value_class", s.noValue)] =
            before ++ (field, value) :: after ∧
          (∀ earlier ∈ before, ∃ leads, Spells leads earlier.2) ∧
          (¬∃ leads, Spells leads value) ∧ e = .badName field value) ∧
      ∀ text : String, ¬['\\', '\\'] <+: text.toList →
        ((∃ leads, Spells leads text) ↔ ∃ leads ≤ 1, Spells leads text) := by
  refine ⟨?_, fun e => ?_, fun text => exists_spells_iff_of_not_doubled⟩
  · simp only [check_eq_ok_iff, isValid_read_iff, classFields, List.forall_mem_cons,
      List.not_mem_nil, false_implies, implies_true, and_true]
  · simp only [check_eq_error_iff, ← Bool.not_eq_true, isValid_read_iff, classFields]

/-- Two backslashes in front of a name are accepted. -/
theorem check_doubledLead : ({ timer := "\\\\Foo" } : Settings).check = .ok () ∧
    ¬∃ leads ≤ 1, Spells leads "\\\\Foo" := by
  refine ⟨by decide, ?_⟩
  rintro ⟨leads, hle, hspells⟩
  have hleads : leads = 2 := hspells.leads_eq
  omega

end Settings

end Graft
