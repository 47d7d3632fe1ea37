import Graft.Proofs.Indentation
import Graft.Proofs.Translation
import Graft.Tree.Make
import Graft.Tree.Source

/-! # Reading single-quoted literals

The reader of a single-quoted literal, said on its own and not through the writer (`Text.readQuoted`).
What is written for a text is read as that text, and what follows is left over, whatever it is
(`readQuoted_escape`). The bypass pass passes class and member names on as such literals, so each of
them is read from its place among the arguments of the call, and nothing of it is left to be read as
anything else (`readLiteral?_source`).
-/

set_option autoImplicit false

namespace Graft
open Printed

namespace Text

/-! ## The reader -/

/-- The text up to the closing quote, and what follows it. A backslash before a quote or a backslash
gives that character, any other stands for itself, and the first other quote closes the text. -/
def readQuoted : List Char → Option (List Char × List Char)
  | [] => none
  | '\'' :: rest => some ([], rest)
  | '\\' :: '\'' :: rest => (readQuoted rest).map (Prod.map ('\'' :: ·) id)
  | '\\' :: '\\' :: rest => (readQuoted rest).map (Prod.map ('\\' :: ·) id)
  | c :: rest => (readQuoted rest).map (Prod.map (c :: ·) id)

/-- The text of the literal that a source starts with, and the source after it. -/
def readLiteral? (source : String) : Option (String × String) :=
  match source.toList with
  | '\'' :: rest => (readQuoted rest).map (Prod.map String.ofList String.ofList)
  | _ => none

/-- The closing quote is the first that is left as it is: every quote of the text itself comes after a
backslash, and so does every backslash. -/
theorem readQuoted_escape (x rest : List Char) :
    readQuoted (escape x ++ '\'' :: rest) = some (x, rest) := by
  fun_induction escape x with
  | case1 => rfl
  | case2 x ih | case3 x ih =>
    rw [List.cons_append, List.cons_append, readQuoted, ih]
    rfl
  | case4 c x hquote hslash ih =>
    rw [List.cons_append, readQuoted, ih]
    · rfl
    · exact hquote
    · intro _ h
      exact absurd h hslash
    · intro _ h
      exact absurd h hslash

theorem readLiteral?_quote (s rest : String) : readLiteral? (quote s ++ rest) = some (s, rest) := by
  have hsource : (quote s ++ rest).toList = '\'' :: (escape s.toList ++ '\'' :: rest.toList) := by
    simp [toList_quote, quoted]
  rw [readLiteral?, hsource]
  simp only [readQuoted_escape, Option.map_some, Prod.map_apply, String.ofList_toList]

-- a backslash that escapes nothing is read as itself, though none is written so
example : readLiteral? "'\\a\\'\\\\';" = some ("\\a'\\", ";") := by decide

end Text

/-! ## Arguments of calls -/

theorem commas_cons (a : String) (after : List String) :
    commas (a :: after) = a ++ String.join (after.map (", " ++ ·)) := by
  induction after generalizing a with
  | nil => simp [commas]
  | cons b after ih =>
    rw [commas, String.intercalate_cons_cons, ← commas, ih]
    simp [String.append_assoc]

theorem commas_around (before after : List String) (a : String) :
    commas (before ++ a :: after) =
      String.join (before.map (· ++ ", ")) ++ (a ++ String.join (after.map (", " ++ ·))) := by
  induction before with
  | nil => simp [commas_cons]
  | cons b before ih =>
    obtain ⟨c, rest, hrest⟩ : ∃ c rest, before ++ a :: after = c :: rest :=
      List.exists_cons_of_ne_nil (by simp)
    rw [List.cons_append, hrest, commas, String.intercalate_cons_cons, ← commas, ← hrest, ih]
    simp [String.append_assoc]

namespace RuntimeCall

/-- The source of a call up to an argument, by the arguments before it. -/
def opening (target : Name) (method : String) (before : List (Arg Tree)) : String :=
  target.source ++ "::" ++ method ++ "(" ++ String.join (before.map (·.source ++ ", "))

/-- The source of a call after an argument, by the arguments that follow. -/
def closing (after : List (Arg Tree)) : String := String.join (after.map (", " ++ ·.source)) ++ ")"

theorem source_tree (c : RuntimeCall) (attrs : Attributes) :
    (c.tree attrs).source =
      c.target.source ++ "::" ++ c.method ++ parens (commas (c.args.map Arg.source)) := by
  have harg : Arg.render ∘ Arg.map Tree.print = Arg.source := rfl
  rw [tree, Tree.source_mk]
  simp [Form.map, Form.render, Reference.map, Reference.render, Member.map, Member.render, argList, harg]

theorem source_tree_around (target : Name) (method : String) (before after : List (Arg Tree))
    (a : Arg Tree) (attrs : Attributes) :
    (tree ⟨target, method, before ++ a :: after⟩ attrs).source =
      opening target method before ++ (a.source ++ closing after) := by
  rw [source_tree, List.map_append, List.map_cons, commas_around, opening, closing, parens]
  simp [String.append_assoc, Function.comp_def]

end RuntimeCall

theorem source_plain_text (s : String) : (Arg.plain (Tree.text s)).source = (Literal.str s).source := by
  rw [Arg.source, Arg.map, Arg.render, Tree.print, Arg.plain, Tree.text, Tree.bare, Tree.source_mk]
  rfl

/-! ## Names of redirected access -/

namespace Access

/-- What an assignment writes to; any other form itself. -/
def place : Form Tree → Form Tree
  | .assign target _ => target.form
  | form => form

/-- The access spells out a name, that of its class or that of its member. -/
def Names (form : Form Tree) (s : String) : Prop :=
  (∃ name : Name, (place form).reference? = some (.named name) ∧ s = name.text) ∨
    (place form).member? = some (.named s)

end Access

namespace Bypass
variable {b : Bypass} {form : Form Tree} {access : Access}

theorem Redirects.reference_mem (h : b.Redirects form access) {r : Reference Tree}
    (hr : (Access.place form).reference? = some r) : .plain r.argument ∈ Access.arguments form := by
  cases h <;> cases hr <;> simp [Access.arguments]

theorem Redirects.member_mem (h : b.Redirects form access) {m : Member Tree}
    (hm : (Access.place form).member? = some m) : .plain m.argument ∈ Access.arguments form := by
  cases h <;> cases hm <;> simp [Access.arguments]

theorem Redirects.exists_text (h : b.Redirects form access) {s : String} (hs : Access.Names form s) :
    ∃ before after, Access.arguments form = before ++ .plain (.text s) :: after := by
  rcases hs with ⟨name, hr, rfl⟩ | hm
  · exact List.append_of_mem (h.reference_mem hr)
  · exact List.append_of_mem (h.member_mem hm)

end Bypass

theorem translate_text (settings : Settings) (s : String) :
    translate settings (.text s) = .text s := rfl

/-- Every name that a redirected access spells out is an argument of the call in its place. -/
theorem exists_translate_eq_call (settings : Settings) {t : Tree} {access : Access}
    (haccess : (Bypass.ofSettings settings).access? t = some access) {s : String}
    (hs : Access.Names t.form s) :
    ∃ before after, translate settings t = RuntimeCall.tree
      ⟨settings.bypassName, access.method, before ++ .plain (.text s) :: after⟩ t.attrs := by
  have h := ((Bypass.ofSettings settings).access?_eq_some_iff t access).mp haccess
  obtain ⟨before, after, hargs⟩ := h.exists_text hs
  refine ⟨before.map (·.map (translate settings)), after.map (·.map (translate settings)), ?_⟩
  rw [translate_mk, translateForm_of_redirects settings h, hargs, List.map_append, List.map_cons,
    Arg.plain, Arg.map, translate_text]
  rfl

/-- A literal is read as its text and ends where it should, whatever follows. So each name that a
redirected access spells out is read from its place among the arguments of the call that the bypass
pass puts there, and what is left is the rest of the call. -/
theorem readLiteral?_source (s rest : String) :
    Text.readLiteral? ((Literal.str s).source ++ rest) = some (s, rest) ∧
      ∀ (settings : Settings) (t : Tree) (access : Access),
        (Bypass.ofSettings settings).access? t = some access → Access.Names t.form s →
          ∃ before after call tally,
            call = RuntimeCall.tree
              ⟨settings.bypassName, access.method, before ++ .plain (.text s) :: after⟩ t.attrs ∧
            (run [(Bypass.ofSettings settings).pass] [t]).result = .ok ([call], tally) ∧
            call.source = RuntimeCall.opening settings.bypassName access.method before ++
              ((Literal.str s).source ++ RuntimeCall.closing after) ∧
            Text.readLiteral? ((Literal.str s).source ++ RuntimeCall.closing after) =
              some (s, RuntimeCall.closing after) := by
  refine ⟨Text.readLiteral?_quote s rest, fun settings t access haccess hs => ?_⟩
  obtain ⟨before, after, hcall⟩ := exists_translate_eq_call settings haccess hs
  have hrun := run_bypass settings [t]
  rw [List.map_singleton, hcall] at hrun
  refine ⟨before, after, _, _, rfl, hrun, ?_, Text.readLiteral?_quote s _⟩
  rw [RuntimeCall.source_tree_around, source_plain_text]

/-- A member name with a quote in it and a backslash at its end, before the closing quote. -/
theorem readLiteral?_source_property :
    Text.readLiteral? "'it\\'s\\\\';" = some ("it's\\", ";") ∧
      (Bypass.ofSettings {}).access? (Make.property (Make.var "a") "it's\\") = some .fetchProperty ∧
      Access.Names (Make.property (Make.var "a") "it's\\").form "it's\\" ∧
      ∃ call tally front rest,
        (run [(Bypass.ofSettings {}).pass] [Make.property (Make.var "a") "it's\\"]).result =
            .ok ([call], tally) ∧
          call.source = front ++ ("'it\\'s\\\\'" ++ rest) ∧
          Text.readLiteral? ("'it\\'s\\\\'" ++ rest) = some ("it's\\", rest) := by
  have haccess : (Bypass.ofSettings {}).access? (Make.property (Make.var "a") "it's\\") =
      some .fetchProperty := rfl
  have hnames : Access.Names (Make.property (Make.var "a") "it's\\").form "it's\\" := .inr rfl
  have hliteral : (Literal.str "it's\\").source = "'it\\'s\\\\'" := by decide
  have hread := readLiteral?_source "it's\\" ";"
  rw [hliteral] at hread
  obtain ⟨_, _, call, tally, -, hrun, hsource, hrest⟩ := hread.2 {} _ _ haccess hnames
  exact ⟨hread.1, haccess, hnames, call, tally, _, _, hrun, hsource, hrest⟩

end Graft
