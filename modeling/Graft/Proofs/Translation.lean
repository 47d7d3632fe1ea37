import Graft.Proofs.StockPlan

/-! # The bypass pass as a translation

`translate` is the table of the bypass pass written as a structural recursion: each access becomes a
call on the bypass class whose arguments are translations of its parts, access on a runtime class
stays what it is with its parts translated, and so does everything else. The pass itself works from
the top down and goes on with the children of the calls it has just made. It gives the same result
(`run_bypass_eq_translate`), because a translation unfolds as its walk does (`translate_eq`).
-/

set_option autoImplicit false

namespace Graft

/-! ## Runtime classes -/

/-- Whether a name is that of the timer, the bypass or the no-value class, up to a leading backslash. -/
def Settings.isRuntime (s : Settings) (name : Name) : Bool :=
  name.parts = s.timerName.parts || name.parts = s.bypassName.parts ||
    name.parts = s.noValueName.parts

/-- Whether a reference names a runtime class. -/
def Settings.exempts (s : Settings) : Reference Tree → Bool
  | .named name => s.isRuntime name
  | .computed _ => false

theorem Settings.exempts_timerName (s : Settings) : s.exempts (.named s.timerName) = true := by
  simp [exempts, isRuntime]

theorem Settings.exempts_bypassName (s : Settings) : s.exempts (.named s.bypassName) = true := by
  simp [exempts, isRuntime]

theorem Settings.exempts_noValueName (s : Settings) : s.exempts (.named s.noValueName) = true := by
  simp [exempts, isRuntime]

/-- A call on the bypass class. -/
def Settings.bypassCall (s : Settings) (method : String) (args : List (Arg Tree)) : Form Tree :=
  .staticCall (.named s.bypassName) (.named method) args

/-! ## The translation -/

section
variable (s : Settings)

mutual

def translate : Tree → Tree
  | ⟨form, attrs⟩ => ⟨translateForm form, attrs⟩

def translateForm : Form Tree → Form Tree
  | .property object name =>
    s.bypassCall "fetchProperty" [.plain (translate object), .plain (translateName name)]
  | .methodCall object name args =>
    s.bypassCall "callMethod"
      (.plain (translate object) :: .plain (translateName name) :: translateArgs args)
  | .staticProperty owner name =>
    if s.exempts owner then .staticProperty (translateReference owner) (translateMember name)
    else s.bypassCall "fetchStaticProperty"
      [.plain (translateClass owner), .plain (translateName name)]
  | .staticCall owner name args =>
    if s.exempts owner then
      .staticCall (translateReference owner) (translateMember name) (translateArgs args)
    else s.bypassCall "callStatic"
      (.plain (translateClass owner) :: .plain (translateName name) :: translateArgs args)
  | .classConstant owner name =>
    if s.exempts owner then .classConstant (translateReference owner) (translateMember name)
    else s.bypassCall "fetchClassConst" [.plain (translateClass owner), .plain (translateName name)]
  | .construct owner args =>
    if s.exempts owner || !s.redirectConstruction then
      .construct (translateReference owner) (translateArgs args)
    else s.bypassCall "newInstance" (.plain (translateClass owner) :: translateArgs args)
  | .assign ⟨.property object name, _⟩ value =>
    s.bypassCall "assignProperty"
      [.plain (translate object), .plain (translateName name), .plain (translate value)]
  | .assign ⟨.staticProperty owner name, attrs⟩ value =>
    if s.exempts owner then
      .assign ⟨.staticProperty (translateReference owner) (translateMember name), attrs⟩
        (translate value)
    else s.bypassCall "assignStaticProperty"
      [.plain (translateClass owner), .plain (translateName name), .plain (translate value)]
  | .assign target value => .assign (translate target) (translate value)
  | .literal value => .literal value
  | .var name => .var name
  | .constant name => .constant name
  | .array items => .array (translateList items)
  | .binary op left right => .binary op (translate left) (translate right)
  | .unary op operand => .unary op (translate operand)
  | .call callee args => .call (translateReference callee) (translateArgs args)
  | .closure params captures isStatic body =>
    .closure (translateParams params) captures isStatic (translateList body)
  | .arrow params body => .arrow (translateParams params) (translate body)
  | .expression expr => .expression (translate expr)
  | .ret value => .ret (translateOption value)
  | .echo values => .echo (translateList values)
  | .branch condition yes no =>
    .branch (translate condition) (translateList yes) (translateOptionList no)
  | .loop condition body => .loop (translate condition) (translateList body)
  | .block statements => .block (translateList statements)
  | .function name params body => .function name (translateParams params) (translateList body)
  | .classDecl name parent members => .classDecl name parent (translateList members)
  | .method name visibility isStatic params body =>
    .method name visibility isStatic (translateParams params) (translateList body)
  | .propertyDecl name visibility isStatic default =>
    .propertyDecl name visibility isStatic (translateOption default)
  | .constantDecl name visibility value => .constantDecl name visibility (translate value)

/-- A member name as an argument: a literal without attributes, or the expression. -/
def translateName : Member Tree → Tree
  | .named text => ⟨.literal (.str text), .empty⟩
  | .computed expr => translate expr

/-- A class as an argument: a literal without attributes and leading backslash, or the expression. -/
def translateClass : Reference Tree → Tree
  | .named name => ⟨.literal (.str name.text), .empty⟩
  | .computed expr => translate expr

def translateMember : Member Tree → Member Tree
  | .named text => .named text
  | .computed expr => .computed (translate expr)

def translateReference : Reference Tree → Reference Tree
  | .named name => .named name
  | .computed expr => .computed (translate expr)

def translateArgs : List (Arg Tree) → List (Arg Tree)
  | [] => []
  | ⟨value, byRef, unpack⟩ :: rest => ⟨translate value, byRef, unpack⟩ :: translateArgs rest

def translateParams : List (Param Tree) → List (Param Tree)
  | [] => []
  | ⟨name, default, byRef, variadic⟩ :: rest =>
    ⟨name, translateOption default, byRef, variadic⟩ :: translateParams rest

def translateList : List Tree → List Tree
  | [] => []
  | t :: rest => translate t :: translateList rest

def translateOption : Option Tree → Option Tree
  | none => none
  | some t => some (translate t)

def translateOptionList : Option (List Tree) → Option (List Tree)
  | none => none
  | some ts => some (translateList ts)

end

/-! ## Parts -/

theorem translate_mk (t : Tree) : translate s t = ⟨translateForm s t.form, t.attrs⟩ := by
  cases t
  rfl

theorem translateName_eq (m : Member Tree) : translateName s m = translate s m.argument := by
  cases m <;> rfl

theorem translateClass_eq (r : Reference Tree) : translateClass s r = translate s r.argument := by
  cases r <;> rfl

theorem translateMember_eq (m : Member Tree) : translateMember s m = m.map (translate s) := by
  cases m <;> rfl

theorem translateReference_eq (r : Reference Tree) :
    translateReference s r = r.map (translate s) := by
  cases r <;> rfl

theorem translateArgs_eq (args : List (Arg Tree)) :
    translateArgs s args = args.map (·.map (translate s)) := by
  induction args with
  | nil => rfl
  | cons a args ih =>
    rw [translateArgs, ih]
    rfl

theorem translateOption_eq (o : Option Tree) : translateOption s o = o.map (translate s) := by
  cases o <;> rfl

theorem translateParams_eq (params : List (Param Tree)) :
    translateParams s params = params.map (·.map (translate s)) := by
  induction params with
  | nil => rfl
  | cons p params ih =>
    rw [translateParams, ih, translateOption_eq]
    rfl

theorem translateList_eq (ts : List Tree) : translateList s ts = ts.map (translate s) := by
  induction ts with
  | nil => rfl
  | cons t ts ih => rw [translateList, ih, List.map_cons]

theorem translateOptionList_eq (o : Option (List Tree)) :
    translateOptionList s o = o.map (·.map (translate s)) := by
  cases o with
  | none => rfl
  | some ts => rw [translateOptionList, translateList_eq, Option.map_some]

/-! ## The translation unfolds as the walk of the pass -/

theorem isRuntime_ofSettings (r : Reference Tree) :
    (Bypass.ofSettings s).isRuntime r = s.exempts r := by
  cases r with
  | named name =>
    simp only [Bypass.isRuntime, Bypass.ofSettings, Settings.exempts, Settings.isRuntime,
      List.any_cons, List.any_nil, Bool.or_false, eq_comm, Bool.or_assoc]
  | computed expr => rfl

theorem exempts_of_ne {owner : Reference Tree}
    (h : (Bypass.ofSettings s).isRuntime owner ≠ false) : s.exempts owner = true := by
  rw [← isRuntime_ofSettings]
  exact eq_true_of_ne_false h

/-- Where the pass makes a call, the translation is that call with translated arguments. -/
theorem translateForm_of_redirects {form : Form Tree} {access : Access}
    (h : (Bypass.ofSettings s).Redirects form access) :
    translateForm s form = .staticCall (.named s.bypassName) (.named access.method)
      ((Access.arguments form).map (·.map (translate s))) := by
  cases h with
  | property object name =>
    rw [translateForm, translateName_eq]
    rfl
  | methodCall object name args =>
    rw [translateForm, translateName_eq, translateArgs_eq]
    rfl
  | staticProperty owner name h =>
    rw [isRuntime_ofSettings] at h
    rw [translateForm, h, translateClass_eq, translateName_eq]
    rfl
  | staticCall owner name args h =>
    rw [isRuntime_ofSettings] at h
    rw [translateForm, h, translateClass_eq, translateName_eq, translateArgs_eq]
    rfl
  | classConstant owner name h =>
    rw [isRuntime_ofSettings] at h
    rw [translateForm, h, translateClass_eq, translateName_eq]
    rfl
  | construct owner args h hset =>
    rw [isRuntime_ofSettings] at h
    have hset : s.redirectConstruction = true := hset
    rw [translateForm, h, hset, translateClass_eq, translateArgs_eq]
    rfl
  | assignProperty object name attrs value =>
    rw [translateForm, translateName_eq]
    rfl
  | assignStaticProperty owner name attrs value h =>
    rw [isRuntime_ofSettings] at h
    rw [translateForm, h, translateClass_eq, translateName_eq]
    rfl

/-- Where the pass keeps a tree, the translation goes on with the children. -/
theorem translateForm_of_not_redirects {form : Form Tree}
    (h : ∀ access, ¬(Bypass.ofSettings s).Redirects form access) :
    translateForm s form = form.map (translate s) := by
  cases form
  case property object name => exact absurd (.property object name) (h _)
  case methodCall object name args => exact absurd (.methodCall object name args) (h _)
  case staticProperty owner name =>
    have howner := exempts_of_ne s fun hn => h _ (.staticProperty owner name hn)
    rw [translateForm, if_pos howner, translateReference_eq, translateMember_eq, Form.map]
  case staticCall owner name args =>
    have howner := exempts_of_ne s fun hn => h _ (.staticCall owner name args hn)
    rw [translateForm, if_pos howner, translateReference_eq, translateMember_eq, translateArgs_eq,
      Form.map]
  case classConstant owner name =>
    have howner := exempts_of_ne s fun hn => h _ (.classConstant owner name hn)
    rw [translateForm, if_pos howner, translateReference_eq, translateMember_eq, Form.map]
  case construct owner args =>
    have howner : (s.exempts owner || !s.redirectConstruction) = true := by
      cases hset : s.redirectConstruction with
      | false => simp
      | true => simp [exempts_of_ne s fun hn => h _ (.construct owner args hn hset)]
    rw [translateForm, if_pos howner, translateReference_eq, translateArgs_eq, Form.map]
  case assign target value =>
    obtain ⟨target, attrs⟩ := target
    cases target
    case property object name => exact absurd (.assignProperty object name attrs value) (h _)
    case staticProperty owner name =>
      have howner := exempts_of_ne s fun hn => h _ (.assignStaticProperty owner name attrs value hn)
      rw [translateForm, if_pos howner, translateReference_eq, translateMember_eq, Form.map,
        translate, translateForm, if_pos howner, translateReference_eq, translateMember_eq]
    all_goals simp only [translateForm, Form.map]
  all_goals
    simp only [translateForm, Form.map, translateReference_eq, translateArgs_eq, translateParams_eq,
      translateList_eq, translateOption_eq, translateOptionList_eq]

/-- The translation of a tree unfolds as a walk of the bypass pass does. -/
theorem translate_eq (depth : Nat) (t : Tree) :
    translate s t = ⟨((Stock.bypass (.ofSettings s)).enter depth t).form.map (translate s),
      ((Stock.bypass (.ofSettings s)).enter depth t).attrs⟩ := by
  by_cases h : ∃ access, (Bypass.ofSettings s).Redirects t.form access
  · obtain ⟨access, h⟩ := h
    rw [Stock.enter_bypass_of_redirects depth h, translate_mk, translateForm_of_redirects s h]
    rfl
  · have hnot := not_exists.mp h
    rw [Stock.enter_bypass_of_not_redirects depth hnot, translate_mk,
      translateForm_of_not_redirects s hnot]

theorem rewrite_bypass (depth : Nat) (t : Tree) :
    (Stock.plan [.bypass (.ofSettings s)]).rewrite depth t = translate s t :=
  ((Stock.plan [.bypass (.ofSettings s)]).eq_rewrite (fun _ => translate s)
    (translate_eq s) depth t).symm

theorem run_bypass (ts : Forest) :
    (run [(Bypass.ofSettings s).pass] ts).result =
      .ok (ts.map (translate s),
        .total (ts.map ((Stock.plan [.bypass (.ofSettings s)]).tally 0))) := by
  obtain ⟨journal, h⟩ := Stock.run_eq [.bypass (.ofSettings s)] 0 ts
  have hrewrite : (Stock.plan [.bypass (.ofSettings s)]).rewrite 0 = translate s :=
    funext (rewrite_bypass s 0)
  show (run ([Stock.bypass (.ofSettings s)].map (Stock.pass 0)) ts).result = _
  rw [h, hrewrite]
  rfl

/-- A run of the bypass pass succeeds and gives the translation of every tree of a forest. -/
theorem run_bypass_eq_translate (ts : Forest) :
    ∃ tally, (run [(Bypass.ofSettings s).pass] ts).result = .ok (ts.map (translate s), tally) :=
  ⟨_, run_bypass s ts⟩

end

end Graft
