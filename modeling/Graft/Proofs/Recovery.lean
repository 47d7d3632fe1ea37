import Graft.Proofs.BypassFixpoint
import Graft.Tree.Make
import Mathlib.Data.List.Forall2

/-! # What the bypass pass keeps

The bypass pass makes calls of one shape out of eight forms of access, and `recover` reads the calls
back. Whether a class or a member was written as a name or as a text cannot be told from a call, nor
can the attributes of the target of an assignment. `Tree.Equivalent` is the congruence that forgets
these, and nothing else is lost: what is recovered from a translation is equivalent to the tree that
was translated (`equivalent_recover`), as long as that tree had no calls on the bypass class of its
own. So forests with the same result are equivalent (`run_bypass_injective`).
-/

set_option autoImplicit false

namespace Graft

/-! ## Spellings -/

/-- A class written in another way: by a name of the same text, or by the text itself. -/
inductive Reference.Respelled : Reference Tree → Reference Tree → Prop
  | refl (r : Reference Tree) : Respelled r r
  | name {n m : Name} (h : n.text = m.text) : Respelled (.named n) (.named m)
  | text (n : Name) : Respelled (.named n) (.computed (.text n.text))

/-- A member written in another way: by a text instead of an identifier. -/
inductive Member.Respelled : Member Tree → Member Tree → Prop
  | refl (m : Member Tree) : Respelled m m
  | text (name : String) : Respelled (.named name) (.computed (.text name))

/-- A form of access with its class or member written in another way, or an assignment to a property
whose target has other attributes. -/
inductive Form.Respelled : Form Tree → Form Tree → Prop
  | property (object : Tree) {m n : Member Tree} (hm : m.Respelled n) :
    Respelled (.property object m) (.property object n)
  | methodCall (object : Tree) {m n : Member Tree} (hm : m.Respelled n) (args : List (Arg Tree)) :
    Respelled (.methodCall object m args) (.methodCall object n args)
  | staticProperty {r q : Reference Tree} {m n : Member Tree} (hr : r.Respelled q)
    (hm : m.Respelled n) : Respelled (.staticProperty r m) (.staticProperty q n)
  | staticCall {r q : Reference Tree} {m n : Member Tree} (hr : r.Respelled q) (hm : m.Respelled n)
    (args : List (Arg Tree)) : Respelled (.staticCall r m args) (.staticCall q n args)
  | classConstant {r q : Reference Tree} {m n : Member Tree} (hr : r.Respelled q)
    (hm : m.Respelled n) : Respelled (.classConstant r m) (.classConstant q n)
  | construct {r q : Reference Tree} (hr : r.Respelled q) (args : List (Arg Tree)) :
    Respelled (.construct r args) (.construct q args)
  | assignProperty (object : Tree) (name : Member Tree) (a b : Attributes) (value : Tree) :
    Respelled (.assign ⟨.property object name, a⟩ value) (.assign ⟨.property object name, b⟩ value)
  | assignStaticProperty (owner : Reference Tree) (name : Member Tree) (a b : Attributes)
    (value : Tree) : Respelled (.assign ⟨.staticProperty owner name, a⟩ value)
      (.assign ⟨.staticProperty owner name, b⟩ value)

/-- The smallest congruence of trees under which a form may be written in another way. -/
inductive Tree.Equivalent : Tree → Tree → Prop
  | respell {form form' : Form Tree} (h : form.Respelled form') (attrs : Attributes) :
    Equivalent ⟨form, attrs⟩ ⟨form', attrs⟩
  | refl (t : Tree) : Equivalent t t
  | symm {t u : Tree} (h : Equivalent t u) : Equivalent u t
  | trans {t u v : Tree} (h : Equivalent t u) (h' : Equivalent u v) : Equivalent t v
  | congr (form : Form (Tree × Tree)) (h : ∀ c ∈ form.children, Equivalent c.1 c.2)
    (attrs : Attributes) : Equivalent ⟨form.map Prod.fst, attrs⟩ ⟨form.map Prod.snd, attrs⟩

theorem Reference.respelled_argument (r : Reference Tree) : r.Respelled (.computed r.argument) := by
  cases r with
  | named name => exact .text name
  | computed expr => exact .refl _

theorem Member.respelled_argument (m : Member Tree) : m.Respelled (.computed m.argument) := by
  cases m with
  | named text => exact .text text
  | computed expr => exact .refl _

theorem Tree.Equivalent.map {f : Tree → Tree} (form : Form Tree)
    (h : ∀ c ∈ form.children, Equivalent (f c) c) (attrs : Attributes) :
    Equivalent ⟨form.map f, attrs⟩ ⟨form, attrs⟩ := by
  have hpairs : ∀ c ∈ (form.map fun c => (f c, c)).children, Equivalent c.1 c.2 := by
    rw [Form.children_map]
    exact List.forall_mem_map.mpr h
  have hcongr := Equivalent.congr (form.map fun c => (f c, c)) hpairs attrs
  rwa [Form.map_map, Form.map_map, Form.map_id] at hcongr

theorem Tree.Equivalent.map_respelled {f : Tree → Tree} {form spelled : Form Tree}
    (hspelled : form.Respelled spelled) (h : ∀ c ∈ spelled.children, Equivalent (f c) c)
    (attrs : Attributes) : Equivalent ⟨spelled.map f, attrs⟩ ⟨form, attrs⟩ :=
  .trans (.map spelled h attrs) (.symm (.respell hspelled attrs))

/-- An assignment may have its target written in another way and without attributes, where these make
no difference. -/
theorem Tree.Equivalent.assign_respelled {f : Tree → Tree} {target spelled : Form Tree}
    {value : Tree} (hspelled : target.Respelled spelled)
    (hattrs : ∀ a b, Form.Respelled (.assign ⟨target, a⟩ value) (.assign ⟨target, b⟩ value))
    (h : ∀ c ∈ spelled.children ++ [value], Equivalent (f c) c) (a attrs : Attributes) :
    Equivalent ⟨.assign ⟨spelled.map f, .empty⟩ (f value), attrs⟩
      ⟨.assign ⟨target, a⟩ value, attrs⟩ := by
  obtain ⟨hparts, hvalue⟩ := List.forall_mem_append.mp h
  have htarget := map_respelled hspelled hparts .empty
  have hassign : Equivalent ⟨.assign ⟨spelled.map f, .empty⟩ (f value), attrs⟩
      ⟨.assign ⟨target, .empty⟩ value, attrs⟩ := by
    refine .congr (.assign (⟨spelled.map f, .empty⟩, ⟨target, .empty⟩) (f value, value)) ?_ attrs
    refine List.forall_mem_cons.mpr ⟨htarget, List.forall_mem_singleton.mpr ?_⟩
    exact hvalue value (List.mem_singleton_self value)
  exact hassign.trans (.respell (hattrs .empty a) attrs)

/-! ## Reading calls back -/

namespace Access

def ofMethod? (method : String) : Option Access :=
  [fetchProperty, assignProperty, callMethod, fetchStaticProperty, assignStaticProperty, callStatic,
    fetchClassConstant, construct].find? (·.method = method)

/-- The form whose access takes the given arguments, with all names written as expressions. -/
def form? : Access → List (Arg Tree) → Option (Form Tree)
  | fetchProperty, [object, name] => some (.property object.value (.computed name.value))
  | assignProperty, [object, name, value] =>
    some (.assign ⟨.property object.value (.computed name.value), .empty⟩ value.value)
  | callMethod, object :: name :: args =>
    some (.methodCall object.value (.computed name.value) args)
  | fetchStaticProperty, [owner, name] =>
    some (.staticProperty (.computed owner.value) (.computed name.value))
  | assignStaticProperty, [owner, name, value] =>
    some (.assign ⟨.staticProperty (.computed owner.value) (.computed name.value), .empty⟩
      value.value)
  | callStatic, owner :: name :: args =>
    some (.staticCall (.computed owner.value) (.computed name.value) args)
  | fetchClassConstant, [owner, name] =>
    some (.classConstant (.computed owner.value) (.computed name.value))
  | construct, owner :: args => some (.construct (.computed owner.value) args)
  | _, _ => none

def ofCall? : Form Tree → Option (Form Tree)
  | .staticCall _ (.named method) args => (ofMethod? method).bind (·.form? args)
  | _ => none

theorem ofMethod?_method (access : Access) : ofMethod? access.method = some access := by
  cases access <;> rfl

end Access

def Settings.callsBypass (s : Settings) : Form Tree → Bool
  | .staticCall (.named name) _ _ => name.parts = s.bypassName.parts
  | _ => false

/-- A call on the bypass class read back, and any other form as it is. -/
def Settings.undo (s : Settings) (form : Form Tree) : Form Tree :=
  if s.callsBypass form then (Access.ofCall? form).getD form else form

/-- A tree with all calls on the bypass class read back, from the leaves up. -/
def recover (s : Settings) : Tree → Tree :=
  Tree.recurse fun form attrs => ⟨s.undo (form.map Prod.snd), attrs⟩

variable (s : Settings)

theorem recover_mk (form : Form Tree) (attrs : Attributes) :
    recover s ⟨form, attrs⟩ = ⟨s.undo (form.map (recover s)), attrs⟩ := by
  rw [recover, Tree.recurse_mk, Form.map_map]

theorem callsBypass_map (f : Tree → Tree) (form : Form Tree) :
    s.callsBypass (form.map f) = s.callsBypass form := by
  cases form
  case staticCall owner name args => cases owner <;> rfl
  all_goals rfl

theorem undo_of_not_callsBypass {form : Form Tree} (h : s.callsBypass form = false) :
    s.undo form = form := by
  rw [Settings.undo, h]
  rfl

theorem undo_bypassCall (access : Access) (args : List (Arg Tree)) :
    s.undo (.staticCall (.named s.bypassName) (.named access.method) args) =
      (access.form? args).getD (.staticCall (.named s.bypassName) (.named access.method) args) := by
  rw [Settings.undo, if_pos (by simp [Settings.callsBypass]), Access.ofCall?,
    Access.ofMethod?_method, Option.bind_some]

/-- The arguments of a redirected access are read back as the form that makes the access, up to how
its names are written. -/
theorem equivalent_form? {b : Bypass} {form : Form Tree} {access : Access}
    (h : b.Redirects form access) {f : Tree → Tree}
    (hf : ∀ c ∈ Arg.children (Access.arguments form), (f c).Equivalent c) (attrs : Attributes) :
    ∃ form', access.form? ((Access.arguments form).map (·.map f)) = some form' ∧
      Tree.Equivalent ⟨form', attrs⟩ ⟨form, attrs⟩ := by
  cases h with
  | property object name =>
    exact ⟨_, rfl, .map_respelled (.property object name.respelled_argument) hf attrs⟩
  | methodCall object name args =>
    exact ⟨_, rfl, .map_respelled (.methodCall object name.respelled_argument args) hf attrs⟩
  | staticProperty owner name =>
    exact ⟨_, rfl, .map_respelled
      (.staticProperty owner.respelled_argument name.respelled_argument) hf attrs⟩
  | staticCall owner name args =>
    exact ⟨_, rfl, .map_respelled
      (.staticCall owner.respelled_argument name.respelled_argument args) hf attrs⟩
  | classConstant owner name =>
    exact ⟨_, rfl, .map_respelled
      (.classConstant owner.respelled_argument name.respelled_argument) hf attrs⟩
  | construct owner args =>
    exact ⟨_, rfl, .map_respelled (.construct owner.respelled_argument args) hf attrs⟩
  -- the target of an assignment comes back without attributes
  | assignProperty object name a value =>
    exact ⟨_, rfl, .assign_respelled (.property object name.respelled_argument)
      (fun a b => .assignProperty object name a b value) hf a attrs⟩
  | assignStaticProperty owner name a value =>
    exact ⟨_, rfl, .assign_respelled
      (.staticProperty owner.respelled_argument name.respelled_argument)
      (fun a b => .assignStaticProperty owner name a b value) hf a attrs⟩

/-! ## Recovering a translation -/

/-- A tree without calls on the bypass class at any depth. -/
def Tree.AvoidsBypass (t : Tree) : Prop := ∀ u, t.Contains u → s.callsBypass u.form = false

section
variable {s}

theorem Tree.AvoidsBypass.child {t c : Tree} (h : t.AvoidsBypass s) (hc : c ∈ t.form.children) :
    c.AvoidsBypass s :=
  fun u hu => h u (.inChild hc hu)

theorem Tree.avoidsBypass_mk (form : Form Tree) (attrs : Attributes) :
    AvoidsBypass s ⟨form, attrs⟩ ↔
      s.callsBypass form = false ∧ ∀ c ∈ form.children, c.AvoidsBypass s := by
  constructor
  · exact fun h => ⟨h _ (.here _), fun c hc => h.child hc⟩
  · rintro ⟨hself, hchildren⟩ u hu
    cases hu with
    | here => exact hself
    | inChild hc hu => exact hchildren _ hc u hu

theorem Tree.avoidsBypass_text (text : String) : (Tree.text text).AvoidsBypass s :=
  (avoidsBypass_mk _ _).mpr ⟨rfl, List.forall_mem_nil _⟩

theorem Tree.AvoidsBypass.arguments {t : Tree} (h : t.AvoidsBypass s) {b : Bypass} {access : Access}
    (hr : b.Redirects t.form access) :
    ∀ c ∈ Arg.children (Access.arguments t.form), c.AvoidsBypass s :=
  hr.forall_arguments avoidsBypass_text (fun _ hc => h.child hc)
    fun _ hc _ hd => (h.child hc).child hd

end

/-- A translation read back is equivalent to what was translated. -/
theorem equivalent_recover {t : Tree} (h : t.AvoidsBypass s) :
    (recover s (translate s t)).Equivalent t := by
  suffices hall : ∀ depth t, t.AvoidsBypass s → (recover s (translate s t)).Equivalent t from
    hall 0 t h
  intro depth t
  -- the induction goes on with the arguments of a redirected access, as the translation does
  induction depth, t using (Stock.plan [.bypass (.ofSettings s)]).induction with
  | step depth t ih =>
    intro h
    obtain ⟨form, attrs⟩ := t
    rw [translate_mk, recover_mk]
    by_cases hr : ∃ access, (Bypass.ofSettings s).Redirects form access
    · obtain ⟨access, hr⟩ := hr
      have henter : (Stock.plan [.bypass (.ofSettings s)]).enter depth ⟨form, attrs⟩ =
          (Bypass.ofSettings s).redirect access ⟨form, attrs⟩ :=
        Stock.enter_bypass_of_redirects depth hr
      rw [henter] at ih
      have hargs : ∀ c ∈ Arg.children (Access.arguments form),
          (recover s (translate s c)).Equivalent c :=
        fun c hc => ih c hc (h.arguments hr c hc)
      obtain ⟨form', hform, hequivalent⟩ := equivalent_form? hr hargs attrs
      have hread : s.undo ((translateForm s form).map (recover s)) = form' := by
        rw [translateForm_of_redirects s hr, Form.map, Reference.map, Member.map, List.map_map,
          undo_bypassCall]
        exact congrArg (Option.getD · _) hform
      rwa [hread]
    -- a tree that is kept is no call on the bypass class, so it is not read back either
    · have hnot := not_exists.mp hr
      have henter : (Stock.plan [.bypass (.ofSettings s)]).enter depth ⟨form, attrs⟩ =
          ⟨form, attrs⟩ :=
        Stock.enter_bypass_of_not_redirects depth hnot
      rw [henter] at ih
      have hcalls : s.callsBypass (form.map fun c => recover s (translate s c)) = false :=
        (callsBypass_map s _ form).trans (h _ (.here _))
      rw [translateForm_of_not_redirects s hnot, Form.map_map, undo_of_not_callsBypass s hcalls]
      exact .map form (fun c hc => ih c hc (h.child hc)) attrs

theorem equivalent_of_translate_eq {t u : Tree} (ht : t.AvoidsBypass s) (hu : u.AvoidsBypass s)
    (h : translate s t = translate s u) : t.Equivalent u := by
  have hrecovered := equivalent_recover s ht
  rw [h] at hrecovered
  exact hrecovered.symm.trans (equivalent_recover s hu)

theorem forall₂_equivalent {ts us : Forest} (hts : ∀ t ∈ ts, t.AvoidsBypass s)
    (hus : ∀ u ∈ us, u.AvoidsBypass s) (h : ts.map (translate s) = us.map (translate s)) :
    List.Forall₂ Tree.Equivalent ts us := by
  induction ts generalizing us with
  | nil =>
    rw [List.map_nil, eq_comm, List.map_eq_nil_iff] at h
    rw [h]
    exact .nil
  | cons t ts ih =>
    cases us with
    | nil => contradiction
    | cons u us =>
      obtain ⟨hhead, htail⟩ := List.cons_eq_cons.mp h
      obtain ⟨ht, hts⟩ := List.forall_mem_cons.mp hts
      obtain ⟨hu, hus⟩ := List.forall_mem_cons.mp hus
      exact .cons (equivalent_of_translate_eq s ht hu hhead) (ih hts hus htail)

/-- Forests without calls on the bypass class of which a run of the bypass pass makes the same are
the same up to how classes and members are written and to the attributes of the targets of
assignments. -/
theorem run_bypass_injective (ts us : Forest) (hts : ∀ t ∈ ts, t.AvoidsBypass s)
    (hus : ∀ u ∈ us, u.AvoidsBypass s) {vs : Forest} {a b : Tally}
    (hresult : (run [(Bypass.ofSettings s).pass] ts).result = .ok (vs, a))
    (hresult' : (run [(Bypass.ofSettings s).pass] us).result = .ok (vs, b)) :
    List.Forall₂ Tree.Equivalent ts us := by
  rw [run_bypass] at hresult hresult'
  have hleft := congrArg Prod.fst (Except.ok.inj hresult)
  have hright := congrArg Prod.fst (Except.ok.inj hresult')
  exact forall₂_equivalent s hts hus (hleft.trans hright.symm)

/-- A static property assigned to a property, both accessed by name. -/
def spelledByName : Forest :=
  [Make.assign (Make.property (Make.var "x") "b")
    (.bare (.staticProperty (.named ⟨["A"], true⟩) (.named "c")))]

def spelledByText : Forest :=
  -- texts for names, and a comment on the target
  [Make.assign ⟨.property (Make.var "x") (.computed (.text "b")), ⟨none, ["set"]⟩⟩
    (.bare (.staticProperty (.computed (.text "A")) (.computed (.text "c"))))]

theorem run_bypass_injective_spelled :
    (∀ t ∈ spelledByName, t.AvoidsBypass {}) ∧ (∀ u ∈ spelledByText, u.AvoidsBypass {}) ∧
      ∃ vs a b, (run [(Bypass.ofSettings {}).pass] spelledByName).result = .ok (vs, a) ∧
        (run [(Bypass.ofSettings {}).pass] spelledByText).result = .ok (vs, b) ∧
        List.Forall₂ Tree.Equivalent spelledByName spelledByText := by
  have hname : ∀ t ∈ spelledByName, t.AvoidsBypass {} := by
    simp [spelledByName, Make.assign, Make.property, Make.var, Tree.bare, Tree.avoidsBypass_mk,
      Settings.callsBypass, Form.children, Reference.children, Member.children]
  have htext : ∀ u ∈ spelledByText, u.AvoidsBypass {} := by
    simp [spelledByText, Make.assign, Make.var, Tree.bare, Tree.avoidsBypass_mk,
      Tree.avoidsBypass_text, Settings.callsBypass, Form.children, Reference.children,
      Member.children]
  have hsame : spelledByText.map (translate {}) = spelledByName.map (translate {}) := rfl
  have hresult := run_bypass {} spelledByName
  have hresult' := run_bypass {} spelledByText
  rw [hsame] at hresult'
  exact ⟨hname, htext, _, _, _, hresult, hresult',
    run_bypass_injective {} _ _ hname htext hresult hresult'⟩

end Graft
