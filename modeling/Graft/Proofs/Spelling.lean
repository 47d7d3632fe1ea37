import Graft.Proofs.FormLaws
import Graft.Tree.Encode
import Mathlib.Data.List.Forall2
import Mathlib.Data.Set.Defs

/-! # Spellings

The values that may stand for a tree, as sets. A record is an object that has each of its fields once,
at any place and among any others, or an array of exactly its fields. An empty field of an object may be
left out or hold `null`, and a tree without attributes may leave them out in either form. An alternative
without content is a label, or an object of one field with `null` in it.

What is written for a tree is one of its spellings (`Tree.toJson_mem`).
-/

set_option autoImplicit false

namespace Graft

/-! ## Records -/

/-- What may stand in a field, and whether an object may leave the field out. -/
structure Content where
  values : Set Json
  omissible : Prop

/-- A value that may be empty. -/
def nullables : Option (Set Json) → Set Json
  | some values => values
  | none => {.null}

namespace Content

def always (values : Set Json) : Content := ⟨values, False⟩

def optional (values : Option (Set Json)) : Content := ⟨nullables values, values = none⟩

def Admits (c : Content) : Option Json → Prop
  | some j => j ∈ c.values
  | none => c.omissible

end Content

/-- The values that an object has under a name. -/
def Json.valuesOf (name : String) (fields : List (Option String × Json)) : List Json :=
  (fields.filter (·.1 = some name)).map (·.2)

/-- An object has each of the named fields at most once, and what it has there is admitted. The order and
the fields of other names are free. -/
def objects (names : List String) (contents : List Content) : Set Json :=
  {j | ∃ fields, j = .obj fields ∧ List.Forall₂
    (fun name c => ∃ value : Option Json, c.Admits value ∧ Json.valuesOf name fields = value.toList)
    names contents}

/-- Fields may be put in another order, and fields of other names among them. -/
theorem mem_objects_of_perm {names : List String} {contents : List Content}
    {fields others mixed : List (Option String × Json)} (h : .obj fields ∈ objects names contents)
    (hothers : ∀ field ∈ others, ∀ name ∈ names, field.1 ≠ some name)
    (hmixed : mixed.Perm (fields ++ others)) : .obj mixed ∈ objects names contents := by
  obtain ⟨_, hobj, hfields⟩ := h
  cases hobj
  have hmore : ∀ name ∈ names, ∀ value : Option Json, Json.valuesOf name fields = value.toList →
      Json.valuesOf name mixed = value.toList := by
    intro name hname value hvalue
    have hnone : others.filter (·.1 = some name) = [] := by
      rw [List.filter_eq_nil_iff]
      intro field hfield
      simpa using hothers field hfield name hname
    have hperm : (Json.valuesOf name mixed).Perm value.toList := by
      rw [← hvalue, Json.valuesOf, Json.valuesOf]
      have hfilter := hmixed.filter (·.1 = some name)
      rw [List.filter_append, hnone, List.append_nil] at hfilter
      exact hfilter.map _
    cases value with
    | none => exact hperm.eq_nil
    | some j => exact List.perm_singleton.mp hperm
  refine ⟨mixed, rfl, ?_⟩
  refine ((List.forall₂_and_left _ _).mpr ⟨hmore, hfields⟩).imp fun name c hname => ?_
  obtain ⟨value, hadmits, hvalue⟩ := hname.2
  exact ⟨value, hadmits, hname.1 value hvalue⟩

def arrays (contents : List Content) : Set Json :=
  {j | ∃ items, j = .arr items ∧ List.Forall₂ (fun c item => item ∈ c.values) contents items}

def records (names : List String) (contents : List Content) : Set Json :=
  objects names contents ∪ arrays contents

/-! ## Lists and alternatives -/

def lists (values : List (Set Json)) : Set Json :=
  {j | ∃ items, j = .arr items ∧ List.Forall₂ (fun s item => item ∈ s) values items}

/-- An alternative with content. -/
def tagged (label : String) (values : Set Json) : Set Json :=
  {j | ∃ content ∈ values, j = .obj [(some label, content)]}

/-- An alternative without content. -/
def bareTags (label : String) : Set Json := {.text label, .obj [(some label, .null)]}

/-! ## Parts of a tree -/

def texts (ss : List String) : Set Json := lists (ss.map fun s => {.text s})

def Span.spellings (s : Span) : Set Json :=
  records ["start_line", "start_column", "end_line", "end_column"]
    [.always {.nat s.startLine.toNat}, .always {.nat s.startColumn.toNat},
      .always {.nat s.endLine.toNat}, .always {.nat s.endColumn.toNat}]

def Attributes.spellings (a : Attributes) : Set Json :=
  records ["span", "comments"] [.optional (a.span.map Span.spellings), .always (texts a.comments)]

def Name.spellings (n : Name) : Set Json :=
  records ["parts", "fully_qualified"] [.always (texts n.parts), .always {.bool n.qualified}]

def Literal.spellings : Literal → Set Json
  | .int value => tagged "Int" {.int value.toInt}
  | .float value => tagged "Float" {.text value.hex}
  | .str text => tagged "String" {.text text}
  | .bool value => tagged "Bool" {.bool value}
  | .null => bareTags "Null"

def Capture.spellings (c : Capture) : Set Json :=
  records ["name", "by_ref"] [.always {.text c.name}, .always {.bool c.byRef}]

def Reference.spellings : Reference (Set Json) → Set Json
  | .named name => tagged "Named" name.spellings
  | .computed expr => tagged "Dynamic" expr

def Member.spellings : Member (Set Json) → Set Json
  | .named text => tagged "Literal" {.text text}
  | .computed expr => tagged "Dynamic" expr

def Arg.spellings (a : Arg (Set Json)) : Set Json :=
  records ["value", "by_ref", "unpack"]
    [.always a.value, .always {.bool a.byRef}, .always {.bool a.unpack}]

def Param.spellings (p : Param (Set Json)) : Set Json :=
  records ["name", "default", "by_ref", "variadic"]
    [.always {.text p.name}, .optional p.default, .always {.bool p.byRef}, .always {.bool p.variadic}]

/-! ## Forms and trees -/

def argLists (args : List (Arg (Set Json))) : Content := .always (lists (args.map Arg.spellings))

def paramLists (params : List (Param (Set Json))) : Content :=
  .always (lists (params.map Param.spellings))

/-- The spellings of the content of a form, from those of its children. -/
def Form.contents : Form (Set Json) → Set Json
  | .literal value => value.spellings
  | .var name => {.text name}
  | .constant name => name.spellings
  | .array items => lists items
  | .binary op left right =>
    objects ["op", "left", "right"] [.always (bareTags op.label), .always left, .always right]
  | .unary op operand => objects ["op", "operand"] [.always (bareTags op.label), .always operand]
  | .assign target value => objects ["target", "value"] [.always target, .always value]
  | .call callee args => objects ["callee", "args"] [.always callee.spellings, argLists args]
  | .property object name => objects ["object", "name"] [.always object, .always name.spellings]
  | .methodCall object name args =>
    objects ["object", "name", "args"] [.always object, .always name.spellings, argLists args]
  | .staticProperty owner name =>
    objects ["class", "name"] [.always owner.spellings, .always name.spellings]
  | .staticCall owner name args =>
    objects ["class", "name", "args"]
      [.always owner.spellings, .always name.spellings, argLists args]
  | .classConstant owner name =>
    objects ["class", "name"] [.always owner.spellings, .always name.spellings]
  | .construct owner args => objects ["class", "args"] [.always owner.spellings, argLists args]
  | .closure params captures isStatic body =>
    objects ["params", "uses", "is_static", "body"]
      [paramLists params, .always (lists (captures.map Capture.spellings)), .always {.bool isStatic},
        .always (lists body)]
  | .arrow params body => objects ["params", "body"] [paramLists params, .always body]
  | .expression expr => expr
  | .ret value => nullables value
  | .echo values => lists values
  | .branch condition yes no =>
    objects ["condition", "then_branch", "else_branch"]
      [.always condition, .always (lists yes), .optional (no.map lists)]
  | .loop condition body => objects ["condition", "body"] [.always condition, .always (lists body)]
  | .block statements => lists statements
  | .function name params body =>
    objects ["name", "params", "body"] [.always {.text name}, paramLists params, .always (lists body)]
  | .classDecl name parent members =>
    objects ["name", "extends", "members"]
      [.always {.text name}, .optional (parent.map Name.spellings), .always (lists members)]
  | .method name visibility isStatic params body =>
    objects ["name", "visibility", "is_static", "params", "body"]
      [.always {.text name}, .always (bareTags visibility.label), .always {.bool isStatic},
        paramLists params, .always (lists body)]
  | .propertyDecl name visibility isStatic default =>
    objects ["name", "visibility", "is_static", "default"]
      [.always {.text name}, .always (bareTags visibility.label), .always {.bool isStatic},
        .optional default]
  | .constantDecl name visibility value =>
    objects ["name", "visibility", "value"]
      [.always {.text name}, .always (bareTags visibility.label), .always value]

def Form.spellings (form : Form (Set Json)) : Set Json := tagged form.kind.label form.contents

/-- A tree, from the spellings of its form. Attributes may be missing where there are none. -/
def nodes (form : Set Json) (attrs : Attributes) : Set Json :=
  records ["kind", "attrs"] [.always form, ⟨attrs.spellings, attrs = .empty⟩] ∪
    {j | attrs = .empty ∧ ∃ kind ∈ form, j = .arr [kind]}

/-- The values that spell a tree. -/
def Tree.spellings : Tree → Set Json :=
  recurse fun form attrs => nodes (form.map (·.2)).spellings attrs

theorem Tree.spellings_mk (form : Form Tree) (attrs : Attributes) :
    spellings ⟨form, attrs⟩ = nodes (form.map spellings).spellings attrs := by
  rw [spellings, recurse_mk, Form.map_map]

/-! ## What is written -/

theorem valuesOf_object {name : String} {value : Json} {fields : List (String × Json)}
    (hnodup : (fields.map (·.1)).Nodup) (h : (name, value) ∈ fields) :
    Json.valuesOf name (fields.map fun (k, v) => (some k, v)) = [value] := by
  induction fields with
  | nil => cases h
  | cons field fields ih =>
    obtain ⟨k, v⟩ := field
    obtain ⟨hfresh, hnodup⟩ := List.nodup_cons.mp hnodup
    cases h with
    | head =>
      have hrest : (fields.map fun (k, v) => (some k, v)).filter (·.1 = some name) = [] := by
        rw [List.filter_eq_nil_iff]
        rintro _ hmem
        obtain ⟨⟨k, v⟩, hkv, rfl⟩ := List.mem_map.mp hmem
        have hne : k ≠ name := by
          rintro rfl
          exact hfresh (List.mem_map.mpr ⟨_, hkv, rfl⟩)
        simpa using hne
      simp [Json.valuesOf, hrest]
    | tail _ h =>
      have hne : k ≠ name := by
        rintro rfl
        exact hfresh (List.mem_map.mpr ⟨_, h, rfl⟩)
      have htail := ih hnodup h
      rw [Json.valuesOf] at htail ⊢
      simpa [hne] using htail

theorem object_mem_objects {names : List String} {fields : List (String × Json)}
    {contents : List Content} (hnames : fields.map (·.1) = names) (hnodup : names.Nodup)
    (h : List.Forall₂ (fun field c => field.2 ∈ c.values) fields contents) :
    Json.object fields ∈ objects names contents := by
  subst hnames
  refine ⟨_, rfl, List.forall₂_map_left_iff.mpr ?_⟩
  have honce : ∀ field ∈ fields,
      Json.valuesOf field.1 (fields.map fun (k, v) => (some k, v)) = [field.2] :=
    fun field hfield => valuesOf_object hnodup hfield
  refine ((List.forall₂_and_left _ _).mpr ⟨honce, h⟩).imp fun field c hfield => ?_
  exact ⟨some field.2, hfield.2, hfield.1⟩

section
variable {α : Type} {write : α → Json} {spell : α → Set Json}

theorem arr_mem_lists {as : List α} (h : ∀ a ∈ as, write a ∈ spell a) :
    .arr (as.map write) ∈ lists (as.map spell) := by
  refine ⟨_, rfl, ?_⟩
  rw [List.forall₂_map_left_iff, List.forall₂_map_right_iff, List.forall₂_same]
  exact h

theorem orNull_mem_nullables {o : Option α} (h : ∀ a ∈ o, write a ∈ spell a) :
    Json.orNull (o.map write) ∈ nullables (o.map spell) := by
  cases o with
  | none => rfl
  | some a => exact h a rfl

theorem texts_mem (ss : List String) : .arr (ss.map Json.text) ∈ texts ss :=
  arr_mem_lists fun _ _ => rfl

theorem Span.toJson_mem (s : Span) : s.toJson ∈ s.spellings :=
  .inl (object_mem_objects rfl (by decide) (.cons rfl (.cons rfl (.cons rfl (.cons rfl .nil)))))

theorem Attributes.toJson_mem (a : Attributes) : a.toJson ∈ a.spellings := by
  refine .inl (object_mem_objects rfl (by decide) (.cons ?_ (.cons (texts_mem _) .nil)))
  exact orNull_mem_nullables fun s _ => s.toJson_mem

theorem Name.toJson_mem (n : Name) : n.toJson ∈ n.spellings :=
  .inl (object_mem_objects rfl (by decide) (.cons (texts_mem _) (.cons rfl .nil)))

theorem Capture.toJson_mem (c : Capture) : c.toJson ∈ c.spellings :=
  .inl (object_mem_objects rfl (by decide) (.cons rfl (.cons rfl .nil)))

theorem Literal.toJson_mem (l : Literal) : l.toJson ∈ l.spellings := by
  cases l with
  | int value => exact ⟨_, rfl, rfl⟩
  | float value => exact ⟨_, rfl, rfl⟩
  | str text => exact ⟨_, rfl, rfl⟩
  | bool value => exact ⟨_, rfl, rfl⟩
  | null => exact .inl rfl

theorem Reference.toJson_mem (r : Reference α) (h : ∀ c ∈ r.children, write c ∈ spell c) :
    (r.map write).toJson ∈ (r.map spell).spellings := by
  cases r with
  | named name => exact ⟨_, name.toJson_mem, rfl⟩
  | computed c => exact ⟨_, h c (List.mem_singleton_self c), rfl⟩

theorem Member.toJson_mem (m : Member α) (h : ∀ c ∈ m.children, write c ∈ spell c) :
    (m.map write).toJson ∈ (m.map spell).spellings := by
  cases m with
  | named text => exact ⟨_, rfl, rfl⟩
  | computed c => exact ⟨_, h c (List.mem_singleton_self c), rfl⟩

theorem Arg.toJson_mem (a : Arg α) (h : write a.value ∈ spell a.value) :
    (a.map write).toJson ∈ (a.map spell).spellings :=
  .inl (object_mem_objects rfl (by decide) (.cons h (.cons rfl (.cons rfl .nil))))

theorem Param.toJson_mem (p : Param α) (h : ∀ c ∈ p.default, write c ∈ spell c) :
    (p.map write).toJson ∈ (p.map spell).spellings :=
  .inl (object_mem_objects rfl (by decide)
    (.cons rfl (.cons (orNull_mem_nullables h) (.cons rfl (.cons rfl .nil)))))

theorem Arg.toJson_mem_lists (args : List (Arg α)) (h : ∀ c ∈ Arg.children args, write c ∈ spell c) :
    .arr ((args.map (·.map write)).map Arg.toJson) ∈ lists ((args.map (·.map spell)).map Arg.spellings) := by
  rw [List.map_map, List.map_map]
  exact arr_mem_lists fun a ha => a.toJson_mem (h a.value (List.mem_map_of_mem ha))

theorem Param.toJson_mem_lists (params : List (Param α))
    (h : ∀ c ∈ Param.children params, write c ∈ spell c) :
    .arr ((params.map (·.map write)).map Param.toJson) ∈
      lists ((params.map (·.map spell)).map Param.spellings) := by
  rw [List.map_map, List.map_map]
  refine arr_mem_lists fun p hp => p.toJson_mem fun c hc => h c ?_
  exact List.mem_flatMap.mpr ⟨p, hp, Option.mem_toList.mpr hc⟩

theorem Form.content_mem (form : Form α) (h : ∀ c ∈ form.children, write c ∈ spell c) :
    (form.map write).content ∈ (form.map spell).contents := by
  cases form with
  | literal value => exact value.toJson_mem
  | var name => rfl
  | constant name => exact name.toJson_mem
  | array items => exact arr_mem_lists h
  | binary op left right =>
    exact object_mem_objects rfl (by decide) (.cons (.inl rfl)
      (.cons (h left (by simp [children])) (.cons (h right (by simp [children])) .nil)))
  | unary op operand =>
    exact object_mem_objects rfl (by decide)
      (.cons (.inl rfl) (.cons (h operand (by simp [children])) .nil))
  | assign target value =>
    exact object_mem_objects rfl (by decide)
      (.cons (h target (by simp [children])) (.cons (h value (by simp [children])) .nil))
  | call callee args =>
    have hcallee := callee.toJson_mem fun c hc => h c (by simp [children, hc])
    have hargs := Arg.toJson_mem_lists args fun c hc => h c (by simp [children, hc])
    exact object_mem_objects rfl (by decide) (.cons hcallee (.cons hargs .nil))
  | property object name =>
    have hname := name.toJson_mem fun c hc => h c (by simp [children, hc])
    exact object_mem_objects rfl (by decide)
      (.cons (h object (by simp [children])) (.cons hname .nil))
  | methodCall object name args =>
    have hname := name.toJson_mem fun c hc => h c (by simp [children, hc])
    have hargs := Arg.toJson_mem_lists args fun c hc => h c (by simp [children, hc])
    exact object_mem_objects rfl (by decide)
      (.cons (h object (by simp [children])) (.cons hname (.cons hargs .nil)))
  | staticProperty owner name =>
    have howner := owner.toJson_mem fun c hc => h c (by simp [children, hc])
    have hname := name.toJson_mem fun c hc => h c (by simp [children, hc])
    exact object_mem_objects rfl (by decide) (.cons howner (.cons hname .nil))
  | staticCall owner name args =>
    have howner := owner.toJson_mem fun c hc => h c (by simp [children, hc])
    have hname := name.toJson_mem fun c hc => h c (by simp [children, hc])
    have hargs := Arg.toJson_mem_lists args fun c hc => h c (by simp [children, hc])
    exact object_mem_objects rfl (by decide) (.cons howner (.cons hname (.cons hargs .nil)))
  | classConstant owner name =>
    have howner := owner.toJson_mem fun c hc => h c (by simp [children, hc])
    have hname := name.toJson_mem fun c hc => h c (by simp [children, hc])
    exact object_mem_objects rfl (by decide) (.cons howner (.cons hname .nil))
  | construct owner args =>
    have howner := owner.toJson_mem fun c hc => h c (by simp [children, hc])
    have hargs := Arg.toJson_mem_lists args fun c hc => h c (by simp [children, hc])
    exact object_mem_objects rfl (by decide) (.cons howner (.cons hargs .nil))
  | closure params captures isStatic body =>
    have hparams := Param.toJson_mem_lists params fun c hc => h c (by simp [children, hc])
    have hcaptures := arr_mem_lists fun c (_ : c ∈ captures) => c.toJson_mem
    have hbody := arr_mem_lists fun c (hc : c ∈ body) => h c (by simp [children, hc])
    exact object_mem_objects rfl (by decide)
      (.cons hparams (.cons hcaptures (.cons rfl (.cons hbody .nil))))
  | arrow params body =>
    have hparams := Param.toJson_mem_lists params fun c hc => h c (by simp [children, hc])
    exact object_mem_objects rfl (by decide)
      (.cons hparams (.cons (h body (by simp [children])) .nil))
  | expression expr => exact h expr (by simp [children])
  | ret value => exact orNull_mem_nullables fun c hc => h c (Option.mem_toList.mpr hc)
  | echo values => exact arr_mem_lists h
  | branch condition yes no =>
    have hyes := arr_mem_lists fun c (hc : c ∈ yes) => h c (by simp [children, hc])
    have hno : Json.orNull (no.map fun cs => .arr (cs.map write)) ∈
        nullables (no.map fun cs => lists (cs.map spell)) := by
      refine orNull_mem_nullables fun cs hcs => arr_mem_lists fun c hc => h c ?_
      simp [children, Option.mem_def.mp hcs, hc]
    rw [map, map, content, contents, Option.map_map, Option.map_map]
    exact object_mem_objects rfl (by decide)
      (.cons (h condition (by simp [children])) (.cons hyes (.cons hno .nil)))
  | loop condition body =>
    have hbody := arr_mem_lists fun c (hc : c ∈ body) => h c (by simp [children, hc])
    exact object_mem_objects rfl (by decide)
      (.cons (h condition (by simp [children])) (.cons hbody .nil))
  | block statements => exact arr_mem_lists h
  | function name params body =>
    have hparams := Param.toJson_mem_lists params fun c hc => h c (by simp [children, hc])
    have hbody := arr_mem_lists fun c (hc : c ∈ body) => h c (by simp [children, hc])
    exact object_mem_objects rfl (by decide) (.cons rfl (.cons hparams (.cons hbody .nil)))
  | classDecl name parent members =>
    have hparent := orNull_mem_nullables fun p (_ : p ∈ parent) => p.toJson_mem
    exact object_mem_objects rfl (by decide)
      (.cons rfl (.cons hparent (.cons (arr_mem_lists h) .nil)))
  | method name visibility isStatic params body =>
    have hparams := Param.toJson_mem_lists params fun c hc => h c (by simp [children, hc])
    have hbody := arr_mem_lists fun c (hc : c ∈ body) => h c (by simp [children, hc])
    exact object_mem_objects rfl (by decide)
      (.cons rfl (.cons (.inl rfl) (.cons rfl (.cons hparams (.cons hbody .nil)))))
  | propertyDecl name visibility isStatic default =>
    have hdefault := orNull_mem_nullables fun c (hc : c ∈ default) => h c (Option.mem_toList.mpr hc)
    exact object_mem_objects rfl (by decide)
      (.cons rfl (.cons (.inl rfl) (.cons rfl (.cons hdefault .nil))))
  | constantDecl name visibility value =>
    exact object_mem_objects rfl (by decide)
      (.cons rfl (.cons (.inl rfl) (.cons (h value (by simp [children])) .nil)))

end

theorem Tree.toJson_mk (form : Form Tree) (attrs : Attributes) :
    toJson ⟨form, attrs⟩ =
      .object [("kind", (form.map toJson).toJson), ("attrs", attrs.toJson)] := by
  rw [toJson, recurse_mk, Form.map_map]

/-- What is written for a tree is one of its spellings. -/
theorem Tree.toJson_mem (t : Tree) : t.toJson ∈ t.spellings := by
  induction t using Tree.inductionOn with
  | mk form attrs ih =>
    have hform : (form.map toJson).toJson ∈ (form.map spellings).spellings := by
      rw [Form.toJson, Form.spellings, Form.kind_map, Form.kind_map]
      exact ⟨_, form.content_mem ih, rfl⟩
    rw [toJson_mk, spellings_mk]
    exact .inl (.inl (object_mem_objects rfl (by decide) (.cons hform (.cons attrs.toJson_mem .nil))))

end Graft
