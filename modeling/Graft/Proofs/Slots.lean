import Graft.Proofs.FormLaws
import Graft.Tree.Slot

/-! # Slots in order

`Form.rebuild` has a clause for every kind of form. What the clauses have in common is told here once:
a form has a list of slots in source order (`Form.slots`), and rebuilding it goes through them in this
order, whatever the monads are (`InOrder.rebuild`). Without effects, rebuilding deletes the children that
are not kept from their lists and optional slots and maps the others (`Form.rebuild_pure`).
-/

set_option autoImplicit false

namespace Graft

universe u v

/-! ## Slots -/

section
variable {α : Type}

/-- Children that may vanish. -/
def loose (as : List α) : List (Option Slot × α) := as.map fun a => (none, a)

def Reference.slots (slot : Slot) : Reference α → List (Option Slot × α)
  | .named _ => []
  | .computed a => [(some slot, a)]

def Member.slots : Member α → List (Option Slot × α)
  | .named _ => []
  | .computed a => [(some .name, a)]

/-- The children of a form in source order, each with the required slot in which it stands; without
one it stands in a list or in an optional slot. -/
def Form.slots : Form α → List (Option Slot × α)
  | .literal _ => []
  | .var _ => []
  | .constant _ => []
  | .array items => loose items
  | .binary _ left right => [(some .left, left), (some .right, right)]
  | .unary _ operand => [(some .operand, operand)]
  | .assign target value => [(some .target, target), (some .value, value)]
  | .call callee args => callee.slots .callee ++ loose (Arg.children args)
  | .property object name => (some .object, object) :: name.slots
  | .methodCall object name args =>
    (some .object, object) :: (name.slots ++ loose (Arg.children args))
  | .staticProperty owner name => owner.slots .owner ++ name.slots
  | .staticCall owner name args => owner.slots .owner ++ (name.slots ++ loose (Arg.children args))
  | .classConstant owner name => owner.slots .owner ++ name.slots
  | .construct owner args => owner.slots .owner ++ loose (Arg.children args)
  | .closure params _ _ body => loose (Param.children params) ++ loose body
  | .arrow params body => loose (Param.children params) ++ [(some .body, body)]
  | .expression expr => [(some .expr, expr)]
  | .ret value => loose value.toList
  | .echo values => loose values
  | .branch condition yes no => (some .condition, condition) :: (loose yes ++ loose (no.getD []))
  | .loop condition body => (some .condition, condition) :: loose body
  | .block statements => loose statements
  | .function _ params body => loose (Param.children params) ++ loose body
  | .classDecl _ _ members => loose members
  | .method _ _ _ params body => loose (Param.children params) ++ loose body
  | .propertyDecl _ _ _ default => loose default.toList
  | .constantDecl _ _ value => [(some .value, value)]

theorem map_snd_loose (as : List α) : (loose as).map (·.2) = as := by
  rw [loose, List.map_map]
  exact List.map_id as

theorem Reference.map_snd_slots (slot : Slot) (r : Reference α) :
    (r.slots slot).map (·.2) = r.children := by
  cases r <;> rfl

theorem Member.map_snd_slots (m : Member α) : m.slots.map (·.2) = m.children := by
  cases m <;> rfl

/-- The slots hold all the children, in their order. -/
theorem Form.map_snd_slots (form : Form α) : form.slots.map (·.2) = form.children := by
  cases form <;>
    simp [slots, children, map_snd_loose, Reference.map_snd_slots, Member.map_snd_slots]

variable {β : Type} (f : α → β)

theorem loose_map (as : List α) : loose (as.map f) = (loose as).map (Prod.map id f) := by
  rw [loose, loose, List.map_map, List.map_map]
  rfl

theorem Reference.slots_map (slot : Slot) (r : Reference α) :
    (r.map f).slots slot = (r.slots slot).map (Prod.map id f) := by
  cases r <;> rfl

theorem Member.slots_map (m : Member α) : (m.map f).slots = m.slots.map (Prod.map id f) := by
  cases m <;> rfl

/-- Mapping changes the children, not their slots. -/
theorem Form.slots_map (form : Form α) : (form.map f).slots = form.slots.map (Prod.map id f) := by
  have helse : ∀ no : Option (List α), (no.map (·.map f)).getD [] = (no.getD []).map f :=
    fun no => by cases no <;> rfl
  have hoption : ∀ o : Option α, (o.map f).toList = o.toList.map f := fun o => by cases o <;> rfl
  cases form <;>
    simp [slots, map, loose_map, helse, hoption, Reference.slots_map, Member.slots_map,
      Arg.children_map, Param.children_map]

end

/-! ## Rebuilding in order -/

section
variable {m : Type → Type u} {n : Type → Type v} [Monad m] [Monad n] {γ : Type}

/-- A relation between the computations of two monads, for each list of children that they go
through. When one step follows another the lists follow each other. -/
structure InOrder (P : (α : Type) → List (Option Slot × γ) → m α → n α → Prop) : Prop where
  pure : ∀ {α : Type} (a : α), P α [] (pure a) (pure a)
  bind : ∀ {α β : Type} {l k : List (Option Slot × γ)} {w : m α} {w' : n α} {f : α → m β}
    {f' : α → n β}, P α l w w' → (∀ a, P β k (f a) (f' a)) → P β (l ++ k) (w >>= f) (w' >>= f')

namespace InOrder
variable {P : (α : Type) → List (Option Slot × γ) → m α → n α → Prop} (h : InOrder P)
  {α β : Type} {l : List (Option Slot × γ)}
include h

/-- A last step that only reshapes the value. -/
theorem map {w : m α} {w' : n α} (f : α → β) (hw : P α l w w') :
    P β l (w >>= fun a => Pure.pure (f a)) (w' >>= fun a => Pure.pure (f a)) := by
  have hstep := h.bind hw fun a => h.pure (f a)
  rwa [List.append_nil] at hstep

theorem collect {f : γ → m (Option β)} {f' : γ → n (Option β)}
    (hf : ∀ c, P _ [(none, c)] (f c) (f' c)) (cs : List γ) :
    P _ (loose cs) (Graft.collect f cs) (Graft.collect f' cs) := by
  induction cs with
  | nil => exact h.pure []
  | cons c cs ih => exact h.bind (hf c) fun b => h.map (fun bs => b.toList ++ bs) ih

section
variable {required : Slot → γ → m β} {required' : Slot → γ → n β} {optional : γ → m (Option β)}
  {optional' : γ → n (Option β)}

theorem option (ho : ∀ c, P _ [(none, c)] (optional c) (optional' c)) (o : Option γ) :
    P _ (loose o.toList) (rebuildOption optional o) (rebuildOption optional' o) := by
  cases o with
  | none => exact h.pure none
  | some c => exact ho c

theorem args (ho : ∀ c, P _ [(none, c)] (optional c) (optional' c)) (as : List (Arg γ)) :
    P _ (loose (Arg.children as)) (Graft.collect (Arg.rebuild optional) as)
      (Graft.collect (Arg.rebuild optional') as) := by
  induction as with
  | nil => exact h.pure []
  | cons a as ih =>
    have harg : P _ [(none, a.value)] (a.rebuild optional) (a.rebuild optional') :=
      h.map (fun value => value.map fun v => (⟨v, a.byRef, a.unpack⟩ : Arg β)) (ho a.value)
    exact h.bind harg fun b => h.map (fun bs => b.toList ++ bs) ih

theorem params (ho : ∀ c, P _ [(none, c)] (optional c) (optional' c)) (ps : List (Param γ)) :
    P _ (loose (Param.children ps)) (Graft.each (Param.rebuild optional) ps)
      (Graft.each (Param.rebuild optional') ps) := by
  induction ps with
  | nil => exact h.pure []
  | cons p ps ih =>
    have hparam : P _ (loose p.default.toList) (p.rebuild optional) (p.rebuild optional') :=
      h.map (fun default => (⟨p.name, default, p.byRef, p.variadic⟩ : Param β))
        (h.option ho p.default)
    have hslots : loose (Param.children (p :: ps)) =
        loose p.default.toList ++ loose (Param.children ps) := by
      simp [loose, Param.children]
    rw [hslots]
    exact h.bind hparam fun b => h.map (fun bs => b :: bs) ih

theorem reference (hr : ∀ slot c, P _ [(some slot, c)] (required slot c) (required' slot c))
    (slot : Slot) (r : Reference γ) :
    P _ (r.slots slot) (r.rebuild (required slot)) (r.rebuild (required' slot)) := by
  cases r with
  | named name => exact h.pure _
  | computed c => exact h.map Reference.computed (hr slot c)

theorem member (hr : ∀ slot c, P _ [(some slot, c)] (required slot c) (required' slot c))
    (x : Member γ) : P _ x.slots (x.rebuild (required .name)) (x.rebuild (required' .name)) := by
  cases x with
  | named text => exact h.pure _
  | computed c => exact h.map Member.computed (hr .name c)

/-- What holds of the visit of each child in its slot holds of the form that is rebuilt, for the slots
of the form. -/
theorem rebuild (hr : ∀ slot c, P _ [(some slot, c)] (required slot c) (required' slot c))
    (ho : ∀ c, P _ [(none, c)] (optional c) (optional' c)) (form : Form γ) :
    P _ form.slots (form.rebuild required optional) (form.rebuild required' optional') := by
  cases form with
  | literal value => exact h.pure _
  | var name => exact h.pure _
  | constant name => exact h.pure _
  | array items => exact h.map Form.array (h.collect ho items)
  | binary op left right =>
    exact h.bind (hr .left left) fun _ => h.map (fun b => Form.binary op _ b) (hr .right right)
  | unary op operand => exact h.map (fun a => Form.unary op a) (hr .operand operand)
  | assign target value =>
    exact h.bind (hr .target target) fun _ => h.map (fun b => Form.assign _ b) (hr .value value)
  | call callee as =>
    exact h.bind (h.reference hr .callee callee) fun _ => h.map (fun as => Form.call _ as) (h.args ho as)
  | property object name =>
    exact h.bind (hr .object object) fun _ => h.map (fun x => Form.property _ x) (h.member hr name)
  | methodCall object name as =>
    exact h.bind (hr .object object) fun _ => h.bind (h.member hr name) fun _ =>
      h.map (fun as => Form.methodCall _ _ as) (h.args ho as)
  | staticProperty owner name =>
    exact h.bind (h.reference hr .owner owner) fun _ =>
      h.map (fun x => Form.staticProperty _ x) (h.member hr name)
  | staticCall owner name as =>
    exact h.bind (h.reference hr .owner owner) fun _ => h.bind (h.member hr name) fun _ =>
      h.map (fun as => Form.staticCall _ _ as) (h.args ho as)
  | classConstant owner name =>
    exact h.bind (h.reference hr .owner owner) fun _ =>
      h.map (fun x => Form.classConstant _ x) (h.member hr name)
  | construct owner as =>
    exact h.bind (h.reference hr .owner owner) fun _ =>
      h.map (fun as => Form.construct _ as) (h.args ho as)
  | closure ps captures isStatic body =>
    exact h.bind (h.params ho ps) fun _ =>
      h.map (fun body => Form.closure _ captures isStatic body) (h.collect ho body)
  | arrow ps body =>
    exact h.bind (h.params ho ps) fun _ => h.map (fun body => Form.arrow _ body) (hr .body body)
  | expression expr => exact h.map Form.expression (hr .expr expr)
  | ret value => exact h.map Form.ret (h.option ho value)
  | echo values => exact h.map Form.echo (h.collect ho values)
  | branch condition yes no =>
    cases no with
    | none =>
      have hyes : ∀ b, P _ (loose yes ++ []) (Graft.collect optional yes >>= fun yes =>
          Pure.pure (Form.branch b yes none)) (Graft.collect optional' yes >>= fun yes =>
          Pure.pure (Form.branch b yes none)) :=
        fun b => h.bind (h.collect ho yes) fun yes => h.pure (Form.branch b yes none)
      exact h.bind (hr .condition condition) hyes
    | some no =>
      exact h.bind (hr .condition condition) fun _ => h.bind (h.collect ho yes) fun _ =>
        h.map (fun no => Form.branch _ _ (some no)) (h.collect ho no)
  | loop condition body =>
    exact h.bind (hr .condition condition) fun _ =>
      h.map (fun body => Form.loop _ body) (h.collect ho body)
  | block statements => exact h.map Form.block (h.collect ho statements)
  | function name ps body =>
    exact h.bind (h.params ho ps) fun _ =>
      h.map (fun body => Form.function name _ body) (h.collect ho body)
  | classDecl name parent members =>
    exact h.map (fun members => Form.classDecl name parent members) (h.collect ho members)
  | method name visibility isStatic ps body =>
    exact h.bind (h.params ho ps) fun _ =>
      h.map (fun body => Form.method name visibility isStatic _ body) (h.collect ho body)
  | propertyDecl name visibility isStatic default =>
    exact h.map (fun default => Form.propertyDecl name visibility isStatic default)
      (h.option ho default)
  | constantDecl name visibility value =>
    exact h.map (fun value => Form.constantDecl name visibility value) (hr .value value)

end

end InOrder

end

/-! ## Rebuilding without effects -/

section
variable {α β : Type}

def Arg.prune (keep : α → Bool) (args : List (Arg α)) : List (Arg α) :=
  args.filter fun a => keep a.value

def Param.prune (keep : α → Bool) (p : Param α) : Param α :=
  { p with default := p.default.filter keep }

/-- The form without the children that are not kept, where a child may vanish. -/
def Form.prune (keep : α → Bool) : Form α → Form α
  | .array items => .array (items.filter keep)
  | .call callee args => .call callee (Arg.prune keep args)
  | .methodCall object name args => .methodCall object name (Arg.prune keep args)
  | .staticCall owner name args => .staticCall owner name (Arg.prune keep args)
  | .construct owner args => .construct owner (Arg.prune keep args)
  | .closure params captures isStatic body =>
    .closure (params.map (·.prune keep)) captures isStatic (body.filter keep)
  | .arrow params body => .arrow (params.map (·.prune keep)) body
  | .ret value => .ret (value.filter keep)
  | .echo values => .echo (values.filter keep)
  | .branch condition yes no => .branch condition (yes.filter keep) (no.map (·.filter keep))
  | .loop condition body => .loop condition (body.filter keep)
  | .block statements => .block (statements.filter keep)
  | .function name params body => .function name (params.map (·.prune keep)) (body.filter keep)
  | .classDecl name parent members => .classDecl name parent (members.filter keep)
  | .method name visibility isStatic params body =>
    .method name visibility isStatic (params.map (·.prune keep)) (body.filter keep)
  | .propertyDecl name visibility isStatic default =>
    .propertyDecl name visibility isStatic (default.filter keep)
  | form => form

variable (keep : α → Bool) (g : α → β)

/-- What becomes of a child that may vanish. -/
def kept (a : α) : Option β := if keep a then some (g a) else none

theorem collect_pure (as : List α) :
    collect (m := Id) (fun a => pure (kept keep g a)) as = pure ((as.filter keep).map g) := by
  induction as with
  | nil => rfl
  | cons a as ih =>
    rw [collect, ih]
    cases ha : keep a <;> simp [kept, ha]

theorem rebuildOption_pure (o : Option α) :
    rebuildOption (m := Id) (fun a => pure (kept keep g a)) o = pure ((o.filter keep).map g) := by
  cases o with
  | none => rfl
  | some a => cases ha : keep a <;> simp [rebuildOption, kept, ha, Option.filter]

theorem args_pure (as : List (Arg α)) :
    collect (m := Id) (Arg.rebuild fun a => pure (kept keep g a)) as =
      pure ((Arg.prune keep as).map (·.map g)) := by
  induction as with
  | nil => rfl
  | cons a as ih =>
    rw [collect, ih]
    cases ha : keep a.value <;> simp [Arg.rebuild, kept, ha, Arg.prune, Arg.map]

theorem params_pure (ps : List (Param α)) :
    each (m := Id) (Param.rebuild fun a => pure (kept keep g a)) ps =
      pure ((ps.map (·.prune keep)).map (·.map g)) := by
  induction ps with
  | nil => rfl
  | cons p ps ih =>
    rw [each, ih, Param.rebuild, rebuildOption_pure]
    rfl

theorem Reference.rebuild_pure (r : Reference α) :
    r.rebuild (m := Id) (fun a => pure (g a)) = pure (r.map g) := by
  cases r <;> rfl

theorem Member.rebuild_pure (x : Member α) :
    x.rebuild (m := Id) (fun a => pure (g a)) = pure (x.map g) := by
  cases x <;> rfl

theorem Form.rebuild_pure (form : Form α) :
    form.rebuild (m := Id) (fun _ a => pure (g a)) (fun a => pure (kept keep g a)) =
      pure ((form.prune keep).map g) := by
  cases form
  case branch condition yes no =>
    cases no <;>
      simp only [rebuild, collect_pure, pure_bind, prune, map, Option.map_some, Option.map_none]
  all_goals
    simp only [rebuild, collect_pure, rebuildOption_pure, args_pure, params_pure,
      Reference.rebuild_pure, Member.rebuild_pure, pure_bind, prune, map]

/-- What holds between the visit of each child in its slot and what becomes of it holds between the
rebuilding of a form and the pruned form, mapped. -/
theorem InOrder.rebuild_pruned {m : Type → Type u} [Monad m]
    {P : (δ : Type) → List (Option Slot × α) → m δ → Id δ → Prop} (h : InOrder P)
    {required : Slot → α → m β} {optional : α → m (Option β)}
    (hr : ∀ slot a, P _ [(some slot, a)] (required slot a) (Pure.pure (g a)))
    (ho : ∀ a, P _ [(none, a)] (optional a) (Pure.pure (kept keep g a))) (form : Form α) :
    P _ form.slots (form.rebuild required optional) (Pure.pure ((form.prune keep).map g)) := by
  rw [← form.rebuild_pure]
  exact h.rebuild hr ho form

theorem Arg.prune_map (keep : β → Bool) (args : List (Arg α)) :
    Arg.prune keep (args.map (·.map g)) = (Arg.prune (fun a => keep (g a)) args).map (·.map g) := by
  rw [prune, List.filter_map]
  rfl

theorem Param.prune_map (keep : β → Bool) (p : Param α) :
    (p.map g).prune keep = (p.prune fun a => keep (g a)).map g := by
  rw [prune, map, Option.filter_map]
  rfl

/-- Pruning a mapped form looks at the images of the children. -/
theorem Form.prune_map (keep : β → Bool) (form : Form α) :
    (form.map g).prune keep = (form.prune fun a => keep (g a)).map g := by
  have hlist : ∀ as : List α,
      (as.map g).filter keep = (as.filter fun a => keep (g a)).map g := fun _ => List.filter_map
  have hoption : ∀ o : Option α,
      (o.map g).filter keep = (o.filter fun a => keep (g a)).map g := fun o => Option.filter_map
  cases form
  case branch condition yes no => cases no <;> simp [prune, map, hlist]
  all_goals simp [prune, map, hlist, hoption, Arg.prune_map, Param.prune_map]

theorem Form.kind_prune (form : Form α) : (form.prune keep).kind = form.kind := by
  cases form <;> rfl

theorem Form.prune_true (form : Form α) : form.prune (fun _ => true) = form := by
  have hoption : ∀ o : Option α, o.filter (fun _ => true) = o := fun o => by cases o <;> rfl
  have hparam : Param.prune (fun _ : α => true) = id := by
    funext p
    rw [Param.prune, hoption, id_eq]
  cases form
  case branch condition yes no => cases no <;> simp [prune]
  all_goals simp [prune, hoption, hparam, Arg.prune]

end

end Graft
