import Mathlib.Data.Set.Image
import Graft.Proofs.FormLaws

/-! # Control paths

A control path is a finite sequence of effects on the way through statements, with the exit that it
takes. Expressions are evaluated from left to right; either branch may be taken and a loop may go
round any number of times; a return ends the path. A function, a method or a closure comes into being
as a whole, and nothing in it runs.

`Path.close` adds to a path what its exit calls for. It goes through sequences and loops
(`image_close_andThen`, `image_close_iterate`) when it adds nothing to the paths that fall through.
-/

set_option autoImplicit false

namespace Graft

/-! ## Effects -/

inductive Effect where
  /-- An operation on values that are there already. -/
  | perform (operation : Form Unit)
  /-- A function-like tree comes into being; its body does not run. -/
  | define (tree : Tree)

/-- What a form does by itself, apart from its children. -/
def Form.operation {α : Type} : Form α → List Effect
  | .expression _ => []
  | form => [.perform (form.map fun _ => ())]

namespace Tree

/-- The effects of evaluating a tree, from left to right. -/
def effects : Tree → List Effect :=
  recurse fun form attrs =>
    if form.kind.isFunctionLike then [.define ⟨form.map Prod.fst, attrs⟩]
    else form.children.flatMap Prod.snd ++ form.operation

theorem effects_of_isFunctionLike {u : Tree} (h : u.isFunctionLike = true) :
    u.effects = [.define u] := by
  obtain ⟨form, attrs⟩ := u
  have hkind : (form.map fun c => (c, c.effects)).kind.isFunctionLike = true := by
    rw [Form.kind_map]
    exact h
  rw [effects, recurse_mk]
  refine (if_pos hkind).trans ?_
  rw [Form.map_map, Form.map_id]

theorem effects_of_not_isFunctionLike {u : Tree} (h : u.isFunctionLike = false) :
    u.effects = u.form.children.flatMap effects ++ u.form.operation := by
  obtain ⟨form, attrs⟩ := u
  have hkind : ¬(form.map fun c => (c, c.effects)).kind.isFunctionLike = true := by
    rw [Form.kind_map]
    exact Bool.eq_false_iff.mp h
  have hoperation : (form.map fun c => (c, c.effects)).operation = form.operation := by
    cases form <;> first | rfl | exact congrArg (fun f => [Effect.perform f]) (Form.map_map _ _ _)
  rw [effects, recurse_mk]
  refine (if_neg hkind).trans ?_
  rw [← effects, hoperation, Form.children_map, List.flatMap_map]

end Tree

/-! ## Paths -/

inductive Exit where
  | fall
  /-- A return, with or without a value. -/
  | ret (gives : Bool)

structure Path where
  effects : List Effect
  exit : Exit

abbrev Paths := Set Path

namespace Paths

/-- The one path of these effects, falling through. -/
def straight (effects : List Effect) : Paths := {⟨effects, .fall⟩}

/-- The one path of these effects, ended by a return. -/
def leaving (effects : List Effect) (gives : Bool) : Paths := {⟨effects, .ret gives⟩}

/-- The paths through two parts in order. The second part runs where the first falls through. -/
def andThen (A B : Paths) : Paths :=
  {r | (∃ p q, ⟨p, .fall⟩ ∈ A ∧ q ∈ B ∧ r = ⟨p ++ q.effects, q.exit⟩) ∨
    ∃ p gives, ⟨p, .ret gives⟩ ∈ A ∧ r = ⟨p, .ret gives⟩}

/-- The paths through any number of parts in order. -/
def sequence (parts : List Paths) : Paths := parts.foldr andThen (straight [])

/-- A path through a loop: the condition is evaluated before each round and at the end. -/
inductive Iterates (condition : List Effect) (body : Paths) : Path → Prop where
  | stop : Iterates condition body ⟨condition, .fall⟩
  | leave {p : List Effect} {gives : Bool} (h : ⟨p, .ret gives⟩ ∈ body) :
      Iterates condition body ⟨condition ++ p, .ret gives⟩
  | again {p : List Effect} {q : Path} (h : ⟨p, .fall⟩ ∈ body) (rest : Iterates condition body q) :
      Iterates condition body ⟨condition ++ p ++ q.effects, q.exit⟩

/-- The paths through a loop. -/
def iterate (condition : List Effect) (body : Paths) : Paths := {p | Iterates condition body p}

end Paths

/-- The control paths through a tree. -/
def Tree.paths : Tree → Paths :=
  recurse fun form attrs =>
    match form with
    | .ret none => .leaving [] false
    | .ret (some value) => .leaving value.1.effects true
    | .branch condition yes no =>
      (Paths.straight condition.1.effects).andThen
        (.sequence (yes.map Prod.snd) ∪ .sequence ((no.getD []).map Prod.snd))
    | .loop condition body => .iterate condition.1.effects (.sequence (body.map Prod.snd))
    | .block statements => .sequence (statements.map Prod.snd)
    | form => .straight (Tree.effects ⟨form.map Prod.fst, attrs⟩)

/-- The control paths through statements in order. -/
def Forest.paths (ts : Forest) : Paths := .sequence (ts.map Tree.paths)

/-- The effects on the control paths through statements. -/
def Forest.controlPaths (ts : Forest) : Set (List Effect) := Path.effects '' ts.paths

/-! ## Paths of trees -/

/-- The kinds that decide where a path goes on. -/
def Kind.steers : Kind → Bool
  | .ret | .branch | .loop | .block => true
  | _ => false

namespace Tree

variable (attrs : Attributes)

theorem paths_ret_none : paths ⟨.ret none, attrs⟩ = .leaving [] false := by
  rw [paths, recurse_mk]
  rfl

theorem paths_ret_some (value : Tree) :
    paths ⟨.ret (some value), attrs⟩ = .leaving value.effects true := by
  rw [paths, recurse_mk]
  rfl

theorem paths_branch (condition : Tree) (yes : Forest) (no : Option Forest) :
    paths ⟨.branch condition yes no, attrs⟩ =
      (Paths.straight condition.effects).andThen (yes.paths ∪ Forest.paths (no.getD [])) := by
  rw [paths, recurse_mk, ← paths]
  cases no <;> simp only [Form.map, List.map_map, Option.map_some, Option.map_none, Option.getD] <;>
    rfl

theorem paths_loop (condition : Tree) (body : Forest) :
    paths ⟨.loop condition body, attrs⟩ = .iterate condition.effects body.paths := by
  rw [paths, recurse_mk, ← paths]
  simp only [Form.map, List.map_map]
  rfl

theorem paths_block (statements : Forest) : paths ⟨.block statements, attrs⟩ = statements.paths := by
  rw [paths, recurse_mk, ← paths]
  simp only [Form.map, List.map_map]
  rfl

theorem paths_of_not_steers {u : Tree} (h : u.kind.steers = false) : u.paths = .straight u.effects := by
  obtain ⟨form, attrs⟩ := u
  have hpaths : Paths.straight (effects ⟨(form.map fun c => (c, c.paths)).map Prod.fst, attrs⟩) =
      .straight (effects ⟨form, attrs⟩) := by
    rw [Form.map_map, Form.map_id]
  rw [paths, recurse_mk, ← paths]
  cases form <;> first | contradiction | exact hpaths

end Tree

/-! ## Closing -/

/-- The exit with a value, if it is a return. -/
def Exit.valued : Exit → Exit
  | fall => fall
  | ret _ => ret true

/-- The path with the effects that its exit calls for; a return gives a value then. -/
def Path.close (closing : Exit → List Effect) (p : Path) : Path :=
  ⟨p.effects ++ closing p.exit, p.exit.valued⟩

namespace Paths

section
variable {closing : Exit → List Effect}

theorem mem_image_close_ret {A : Paths} {p : List Effect} {gives : Bool} :
    ⟨p, .ret gives⟩ ∈ Path.close closing '' A ↔
      gives = true ∧ ∃ q given, ⟨q, .ret given⟩ ∈ A ∧ p = q ++ closing (.ret given) := by
  constructor
  · rintro ⟨⟨q, exit⟩, hq, hclose⟩
    cases exit with
    | fall => cases hclose
    | ret given =>
      cases hclose
      exact ⟨rfl, q, given, hq, rfl⟩
  · rintro ⟨rfl, q, given, hq, rfl⟩
    exact ⟨⟨q, .ret given⟩, hq, rfl⟩

variable (hfall : closing .fall = [])

include hfall

theorem mem_image_close_fall {A : Paths} {p : List Effect} :
    ⟨p, .fall⟩ ∈ Path.close closing '' A ↔ ⟨p, .fall⟩ ∈ A := by
  constructor
  · rintro ⟨⟨q, exit⟩, hq, hclose⟩
    cases exit with
    | fall =>
      rw [Path.close, hfall, List.append_nil] at hclose
      cases hclose
      exact hq
    | ret given => cases hclose
  · intro hp
    refine ⟨⟨p, .fall⟩, hp, ?_⟩
    rw [Path.close, hfall, List.append_nil]
    rfl

theorem image_close_straight (effects : List Effect) :
    Path.close closing '' straight effects = straight effects := by
  rw [straight, Set.image_singleton, Path.close, hfall, List.append_nil]
  rfl

theorem image_close_andThen {ending : Exit → List Effect}
    (hret : ∀ gives, closing (.ret gives) = ending (.ret gives)) (A B : Paths) :
    Path.close ending '' A.andThen B =
      andThen (Path.close closing '' A) (Path.close ending '' B) := by
  -- the first part must not be closed where it falls through, since the path goes on there
  ext r
  constructor
  · rintro ⟨_, ⟨p, q, hp, hq, rfl⟩ | ⟨p, gives, hp, rfl⟩, rfl⟩
    · refine .inl ⟨p, q.close ending, (mem_image_close_fall hfall).mpr hp, ⟨q, hq, rfl⟩, ?_⟩
      rw [Path.close, List.append_assoc]
      rfl
    · refine .inr ⟨p ++ ending (.ret gives), true, ?_, rfl⟩
      exact mem_image_close_ret.mpr ⟨rfl, p, gives, hp, by rw [hret]⟩
  · rintro (⟨p, _, hp, ⟨q, hq, rfl⟩, rfl⟩ | ⟨_, _, hp, rfl⟩)
    · refine ⟨_, .inl ⟨p, q, (mem_image_close_fall hfall).mp hp, hq, rfl⟩, ?_⟩
      rw [Path.close, List.append_assoc]
      rfl
    · obtain ⟨rfl, q, given, hq, rfl⟩ := mem_image_close_ret.mp hp
      refine ⟨_, .inr ⟨q, given, hq, rfl⟩, ?_⟩
      rw [Path.close, hret]
      rfl

theorem image_close_sequence (parts : List Paths) :
    Path.close closing '' sequence parts =
      sequence (parts.map (Set.image (Path.close closing))) := by
  induction parts with
  | nil => exact image_close_straight hfall []
  | cons A parts ih =>
    have h := image_close_andThen hfall (fun _ => rfl) A (sequence parts)
    rw [ih] at h
    exact h

theorem image_close_iterate (condition : List Effect) (body : Paths) :
    Path.close closing '' iterate condition body =
      iterate condition (Path.close closing '' body) := by
  -- induction on the rounds, both ways: every round but the last falls through, where closing adds
  -- nothing, so it is a round of the one body exactly when it is a round of the other
  ext r
  constructor
  · rintro ⟨p, hp, rfl⟩
    induction hp with
    | stop =>
      rw [Path.close, hfall, List.append_nil]
      exact .stop
    | leave h =>
      rw [Path.close, List.append_assoc]
      exact .leave (mem_image_close_ret.mpr ⟨rfl, _, _, h, rfl⟩)
    | again h _ ih =>
      rw [Path.close, List.append_assoc]
      exact .again ((mem_image_close_fall hfall).mpr h) ih
  · intro hr
    induction hr with
    | stop =>
      refine ⟨_, .stop, ?_⟩
      rw [Path.close, hfall, List.append_nil]
      rfl
    | leave h =>
      obtain ⟨rfl, q, given, hq, rfl⟩ := mem_image_close_ret.mp h
      refine ⟨_, .leave hq, ?_⟩
      rw [Path.close, List.append_assoc]
      rfl
    | again h _ ih =>
      obtain ⟨q, hq, rfl⟩ := ih
      refine ⟨_, .again ((mem_image_close_fall hfall).mp h) hq, ?_⟩
      rw [Path.close, List.append_assoc]
      rfl

end

/-! ## Sequences -/

theorem straight_andThen (effects : List Effect) (A : Paths) :
    (straight effects).andThen A = (fun p => ⟨effects ++ p.effects, p.exit⟩) '' A := by
  ext r
  constructor
  · rintro (⟨p, q, hp, hq, rfl⟩ | ⟨p, gives, hp, rfl⟩)
    · cases hp
      exact ⟨q, hq, rfl⟩
    · cases hp
  · rintro ⟨q, hq, rfl⟩
    exact .inl ⟨effects, q, rfl, hq, rfl⟩

theorem nil_andThen (A : Paths) : (straight []).andThen A = A := by
  rw [straight_andThen]
  exact Set.image_id A

theorem andThen_nil (A : Paths) : A.andThen (straight []) = A := by
  ext ⟨r, exit⟩
  constructor
  · rintro (⟨p, q, hp, rfl, h⟩ | ⟨p, gives, hp, h⟩)
    · cases h
      rwa [List.append_nil]
    · cases h
      exact hp
  · intro hr
    cases exit with
    | fall => exact .inl ⟨r, ⟨[], .fall⟩, hr, rfl, by rw [List.append_nil]⟩
    | ret gives => exact .inr ⟨r, gives, hr, rfl⟩

theorem andThen_assoc (A B C : Paths) : (A.andThen B).andThen C = A.andThen (B.andThen C) := by
  ext r
  constructor
  · rintro (⟨_, q, ⟨p, ⟨p₁, _⟩, hp, h₁, h⟩ | ⟨p, gives, hp, h⟩, hq, rfl⟩ |
      ⟨_, _, ⟨p, ⟨p₁, _⟩, hp, h₁, h⟩ | ⟨p, gives, hp, h⟩, rfl⟩)
    · cases h
      exact .inl ⟨p, _, hp, .inl ⟨p₁, q, h₁, hq, rfl⟩, by rw [List.append_assoc]⟩
    · cases h
    · cases h
      exact .inl ⟨p, _, hp, .inr ⟨p₁, _, h₁, rfl⟩, rfl⟩
    · cases h
      exact .inr ⟨_, _, hp, rfl⟩
  · rintro (⟨p, _, hp, ⟨q₁, q, h₁, hq, rfl⟩ | ⟨q, gives, hq, rfl⟩, rfl⟩ | ⟨p, gives, hp, rfl⟩)
    · exact .inl ⟨p ++ q₁, q, .inl ⟨p, ⟨q₁, .fall⟩, hp, h₁, rfl⟩, hq, by rw [List.append_assoc]⟩
    · exact .inr ⟨p ++ q, gives, .inl ⟨p, ⟨q, .ret gives⟩, hp, hq, rfl⟩, rfl⟩
    · exact .inr ⟨p, gives, .inr ⟨p, gives, hp, rfl⟩, rfl⟩

theorem sequence_append (parts rest : List Paths) :
    sequence (parts ++ rest) = (sequence parts).andThen (sequence rest) := by
  induction parts with
  | nil => exact (nil_andThen _).symm
  | cons A parts ih =>
    show A.andThen (sequence (parts ++ rest)) = (A.andThen (sequence parts)).andThen (sequence rest)
    rw [ih, andThen_assoc]

/-! ## Some path exists -/

theorem andThen_nonempty {A B : Paths} (hA : A.Nonempty) (hB : B.Nonempty) :
    (A.andThen B).Nonempty := by
  obtain ⟨⟨p, exit⟩, hp⟩ := hA
  obtain ⟨q, hq⟩ := hB
  cases exit with
  | fall => exact ⟨_, .inl ⟨p, q, hp, hq, rfl⟩⟩
  | ret gives => exact ⟨_, .inr ⟨p, gives, hp, rfl⟩⟩

theorem sequence_nonempty {parts : List Paths} (h : ∀ A ∈ parts, A.Nonempty) :
    (sequence parts).Nonempty := by
  induction parts with
  | nil => exact Set.singleton_nonempty _
  | cons A parts ih =>
    obtain ⟨hA, hparts⟩ := List.forall_mem_cons.mp h
    exact andThen_nonempty hA (ih hparts)

/-! ## Effects on every path -/

/-- Every effect on every path has the property. -/
def Throughout (P : Effect → Prop) (A : Paths) : Prop := ∀ p ∈ A, ∀ e ∈ p.effects, P e

section
variable {P : Effect → Prop}

theorem throughout_straight {effects : List Effect} (h : ∀ e ∈ effects, P e) :
    Throughout P (straight effects) := by
  rintro p rfl
  exact h

theorem throughout_leaving {effects : List Effect} (h : ∀ e ∈ effects, P e) (gives : Bool) :
    Throughout P (leaving effects gives) := by
  rintro p rfl
  exact h

theorem Throughout.union {A B : Paths} (hA : Throughout P A) (hB : Throughout P B) :
    Throughout P (A ∪ B) := by
  rintro p (hp | hp)
  · exact hA p hp
  · exact hB p hp

theorem Throughout.andThen {A B : Paths} (hA : Throughout P A) (hB : Throughout P B) :
    Throughout P (A.andThen B) := by
  rintro _ (⟨p, q, hp, hq, rfl⟩ | ⟨p, gives, hp, rfl⟩) e he
  · obtain he | he := List.mem_append.mp he
    · exact hA _ hp e he
    · exact hB q hq e he
  · exact hA _ hp e he

theorem throughout_sequence {parts : List Paths} (h : ∀ A ∈ parts, Throughout P A) :
    Throughout P (sequence parts) := by
  induction parts with
  | nil =>
    refine throughout_straight ?_
    intro e he
    cases he
  | cons A parts ih =>
    obtain ⟨hA, hparts⟩ := List.forall_mem_cons.mp h
    exact hA.andThen (ih hparts)

theorem throughout_iterate {condition : List Effect} {body : Paths} (h : ∀ e ∈ condition, P e)
    (hbody : Throughout P body) : Throughout P (iterate condition body) := by
  intro p hp
  induction hp with
  | stop => exact h
  | leave hleave =>
    intro e he
    obtain he | he := List.mem_append.mp he
    · exact h e he
    · exact hbody _ hleave e he
  | again hround _ ih =>
    intro e he
    obtain he | he := List.mem_append.mp he
    · obtain he | he := List.mem_append.mp he
      · exact h e he
      · exact hbody _ hround e he
    · exact ih e he

end

end Paths

/-! ## Paths of statements -/

namespace Forest

theorem paths_append (ts us : Forest) :
    Forest.paths (ts ++ us) = ts.paths.andThen us.paths := by
  rw [paths, List.map_append, Paths.sequence_append]
  rfl

theorem paths_singleton (u : Tree) : Forest.paths [u] = u.paths := Paths.andThen_nil _

theorem paths_nonempty_of_forall {ts : Forest} (h : ∀ u ∈ ts, u.paths.Nonempty) :
    ts.paths.Nonempty := by
  refine Paths.sequence_nonempty fun A hA => ?_
  obtain ⟨u, hu, rfl⟩ := List.mem_map.mp hA
  exact h u hu

end Forest

/-- Some control path goes through every tree. -/
theorem Tree.paths_nonempty (u : Tree) : u.paths.Nonempty := by
  induction u using Tree.inductionOn with
  | mk form attrs ih =>
    cases hsteers : form.kind.steers with
    | false =>
      rw [paths_of_not_steers (u := ⟨form, attrs⟩) hsteers]
      exact Set.singleton_nonempty _
    | true =>
      cases form with
      | ret value =>
        cases value with
        | none =>
          rw [paths_ret_none]
          exact Set.singleton_nonempty _
        | some v =>
          rw [paths_ret_some]
          exact Set.singleton_nonempty _
      | branch condition yes no =>
        have hyes : (Forest.paths yes).Nonempty :=
          Forest.paths_nonempty_of_forall fun c hc => ih c (by simp [Form.children, hc])
        rw [paths_branch]
        exact Paths.andThen_nonempty (Set.singleton_nonempty _) hyes.inl
      | loop condition body =>
        rw [paths_loop]
        exact ⟨_, .stop⟩
      | block statements =>
        rw [paths_block]
        exact Forest.paths_nonempty_of_forall ih
      | _ => contradiction

theorem Forest.paths_nonempty (ts : Forest) : ts.paths.Nonempty :=
  Forest.paths_nonempty_of_forall fun u _ => u.paths_nonempty

end Graft
