import Graft.Proofs.Refill

/-! # Removal

The pass that removes the trees of some kinds when it leaves them. Either no tree of these kinds stands
in a required slot, and the run prunes the forest and counts what it removed; or the run fails, at the
first such slot in the order in which the walk leaves the children (`run_remover`).

Each part of a walk with this pass is known from the required slots that it comes by (`Removes`).
-/

set_option autoImplicit false

namespace Graft

/-- The pass that removes trees by their kind on leaving them, and keeps the others. -/
def Pass.remover (kinds : Kind → Bool) : Pass :=
  { Pass.idle with leave := fun s t => some (s, if kinds t.kind then .remove else .keep t) }

/-! ## What is lost and what is left -/

/-- A required slot, with the kind of the tree that it belongs to and of the child in it. -/
structure Occupied where
  parent : Kind
  slot : Slot
  child : Kind

namespace Tree

/-- The required slots of a tree at any depth, in the order in which a walk leaves their children. -/
def occupied : Tree → List Occupied :=
  recurse fun form _ => form.slots.flatMap fun c =>
    c.2.2 ++ c.1.toList.map fun slot => ⟨form.kind, slot, c.2.1.kind⟩

variable (kinds : Kind → Bool)

/-- The tree without the trees of the given kinds below it, where a child may vanish. -/
def without : Tree → Tree :=
  recurse fun form attrs => ⟨(form.prune fun c => !kinds c.1.kind).map (·.2), attrs⟩

/-- How many nodes of the given kinds the tree has. -/
def countOf : Tree → Nat :=
  recurse fun form _ => (form.children.map (·.2)).foldr (· + ·) (kinds form.kind).toNat

end Tree

namespace Forest
variable (kinds : Kind → Bool)

def occupied (ts : Forest) : List Occupied := ts.flatMap Tree.occupied

def without (ts : Forest) : Forest := (ts.filter fun t => !kinds t.kind).map (Tree.without kinds)

def countOf (ts : Forest) : Nat := (ts.map (Tree.countOf kinds)).foldr (· + ·) 0

end Forest

/-- The required slots that a walk comes by in one slot of a tree. -/
def occupiedIn (parent : Kind) (c : Option Slot × Tree) : List Occupied :=
  c.2.occupied ++ c.1.toList.map fun slot => ⟨parent, slot, c.2.kind⟩

namespace Tree

theorem occupied_mk (form : Form Tree) (attrs : Attributes) :
    occupied ⟨form, attrs⟩ = form.slots.flatMap (occupiedIn form.kind) := by
  rw [occupied, recurse_mk, Form.slots_map, List.flatMap_map, Form.kind_map]
  rfl

variable (kinds : Kind → Bool)

theorem without_mk (form : Form Tree) (attrs : Attributes) :
    without kinds ⟨form, attrs⟩ =
      ⟨(form.prune fun c => !kinds c.kind).map (without kinds), attrs⟩ := by
  rw [without, recurse_mk, Form.prune_map, Form.map_map]

theorem kind_without (t : Tree) : (t.without kinds).kind = t.kind := by
  cases t with
  | mk form attrs =>
    rw [without_mk, kind, Form.kind_map, Form.kind_prune, kind]

theorem countOf_mk (form : Form Tree) (attrs : Attributes) :
    countOf kinds ⟨form, attrs⟩ =
      (kinds form.kind).toNat + (form.children.map (countOf kinds)).foldr (· + ·) 0 := by
  rw [countOf, recurse_mk, Form.children_map, List.map_map, foldr_add_base, Form.kind_map]
  rfl

/-- The tally of a walk through a tree that removes the given kinds and loses no required child. -/
def sweep (t : Tree) : Tally := { visited := t.count, removed := t.countOf kinds }

end Tree

theorem total_sweep (kinds : Kind → Bool) (ts : Forest) :
    Tally.total (ts.map (Tree.sweep kinds)) = { visited := ts.count, removed := ts.countOf kinds } := by
  induction ts with
  | nil => rfl
  | cons t ts ih =>
    have hcons : Tally.total ((t :: ts).map (Tree.sweep kinds)) =
        t.sweep kinds + Tally.total (ts.map (Tree.sweep kinds)) := rfl
    rw [hcons, ih]
    rfl

/-- The tally of a visit: the node itself, what is below it, and its removal. -/
theorem Tree.sweep_mk (kinds : Kind → Bool) (form : Form Tree) (attrs : Attributes) :
    sweep kinds ⟨form, attrs⟩ =
      { visited := 1 } + (Tally.total (form.children.map (sweep kinds)) +
        { removed := (kinds form.kind).toNat }) := by
  rw [total_sweep, sweep, count_mk, countOf_mk, Tally.add_def, Tally.add_def]
  simp [Forest.count, Forest.countOf, Nat.add_comm]

/-! ## Walks -/

/-- A part of a walk with the removing pass. It gives a value with a tally when none of the listed slots
loses its child, and fails at the first that does. -/
def Removes (kinds : Kind → Bool) {α : Type} (l : List Occupied) (a : α) (tally : Tally)
    (w : WalkM α) : Prop :=
  match l.find? (kinds ·.child) with
  | none => ∃ journal, w [.remover kinds] = .done a [.remover kinds] ⟨tally, journal⟩
  | some o => ∃ x, w [.remover kinds] = .failed (.lostChild o.parent o.slot) [.remover kinds] x

namespace Removes
variable {kinds : Kind → Bool} {α β γ : Type}

theorem pure (a : α) : Removes kinds [] a {} (Pure.pure a) := ⟨[], rfl⟩

theorem bind {l k : List Occupied} {a : α} {b : β} {x y : Tally} {w : WalkM α} {f : α → WalkM β}
    (hw : Removes kinds l a x w) (hf : Removes kinds k b y (f a)) :
    Removes kinds (l ++ k) b (x + y) (w >>= f) := by
  rw [Removes, List.find?_append]
  cases hl : l.find? (kinds ·.child) with
  | some o =>
    rw [Removes, hl] at hw
    obtain ⟨account, hw⟩ := hw
    exact ⟨account, WalkM.bind_failed hw⟩
  | none =>
    rw [Removes, hl] at hw
    obtain ⟨journal, hw⟩ := hw
    rw [Option.none_or]
    cases hk : k.find? (kinds ·.child) with
    | some o =>
      rw [Removes, hk] at hf
      obtain ⟨account, hf⟩ := hf
      refine ⟨⟨x, journal⟩ ++ account, ?_⟩
      rw [WalkM.bind_done hw, hf]
      rfl
    | none =>
      rw [Removes, hk] at hf
      obtain ⟨later, hf⟩ := hf
      refine ⟨journal ++ later, ?_⟩
      rw [WalkM.bind_done hw, hf]
      rfl

theorem map {l : List Occupied} {a : α} {x : Tally} {w : WalkM α} (f : α → β)
    (hw : Removes kinds l a x w) :
    Removes kinds l (f a) x (w >>= fun a => Pure.pure (f a)) := by
  have hmap := hw.bind (f := fun a => Pure.pure (f a)) (pure (f a))
  rwa [List.append_nil, Tally.add_zero] at hmap

theorem each {step : γ → WalkM β} {g : γ → β} {slots : γ → List Occupied} {tally : γ → Tally}
    (cs : List γ) (h : ∀ c ∈ cs, Removes kinds (slots c) (g c) (tally c) (step c)) :
    Removes kinds (cs.flatMap slots) (cs.map g) (Tally.total (cs.map tally)) (each step cs) := by
  induction cs with
  | nil => exact pure []
  | cons c cs ih =>
    obtain ⟨hc, hcs⟩ := List.forall_mem_cons.mp h
    exact hc.bind ((ih hcs).map (g c :: ·))

/-- A child that is removed from a required slot is lost. -/
theorem place {visit : Tree → WalkM (Option Tree)} {c : Option Slot × Tree} {tally : Tally}
    (parent : Kind)
    (h : Removes kinds c.2.occupied (kept (fun t => !kinds t.kind) (Tree.without kinds) c.2) tally
      (visit c.2)) :
    Removes kinds (occupiedIn parent c) (placed (fun t => !kinds t.kind) (Tree.without kinds) c) tally
      (WalkM.place parent visit c) := by
  obtain ⟨slot, c⟩ := c
  cases slot with
  | none =>
    have hslots : occupiedIn parent (none, c) = c.occupied := List.append_nil _
    rw [hslots]
    exact h
  | some slot =>
    have hrequire : Removes kinds [⟨parent, slot, c.kind⟩] (some (c.without kinds)) {}
        (WalkM.require parent slot (kept (fun t => !kinds t.kind) (Tree.without kinds) c) >>=
          fun t => Pure.pure (some t)) := by
      cases hc : kinds c.kind with
      | true => simp [Removes, kept, hc, WalkM.require, WalkM.fail, Bind.bind]
      | false => simpa [Removes, kept, hc, WalkM.require] using pure (some (c.without kinds))
    exact bind (f := fun result => WalkM.require parent slot result >>= fun t => Pure.pure (some t))
      h hrequire

theorem enter (t : Tree) : Removes kinds [] (t, false) { visited := 1 } (WalkM.enter t) :=
  ⟨[.enter 0 t (.keep t)], rfl⟩

theorem leave (t : Tree) :
    Removes kinds [] (if kinds t.kind then none else some t) { removed := (kinds t.kind).toNat }
      (WalkM.leave t) := by
  refine ⟨[.leave 0 t (if kinds t.kind then .remove else .keep t)], ?_⟩
  have hleave : (Pass.remover kinds).doLeave t =
      some (.remover kinds, if kinds t.kind then .remove else .keep t) := rfl
  rw [WalkM.leave, leaveAll, hleave]
  cases kinds t.kind <;> rfl

theorem children {visit : Tree → WalkM (Option Tree)} (t : Tree)
    (h : ∀ c ∈ t.form.children, Removes kinds c.occupied
      (kept (fun t => !kinds t.kind) (Tree.without kinds) c) (c.sweep kinds) (visit c)) :
    Removes kinds t.occupied (t.without kinds) (Tally.total (t.form.children.map (Tree.sweep kinds)))
      (WalkM.children visit t) := by
  have hslots : ∀ c ∈ t.form.slots, Removes kinds (occupiedIn t.kind c)
      (placed (fun t => !kinds t.kind) (Tree.without kinds) c) (c.2.sweep kinds)
      (WalkM.place t.kind visit c) := by
    intro c hc
    refine place t.kind (h c.2 ?_)
    rw [← Form.map_snd_slots]
    exact List.mem_map_of_mem hc
  have hform := (each t.form.slots hslots).map fun results =>
    (⟨t.form.refill results, t.attrs⟩ : Tree)
  rw [Form.refill_placed] at hform
  rw [WalkM.children_eq, ← Form.map_snd_slots, List.map_map]
  cases t with
  | mk form attrs =>
    rw [Tree.occupied_mk, Tree.without_mk]
    exact hform

theorem visit {limit : Nat} {t : Tree} (h : t.height < limit) :
    Removes kinds t.occupied (kept (fun t => !kinds t.kind) (Tree.without kinds) t) (t.sweep kinds)
      (visit limit t) := by
  induction limit generalizing t with
  | zero => exact absurd h (Nat.not_lt_zero _)
  | succ limit ih =>
    have hbelow : ∀ c ∈ t.form.children, Removes kinds c.occupied
        (kept (fun t => !kinds t.kind) (Tree.without kinds) c) (c.sweep kinds) (Graft.visit limit c) :=
      fun c hc => ih (Nat.lt_of_lt_of_le (Tree.height_lt_of_mem hc) (Nat.le_of_lt_succ h))
    have hvisit := (enter t).bind (f := fun e => do
      let t ← if e.2 then Pure.pure e.1 else WalkM.children (Graft.visit limit) e.1
      WalkM.leave t) ((children t hbelow).bind (leave _))
    rw [List.nil_append, List.append_nil, Tree.kind_without] at hvisit
    have hsweep := Tree.sweep_mk kinds t.form t.attrs
    have hkept : kept (fun t => !kinds t.kind) (Tree.without kinds) t =
        if kinds t.kind then none else some (t.without kinds) := by
      cases hk : kinds t.kind <;> simp [kept, hk]
    rw [Tree.mk_form_attrs] at hsweep
    rw [hsweep, hkept]
    exact hvisit

theorem walk {limit : Nat} (ts : Forest) (h : ∀ t ∈ ts, t.height < limit) :
    Removes kinds ts.occupied (ts.without kinds)
      { visited := ts.count, removed := ts.countOf kinds } (walk limit ts) := by
  rw [← total_sweep]
  induction ts with
  | nil => exact pure []
  | cons t ts ih =>
    obtain ⟨ht, hts⟩ := List.forall_mem_cons.mp h
    have hwithout : Forest.without kinds (t :: ts) =
        (kept (fun t => !kinds t.kind) (Tree.without kinds) t).toList ++ Forest.without kinds ts := by
      cases hk : kinds t.kind <;> simp [Forest.without, kept, hk]
    rw [hwithout]
    exact bind (f := fun result => do
      let us ← collect (Graft.visit limit) ts
      Pure.pure (result.toList ++ us)) (visit ht) ((ih hts).map _)

end Removes

/-! ## Runs -/

theorem Tree.height_lt_depthLimit (passes : List Pass) {ts : Forest} {t : Tree} (h : t ∈ ts) :
    t.height < depthLimit passes ts := by
  have hheight : t.height + 1 ≤ ts.height := le_foldr_max 0 (List.mem_map_of_mem (f := (height · + 1)) h)
  have hlimit : ts.height + 3 ≤ (passes.length + 3) * (ts.height + 3) :=
    Nat.le_mul_of_pos_left _ (Nat.succ_pos _)
  rw [depthLimit]
  omega

theorem Tree.exists_slot {t c : Tree} (h : c ∈ t.form.children) :
    ∃ slot, (slot, c) ∈ t.form.slots := by
  rw [← Form.map_snd_slots] at h
  obtain ⟨⟨slot, d⟩, hd, rfl⟩ := List.mem_map.mp h
  exact ⟨slot, hd⟩

theorem Tree.mem_occupied_iff {t : Tree} {o : Occupied} :
    o ∈ t.occupied ↔ ∃ u slot c, t.Contains u ∧ (some slot, c) ∈ u.form.slots ∧
      o = ⟨u.kind, slot, c.kind⟩ := by
  constructor
  · induction t using Tree.inductionOn with
    | mk form attrs ih =>
      intro ho
      rw [occupied_mk] at ho
      obtain ⟨⟨slot, c⟩, hc, ho⟩ := List.mem_flatMap.mp ho
      have hchild : c ∈ form.children := by
        rw [← Form.map_snd_slots]
        exact List.mem_map_of_mem hc
      rcases List.mem_append.mp ho with hbelow | hhere
      · obtain ⟨u, slot, d, hu, hd, rfl⟩ := ih c hchild hbelow
        exact ⟨u, slot, d, .inChild hchild hu, hd, rfl⟩
      · obtain ⟨slot, hslot, rfl⟩ := List.mem_map.mp hhere
        rw [Option.mem_toList] at hslot
        cases hslot
        exact ⟨⟨form, attrs⟩, slot, c, .here _, hc, rfl⟩
  · rintro ⟨u, slot, c, hu, hc, rfl⟩
    induction hu with
    | here u =>
      rw [← u.mk_form_attrs, occupied_mk]
      refine List.mem_flatMap.mpr ⟨_, hc, List.mem_append_right _ ?_⟩
      exact List.mem_singleton_self _
    | @inChild t d u hd _ ih =>
      obtain ⟨place, hplace⟩ := t.exists_slot hd
      rw [← t.mk_form_attrs, occupied_mk]
      exact List.mem_flatMap.mpr ⟨_, hplace, List.mem_append_left _ (ih hc)⟩

theorem Forest.find?_occupied_eq_none_iff (kinds : Kind → Bool) (ts : Forest) :
    ts.occupied.find? (kinds ·.child) = none ↔
      ∀ t ∈ ts, ∀ u slot c, t.Contains u → (some slot, c) ∈ u.form.slots → kinds c.kind = false := by
  rw [List.find?_eq_none]
  constructor
  · intro h t ht u slot c hu hc
    have hmem : ⟨u.kind, slot, c.kind⟩ ∈ ts.occupied :=
      List.mem_flatMap.mpr ⟨t, ht, Tree.mem_occupied_iff.mpr ⟨u, slot, c, hu, hc, rfl⟩⟩
    exact Bool.eq_false_iff.mpr (h _ hmem)
  · intro h o ho
    obtain ⟨t, ht, ho⟩ := List.mem_flatMap.mp ho
    obtain ⟨u, slot, c, hu, hc, rfl⟩ := Tree.mem_occupied_iff.mp ho
    exact Bool.eq_false_iff.mp (h t ht u slot c hu hc)

/-- The pass that removes the trees of some kinds succeeds exactly when none of them stands in a required
slot, at any depth. It then prunes the forest and counts every node and every removal; otherwise it
fails at the first such slot. -/
theorem run_remover (kinds : Kind → Bool) (ts : Forest) :
    ((∃ us tally, (run [.remover kinds] ts).result = .ok (us, tally)) ↔
      ∀ t ∈ ts, ∀ u slot c, t.Contains u → (some slot, c) ∈ u.form.slots → kinds c.kind = false) ∧
    (run [.remover kinds] ts).result =
      match ts.occupied.find? (kinds ·.child) with
      | none => .ok (ts.without kinds, { visited := ts.count, removed := ts.countOf kinds })
      | some o => .error (.lostChild o.parent o.slot) := by
  have hwalk : Removes kinds ts.occupied (ts.without kinds)
      { visited := ts.count, removed := ts.countOf kinds }
      (walk (depthLimit [.remover kinds] ts) ts) :=
    .walk ts fun t ht => Tree.height_lt_depthLimit _ ht
  have hbefore : beforeAll 0 [.remover kinds] ts = ⟨ts, [.remover kinds], [.before 0 ts]⟩ := rfl
  rw [← Forest.find?_occupied_eq_none_iff]
  cases hfirst : ts.occupied.find? (kinds ·.child) with
  | none =>
    rw [Removes, hfirst] at hwalk
    obtain ⟨journal, hwalk⟩ := hwalk
    have hrun : (run [.remover kinds] ts).result =
        .ok (ts.without kinds, { visited := ts.count, removed := ts.countOf kinds }) := by
      simp only [run, runWithin, hbefore, hwalk]
      rfl
    exact ⟨⟨fun _ => rfl, fun _ => ⟨_, _, hrun⟩⟩, hrun⟩
  | some o =>
    rw [Removes, hfirst] at hwalk
    obtain ⟨account, hwalk⟩ := hwalk
    have hrun : (run [.remover kinds] ts).result = .error (.lostChild o.parent o.slot) := by
      simp only [run, runWithin, hbefore, hwalk]
    refine ⟨⟨?_, fun h => nomatch h⟩, hrun⟩
    rintro ⟨us, tally, hok⟩
    rw [hrun] at hok
    contradiction

end Graft
