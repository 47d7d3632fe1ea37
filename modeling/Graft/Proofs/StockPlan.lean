import Graft.Proofs.Stock

/-! # The plan of stock passes

A list of stock passes follows a plan (`follows`). Its measure counts the levels of visits: an end
mark adds one level to a return, a redirected access adds none below its children, and the texts that
a redirected access may bring are leaves that no pass touches. The bound on the nesting of visits in a
run is always larger, so a run of stock passes succeeds and gives the result of the plan, whatever
the depth at which the passes begin (`run_eq`).
-/

set_option autoImplicit false

namespace Graft.Stock

/-! ## Levels -/

/-- How deeply the visits below a tree are nested when each top-level return receives `marks` end
marks. -/
def levels (marks : Nat) : Tree → Nat :=
  Tree.recurse fun form _ =>
    match form.kind with
    | .literal => 0
    | .ret => marks + (form.children.map (·.2)).foldr max 1 + 1
    | _ => (form.children.map (·.2)).foldr max 0 + 1

section
variable (m : Nat)

theorem levels_mk (form : Form Tree) (attrs : Attributes) :
    levels m ⟨form, attrs⟩ =
      match form.kind with
      | .literal => 0
      | .ret => m + (form.children.map (levels m)).foldr max 1 + 1
      | _ => (form.children.map (levels m)).foldr max 0 + 1 := by
  rw [levels, Tree.recurse_mk, Form.kind_map]
  simp only [Form.children_map, List.map_map]
  rfl

theorem levels_text (s : String) : levels m (.text s) = 0 := rfl

theorem levels_ret (value : Option Tree) (attrs : Attributes) :
    levels m ⟨.ret value, attrs⟩ =
      m + (value.toList.map (levels m)).foldr max 1 + 1 :=
  levels_mk m (.ret value) attrs

theorem levels_of_kind_ne {t : Tree} (hliteral : t.kind ≠ .literal) (hret : t.kind ≠ .ret) :
    levels m t = (t.form.children.map (levels m)).foldr max 0 + 1 := by
  cases t with
  | mk form attrs =>
    rw [levels_mk]
    cases form <;> first | rfl | contradiction

theorem children_of_kind_literal {t : Tree} (h : t.kind = .literal) : t.form.children = [] := by
  cases t with
  | mk form attrs => cases form <;> first | rfl | contradiction

theorem levels_lt_of_mem {t c : Tree} (h : c ∈ t.form.children) : levels m c < levels m t := by
  have hmem : levels m c ∈ t.form.children.map (levels m) := List.mem_map_of_mem h
  by_cases hliteral : t.kind = .literal
  · rw [children_of_kind_literal hliteral] at h
    contradiction
  by_cases hret : t.kind = .ret
  · cases t with
    | mk form attrs =>
      cases form with
      | ret value =>
        have hle := le_foldr_max 1 hmem
        rw [levels_ret]
        simp only [Form.children] at hle
        omega
      | _ => contradiction
  · have hle := le_foldr_max 0 hmem
    rw [levels_of_kind_ne m hliteral hret]
    omega

theorem levels_le_height (t : Tree) : levels m t ≤ (m + 1) * (t.height + 1) + 1 := by
  induction t using Tree.inductionOn with
  | mk form attrs ih =>
    have hchildren : ∀ n ∈ form.children.map (levels m),
        n ≤ (m + 1) * Tree.height ⟨form, attrs⟩ + 1 := by
      intro n hn
      obtain ⟨c, hc, rfl⟩ := List.mem_map.mp hn
      have hlt : c.height + 1 ≤ Tree.height ⟨form, attrs⟩ :=
        Tree.height_lt_of_mem (t := ⟨form, attrs⟩) hc
      have hmul := Nat.mul_le_mul_left (m + 1) hlt
      have := ih c hc
      omega
    have hone := (foldr_max_le_iff 1 _ _).mpr ⟨by omega, hchildren⟩
    have hzero := (foldr_max_le_iff 0 _ _).mpr ⟨by omega, hchildren⟩
    rw [levels_mk, Nat.mul_succ]
    split <;> omega

end

/-! ## Entering descends -/

theorem children_redirect (b : Bypass) (access : Access) (t : Tree) :
    (b.redirect access t).form.children = Arg.children (Access.arguments t.form) := rfl

/-- How many of the passes put an end mark into a top-level return. -/
def marks : List Stock → Nat
  | [] => 0
  | timing _ :: rest => marks rest + 1
  | bypass _ :: rest => marks rest

theorem marks_le_length (ps : List Stock) : marks ps ≤ ps.length := by
  induction ps with
  | nil => exact Nat.le_refl 0
  | cons s ps ih =>
    rw [List.length_cons]
    cases s with
    | timing t => exact Nat.succ_le_succ ih
    | bypass b => exact Nat.le_succ_of_le ih

theorem enters_eq_self {depth : Nat} {t : Tree} (ps : List Stock)
    (hret : t.kind = .ret → depth ≠ 0) (haccess : ∀ (b : Bypass) access, ¬b.Redirects t.form access) :
    enters depth ps t = t := by
  induction ps with
  | nil => rfl
  | cons s ps ih =>
    obtain ⟨-, h⟩ | ⟨_, value, -, hdepth, hform, -⟩ | ⟨b, access, -, hb, -⟩ := s.enter_cases depth t
    · rw [enters, h, ih]
    · have hkind : t.kind = .ret := by rw [Tree.kind, hform]; rfl
      exact absurd hdepth (hret hkind)
    · exact absurd hb (haccess b access)

theorem levels_enters_le (m n : Nat) {depth : Nat} {t : Tree} (ps : List Stock)
    (hret : t.kind = .ret → depth ≠ 0) (hn : ∀ c ∈ t.form.children, levels m c ≤ n) :
    ∀ c ∈ (enters depth ps t).form.children, levels m c ≤ n := by
  induction ps generalizing t with
  | nil => exact hn
  | cons s ps ih =>
    obtain ⟨-, h⟩ | ⟨_, value, -, hdepth, hform, -⟩ | ⟨b, access, -, hb, -, -, h⟩ :=
      s.enter_cases depth t
    · rw [enters, h]
      exact ih hret hn
    · have hkind : t.kind = .ret := by rw [Tree.kind, hform]; rfl
      exact absurd hdepth (hret hkind)
    -- a redirected assignment drops its target and takes up the children of the target
    · rw [enters, h]
      refine ih ?_ ?_
      · intro hkind
        cases hkind
      rw [children_redirect]
      refine hb.forall_arguments (fun s => ?_) hn fun c hc d hd => ?_
      · rw [levels_text]
        exact Nat.zero_le n
      · exact Nat.le_of_lt (Nat.lt_of_lt_of_le (levels_lt_of_mem m hd) (hn c hc))

theorem levels_endMarkFor (m : Nat) (t : Timing) (value : Option Tree) :
    levels m (t.endMarkFor value) ≤ (value.toList.map (levels m)).foldr max 1 + 1 := by
  cases value with
  | none => exact Nat.le_refl 2
  | some v =>
    have h : levels m (t.endMark v) = max (levels m v) 0 + 1 := rfl
    simp only [Timing.endMarkFor, h, Option.toList_some, List.map_cons, List.map_nil,
      List.foldr_cons, List.foldr_nil]
    omega

theorem enters_ret (m : Nat) (ps : List Stock) (value : Option Tree) (attrs : Attributes) :
    ∃ value', enters 0 ps ⟨.ret value, attrs⟩ = ⟨.ret value', attrs⟩ ∧
      (value'.toList.map (levels m)).foldr max 1 ≤
        marks ps + (value.toList.map (levels m)).foldr max 1 := by
  induction ps generalizing value with
  | nil => exact ⟨value, rfl, by rw [marks]; omega⟩
  | cons s ps ih =>
    cases s with
    -- each timing pass puts one more level into a top-level return
    | timing t =>
      obtain ⟨value', h, hle⟩ := ih (some (t.endMarkFor value))
      have hmark := levels_endMarkFor m t value
      refine ⟨value', by rw [enters, enter_timing_ret, h], ?_⟩
      simp only [Option.toList_some, List.map_cons, List.map_nil, List.foldr_cons,
        List.foldr_nil] at hle
      rw [marks]
      omega
    | bypass b =>
      obtain ⟨value', h, hle⟩ := ih value
      exact ⟨value', h, hle⟩

theorem levels_lt_of_mem_enters (depth : Nat) (ps : List Stock) (t : Tree) :
    ∀ c ∈ (enters depth ps t).form.children, levels (marks ps) c < levels (marks ps) t := by
  intro c hc
  by_cases hliteral : t.kind = .literal
  · have hself : enters depth ps t = t := by
      refine enters_eq_self ps (fun hret => ?_) ?_
      · rw [hliteral] at hret
        contradiction
      · intro b access h
        obtain ⟨form, attrs⟩ := t
        cases h <;> contradiction
    rw [hself] at hc
    exact levels_lt_of_mem _ hc
  by_cases hret : t.kind = .ret
  · by_cases hdepth : depth = 0
    · cases t with
      | mk form attrs =>
        cases form with
        | ret value =>
          subst hdepth
          obtain ⟨value', h, hle⟩ := enters_ret (marks ps) ps value attrs
          rw [h] at hc
          have hmem := le_foldr_max 1 (List.mem_map_of_mem (f := levels (marks ps)) hc)
          simp only [Form.children] at hmem
          rw [levels_ret]
          omega
        | _ => contradiction
    · rw [enters_eq_self ps (fun _ => hdepth)] at hc
      · exact levels_lt_of_mem _ hc
      · intro b access h
        obtain ⟨form, attrs⟩ := t
        cases h <;> contradiction
  · rw [levels_of_kind_ne _ hliteral hret]
    refine Nat.lt_succ_of_le (levels_enters_le _ _ ps (fun h => absurd h hret) ?_ c hc)
    exact fun d hd => le_foldr_max 0 (List.mem_map_of_mem hd)

/-! ## The plan -/

/-- What stock passes do on entering trees. -/
def plan (ps : List Stock) : Plan where
  enter depth t := enters depth ps t
  replaced depth t := replacements depth ps t
  levels := levels (marks ps)
  descends depth t := levels_lt_of_mem_enters depth ps t

theorem follows (ps : List Stock) : (plan ps).Follows fun depth => ps.map (pass depth) where
  enters depth t := enterAll_map_pass depth 0 ps t
  leaves depth t u hu := by
    have hlike : u.isFunctionLike = t.isFunctionLike := by
      rw [Tree.isFunctionLike, hu]
      exact isFunctionLike_enters depth ps t
    have hinside : u.inside depth = t.inside depth := by rw [Tree.inside, hlike, Tree.inside]
    rw [← hinside]
    exact leaveAll_map_pass depth 0 ps u

theorem levels_lt_depthLimit (ps : List Stock) (depth : Nat) (ts : Forest) {t : Tree} (h : t ∈ ts) :
    levels (marks ps) t < depthLimit (ps.map (pass depth)) ts := by
  have hheight : t.height + 1 ≤ ts.height :=
    le_foldr_max 0 (List.mem_map_of_mem (f := (Tree.height · + 1)) h)
  have hmarks := marks_le_length ps
  have hlevels := levels_le_height (marks ps) t
  have hmul : (marks ps + 1) * (t.height + 1) ≤ (ps.length + 3) * (ts.height + 3) :=
    Nat.mul_le_mul (by omega) (by omega)
  rw [depthLimit, List.length_map]
  omega

/-- A run of stock passes succeeds. It gives the result of the plan, closed by the passes in order,
and ends with every pass at depth zero, wherever it began. -/
theorem run_eq (ps : List Stock) (depth : Nat) (ts : Forest) :
    ∃ journal, run (ps.map (pass depth)) ts =
      ⟨.ok (closes ps (ts.map ((plan ps).rewrite 0)), .total (ts.map ((plan ps).tally 0))),
        ps.map (pass 0), journal⟩ := by
  obtain ⟨before, hbefore⟩ := beforeAll_map_pass depth 0 ps ts
  obtain ⟨account, hwalk, htally⟩ := (follows ps).walk (depthLimit (ps.map (pass depth)) ts) 0 ts
    fun t ht => levels_lt_depthLimit ps depth ts ht
  obtain ⟨after, hafter⟩ := afterAll_map_pass 0 0 ps (ts.map ((plan ps).rewrite 0))
  refine ⟨before ++ account.journal ++ after, ?_⟩
  rw [Yields] at hwalk
  simp only [run, runWithin, hbefore, hwalk, hafter, htally]

end Graft.Stock
