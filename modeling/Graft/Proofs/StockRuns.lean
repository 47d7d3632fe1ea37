import Graft.Proofs.Rebuild
import Graft.Proofs.StockPlan

/-! # Runs of stock passes

Timing and bypass passes of any settings, in any number and order, each at whatever depth it stands.
A run of them ends: the walk succeeds, and no larger bound on the nesting of visits changes what it
does. Nothing is removed or skipped, so every node of the forest that comes out of the walk has been
visited once, and no other (`run_stock_visits`).
-/

set_option autoImplicit false

namespace Graft

/-! ## Counting -/

namespace Plan
variable (p : Plan)

/-- A plan visits each node of its result once. -/
theorem tally_visited (depth : Nat) (t : Tree) :
    (p.tally depth t).visited = (p.rewrite depth t).count := by
  induction depth, t using p.induction with
  | step depth t ih =>
    have hchildren : (p.enter depth t).form.children.map (fun c => (p.tally (t.inside depth) c).visited) =
        (p.enter depth t).form.children.map fun c => (p.rewrite (t.inside depth) c).count :=
      List.map_congr_left ih
    have hvisited : (p.tally depth t).visited = 1 +
        ((p.enter depth t).form.children.map
          fun c => (p.tally (t.inside depth) c).visited).foldr (· + ·) 0 := by
      rw [tally_eq, Tally.add_def, Tally.counter_total Tally.visited rfl (fun _ _ => rfl), List.map_map]
      rfl
    rw [hvisited, hchildren, rewrite_eq, Tree.count_mk, Form.children_map, List.map_map]
    rfl

theorem tally_skipped (depth : Nat) (t : Tree) : (p.tally depth t).skipped = 0 := by
  induction depth, t using p.induction with
  | step depth t ih =>
    rw [tally_eq]
    refine Nat.add_eq_zero_iff.mpr ⟨rfl, ?_⟩
    refine (Tally.total_eq_zero_iff Tally.skipped rfl (fun _ _ => rfl) _).mpr ?_
    rwa [List.forall_mem_map]

theorem total_visited (depth : Nat) (ts : Forest) :
    (Tally.total (ts.map (p.tally depth))).visited = Forest.count (ts.map (p.rewrite depth)) := by
  have htrees : ts.map (fun t => (p.tally depth t).visited) =
      ts.map fun t => (p.rewrite depth t).count :=
    List.map_congr_left fun t _ => p.tally_visited depth t
  rw [Tally.counter_total Tally.visited rfl (fun _ _ => rfl), Forest.count, List.map_map, List.map_map]
  exact congrArg (List.foldr (· + ·) 0) htrees

theorem total_removed (depth : Nat) (ts : Forest) :
    (Tally.total (ts.map (p.tally depth))).removed = 0 := by
  rw [Tally.total_eq_zero_iff Tally.removed rfl (fun _ _ => rfl), List.forall_mem_map]
  exact fun t _ => p.tally_removed depth t

theorem total_skipped (depth : Nat) (ts : Forest) :
    (Tally.total (ts.map (p.tally depth))).skipped = 0 := by
  rw [Tally.total_eq_zero_iff Tally.skipped rfl (fun _ _ => rfl), List.forall_mem_map]
  exact fun t _ => p.tally_skipped depth t

end Plan

/-! ## Runs -/

namespace Stock

/-- The pass as it is given, at the depth where it stands. -/
def given : Stock → Pass
  | timing t => t.pass
  | bypass b => b.pass

theorem beforeAll_map_given (i : Nat) (ps : List Stock) (ts : Forest) :
    ∃ events, beforeAll i (ps.map given) ts = ⟨ts, ps.map (pass 0), events⟩ := by
  induction ps generalizing i with
  | nil => exact ⟨[], rfl⟩
  | cons s ps ih =>
    obtain ⟨events, h⟩ := ih (i + 1)
    have hs : s.given.doBefore ts = (s.pass 0, ts) := by cases s <;> rfl
    refine ⟨.before i ts :: events, ?_⟩
    simp only [List.map_cons, beforeAll, hs, h]

theorem walk_map_pass (ps : List Stock) (ts : Forest) {limit : Nat}
    (hlimit : ∀ t ∈ ts, levels (marks ps) t < limit) :
    ∃ journal, walk limit ts (ps.map (pass 0)) =
      .done (ts.map ((plan ps).rewrite 0)) (ps.map (pass 0))
        ⟨.total (ts.map ((plan ps).tally 0)), journal⟩ := by
  obtain ⟨account, hwalk, htally⟩ := (follows ps).walk limit 0 ts hlimit
  refine ⟨account.journal, ?_⟩
  rw [← htally]
  exact hwalk

/-- What a run of stock passes gives, whatever the depth at which each of them stands. -/
theorem run_given (ps : List Stock) (ts : Forest) :
    (run (ps.map given) ts).result =
      .ok (closes ps (ts.map ((plan ps).rewrite 0)), .total (ts.map ((plan ps).tally 0))) := by
  obtain ⟨before, hbefore⟩ := beforeAll_map_given 0 ps ts
  have hlimit : ∀ t ∈ ts, levels (marks ps) t < depthLimit (ps.map given) ts := by
    intro t ht
    have hlt := levels_lt_depthLimit ps 0 ts ht
    rwa [depthLimit, List.length_map] at hlt ⊢
  obtain ⟨journal, hwalk⟩ := walk_map_pass ps ts hlimit
  obtain ⟨after, hafter⟩ := afterAll_map_pass 0 0 ps (ts.map ((plan ps).rewrite 0))
  simp only [run, runWithin, hbefore, hwalk, hafter]

end Stock

/-- A run of timing and bypass passes, in any number and order and each with its own settings and
depth, succeeds. Its walk is the same however much deeper visits may be nested; nothing is removed or
skipped; and as many nodes are visited as the forest has when the walk is done. -/
theorem run_stock_visits (ps : List Stock) (ts : Forest) :
    ∃ us walked tally journal,
      (∀ extra, walk (depthLimit (ps.map Stock.given) ts + extra)
          (beforeAll 0 (ps.map Stock.given) ts).trees (beforeAll 0 (ps.map Stock.given) ts).passes =
        .done us walked ⟨tally, journal⟩) ∧
      (run (ps.map Stock.given) ts).result = .ok ((afterAll 0 walked us).trees, tally) ∧
      tally.removed = 0 ∧ tally.skipped = 0 ∧ tally.visited = us.count := by
  obtain ⟨before, hbefore⟩ := Stock.beforeAll_map_given 0 ps ts
  have hdepth : depthLimit (ps.map Stock.given) ts = depthLimit (ps.map (Stock.pass 0)) ts := by
    rw [depthLimit, depthLimit, List.length_map, List.length_map]
  have hlevels : ∀ t ∈ ts, Stock.levels (Stock.marks ps) t < depthLimit (ps.map Stock.given) ts := by
    intro t ht
    rw [hdepth]
    exact Stock.levels_lt_depthLimit ps 0 ts ht
  obtain ⟨journal, hwalk⟩ := Stock.walk_map_pass ps ts hlevels
  have hrun : (run (ps.map Stock.given) ts).result =
      .ok ((afterAll 0 (ps.map (Stock.pass 0)) (ts.map ((Stock.plan ps).rewrite 0))).trees,
        .total (ts.map ((Stock.plan ps).tally 0))) := by
    simp only [run, runWithin, hbefore, hwalk]
  refine ⟨_, _, _, journal, fun extra => ?_, hrun, Plan.total_removed _ 0 ts,
    Plan.total_skipped _ 0 ts, Plan.total_visited _ 0 ts⟩
  rw [hbefore]
  exact walk_of_le (Nat.le_add_right _ extra) hwalk

end Graft
