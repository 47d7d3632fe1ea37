import Mathlib.Data.List.DropRight
import Mathlib.Data.List.Forall2
import Graft.Stopwatch

/-! # The samples of a stopwatch

What a stopwatch holds and hands out is told from the log of the calls on it: whether it runs from the
last start, end or reset, and its samples from the ends, each with the latest start between it and the
end before. Every call keeps this (`Logged.perform`), so it holds after any history of calls on a clock
that never goes back (`samples_of_history`).
-/

set_option autoImplicit false

namespace Graft

/-! ## Differences of times -/

theorem Duration.add?_sub {a b : Duration} (h : a.le b = true) : a.add? (b.sub a) = some b := by
  obtain ⟨s, n, hs, hn⟩ := a
  obtain ⟨s', n', hs', hn'⟩ := b
  simp only [le, Bool.or_eq_true, Bool.and_eq_true, decide_eq_true_eq, beq_iff_eq] at h
  unfold sub
  by_cases hnanos : n ≤ n'
  · have hsecs : s ≤ s' := by omega
    simp only [hnanos, hsecs, if_true, dif_pos, add?, ofParts?]
    rw [if_pos (by omega), dif_pos ⟨by omega, by omega⟩]
    simp only [Option.some.injEq, mk.injEq]
    omega
  · have hsecs : s < s' := by omega
    simp only [hnanos, hsecs, if_true, dif_neg, not_false_eq_true, add?, ofParts?]
    rw [if_neg (by omega), dif_pos ⟨by omega, by omega⟩]
    simp only [Option.some.injEq, mk.injEq]
    omega

namespace Stopwatch

/-! ## Histories -/

/-- A call on the stopwatch, with the time if it may look at the clock. -/
inductive Call where
  | start (now : Duration)
  | stop (now : Duration)
  | ensure (now : Duration)
  | drain
  | report
  | reset

/-- What a call did. An end is a stop, of a running stopwatch or not, or the success of an `ensure`. -/
inductive Entry where
  | started (now : Duration)
  | ended (now : Duration)
  /-- An `ensure` that found nothing to stop. -/
  | idle
  | drained (samples : List Duration)
  | reset

namespace Entry

def isMark : Entry → Bool
  | started _ | ended _ | reset => true
  | idle | drained _ => false

def isEnd : Entry → Bool
  | ended _ => true
  | _ => false

def isReset : Entry → Bool
  | reset => true
  | _ => false

def start? : Entry → Option Duration
  | started now => some now
  | _ => none

/-- The time that was read from the clock. -/
def time? : Entry → Option Duration
  | started now | ended now => some now
  | _ => none

def samples : Entry → List Duration
  | drained samples => samples
  | _ => []

end Entry

def perform (w : Stopwatch) : Call → Stopwatch × Entry
  | .start now => (w.start now, .started now)
  | .stop now => ((w.stop now ()).1, .ended now)
  | .ensure now => ((w.ensureStopped now).1, if (w.ensureStopped now).2 then .ended now else .idle)
  | .drain => (w.drain.1, .drained w.drain.2)
  | .report => (w.report.1, .drained w.drain.2)
  | .reset => (reset, .reset)

/-- A stopwatch after some calls, the first of which found it at rest, and the log of these calls. -/
def after (calls : List Call) : Stopwatch × List Entry :=
  calls.foldl (fun (w, log) call => ((w.perform call).1, log ++ [(w.perform call).2])) ({}, [])

theorem after_concat (calls : List Call) (call : Call) :
    after (calls ++ [call]) =
      (((after calls).1.perform call).1, (after calls).2 ++ [((after calls).1.perform call).2]) := by
  unfold after
  rw [List.foldl_append]
  rfl

/-! ## What the log tells -/

namespace Log

/-- The entries after the last reset. -/
def sinceReset (log : List Entry) : List Entry := log.rtakeWhile (!·.isReset)

/-- The latest start after the last end. -/
def lastStart? (log : List Entry) : Option Duration :=
  ((log.rtakeWhile (!·.isEnd)).filterMap Entry.start?).getLast?

/-- The end that an entry is and the latest start after the end before, given what comes before. -/
def span? (earlier : List Entry) : Entry → Option (Duration × Duration)
  | .ended now => (lastStart? earlier).map (·, now)
  | _ => none

/-- The start and the end of every run that was timed. -/
def spans (log : List Entry) : List (Duration × Duration) :=
  (List.range log.length).filterMap fun i => log[i]? >>= span? (log.take i)

def drained (log : List Entry) : List Duration := log.flatMap Entry.samples

theorem sinceReset_concat (log : List Entry) {e : Entry} (h : e.isReset = false) :
    sinceReset (log ++ [e]) = sinceReset log ++ [e] := by
  unfold sinceReset
  rw [List.rtakeWhile_concat_pos _ _ _ (by simp [h])]

theorem sinceReset_concat_reset (log : List Entry) : sinceReset (log ++ [.reset]) = [] :=
  List.rtakeWhile_concat_neg _ _ _ (by simp [Entry.isReset])

theorem lastStart?_concat (log : List Entry) {e : Entry} (h : e.isEnd = false) :
    lastStart? (log ++ [e]) = e.start?.or (lastStart? log) := by
  unfold lastStart?
  rw [List.rtakeWhile_concat_pos _ _ _ (by simp [h]), List.filterMap_append]
  cases hstart : e.start? <;> simp [hstart]

theorem lastStart?_concat_ended (log : List Entry) (now : Duration) :
    lastStart? (log ++ [.ended now]) = none := by
  unfold lastStart?
  rw [List.rtakeWhile_concat_neg _ _ _ (by simp [Entry.isEnd])]
  rfl

theorem spans_concat (log : List Entry) (e : Entry) :
    spans (log ++ [e]) = spans log ++ (span? log e).toList := by
  unfold spans
  rw [List.length_append, List.length_singleton, List.range_succ, List.filterMap_append]
  congr 1
  · refine List.filterMap_congr fun i hi => ?_
    have hlt := List.mem_range.mp hi
    rw [List.getElem?_append_left hlt, List.take_append_of_le_length (by omega)]
  · simp only [List.filterMap_cons, List.filterMap_nil, List.getElem?_concat_length, List.take_left,
      Option.bind_eq_bind, Option.bind_some]
    cases span? log e <;> rfl

theorem drained_concat (log : List Entry) (e : Entry) :
    drained (log ++ [e]) = drained log ++ e.samples := by
  unfold drained
  rw [List.flatMap_append, List.flatMap_singleton]

theorem lastMark?_concat (log : List Entry) {e : Entry} (h : e.isMark = true) :
    ((log ++ [e]).filter Entry.isMark).getLast? = some e := by
  simp [List.filter_append, h]

theorem lastMark?_concat_other (log : List Entry) {e : Entry} (h : e.isMark = false) :
    ((log ++ [e]).filter Entry.isMark).getLast? = (log.filter Entry.isMark).getLast? := by
  simp [List.filter_append, h]

end Log

/-! ## The log and the stopwatch -/

/-- A sample is the time from the start to the end of a span. -/
def Elapsed (sample : Duration) (span : Duration × Duration) : Prop :=
  span.1.add? sample = some span.2

open Log

/-- The stopwatch is as the log tells. -/
structure Logged (w : Stopwatch) (log : List Entry) : Prop where
  started : w.started = lastStart? (sinceReset log)
  running : w.isRunning = true ↔ ∃ now, (log.filter Entry.isMark).getLast? = some (.started now)
  known : ∀ begun, w.started = some begun → begun ∈ log.filterMap Entry.time?
  samples : List.Forall₂ Elapsed (drained (sinceReset log) ++ w.samples) (spans (sinceReset log))

theorem isRunning_eq_false_iff (w : Stopwatch) : w.isRunning = false ↔ w.started = none := by
  unfold isRunning
  cases w.started <;> simp

theorem halt_of_started {w : Stopwatch} {begun : Duration} (now : Duration)
    (h : w.started = some begun) : w.halt now = ⟨none, w.samples ++ [now.sub begun]⟩ := by
  unfold halt
  rw [h]

theorem halt_of_not_started {w : Stopwatch} (now : Duration) (h : w.started = none) :
    w.halt now = w := by
  unfold halt
  rw [h]

/-- What a call can do, with the entry that it leaves. -/
theorem perform_cases (w : Stopwatch) (call : Call) :
    (∃ now, w.perform call = (w.start now, .started now)) ∨
    (∃ now, w.perform call = (w.halt now, .ended now)) ∨
    w.perform call = (w, .idle) ∨
    w.perform call = (w.drain.1, .drained w.samples) ∨
    w.perform call = ({}, .reset) := by
  cases call with
  | start now => exact .inl ⟨now, rfl⟩
  | stop now => exact .inr (.inl ⟨now, rfl⟩)
  | ensure now =>
    unfold perform ensureStopped
    by_cases h : w.isRunning = true
    · exact .inr (.inl ⟨now, by simp [h]⟩)
    · exact .inr (.inr (.inl (by simp [h])))
  | drain => exact .inr (.inr (.inr (.inl rfl)))
  | report => exact .inr (.inr (.inr (.inl rfl)))
  | reset => exact .inr (.inr (.inr (.inr rfl)))

theorem logged_reset (log : List Entry) : Logged {} (log ++ [.reset]) where
  started := by rw [sinceReset_concat_reset]; rfl
  running := by rw [lastMark?_concat _ rfl]; simp [isRunning]
  known := by simp
  samples := by rw [sinceReset_concat_reset]; exact .nil

namespace Logged
variable {w : Stopwatch} {log : List Entry} (h : Logged w log)
include h

theorem known_append (entries : List Entry) :
    ∀ begun, w.started = some begun → begun ∈ (log ++ entries).filterMap Entry.time? := by
  intro begun hbegun
  rw [List.filterMap_append]
  exact List.mem_append_left _ (h.known begun hbegun)

theorem start (now : Duration) : Logged (w.start now) (log ++ [.started now]) where
  started := by rw [sinceReset_concat _ rfl, lastStart?_concat _ rfl]; rfl
  running := by rw [lastMark?_concat _ rfl]; simp [Stopwatch.start, Stopwatch.isRunning]
  known := by simp [Stopwatch.start, Entry.time?]
  samples := by
    rw [sinceReset_concat _ rfl, spans_concat, drained_concat]
    simpa [span?, Entry.samples, Stopwatch.start] using h.samples

/-- An end takes a sample exactly if there is a start since the end and the reset before. -/
theorem halt {now : Duration} (hclock : ∀ time ∈ log.filterMap Entry.time?, time.le now = true) :
    Logged (w.halt now) (log ++ [.ended now]) := by
  have hended : (w.halt now).started = none := by
    cases hstarted : w.started with
    | some begun => rw [w.halt_of_started now hstarted]
    | none => rw [w.halt_of_not_started now hstarted, hstarted]
  constructor
  · rw [hended, sinceReset_concat _ rfl, lastStart?_concat_ended]
  · rw [lastMark?_concat _ rfl, Stopwatch.isRunning, hended]
    simp
  · simp [hended]
  · rw [sinceReset_concat _ rfl, spans_concat, drained_concat, span?, ← h.started]
    cases hstarted : w.started with
    | some begun =>
      have helapsed : Elapsed (now.sub begun) (begun, now) :=
        Duration.add?_sub (hclock begun (h.known begun hstarted))
      rw [w.halt_of_started now hstarted]
      simpa [Entry.samples] using List.rel_append h.samples (List.Forall₂.cons helapsed .nil)
    | none =>
      rw [w.halt_of_not_started now hstarted]
      simpa [Entry.samples] using h.samples

theorem idle : Logged w (log ++ [.idle]) where
  started := by rw [sinceReset_concat _ rfl, lastStart?_concat _ rfl]; exact h.started
  running := by rw [lastMark?_concat_other _ rfl]; exact h.running
  known := h.known_append _
  samples := by
    rw [sinceReset_concat _ rfl, spans_concat, drained_concat]
    simpa [span?, Entry.samples] using h.samples

theorem drain : Logged w.drain.1 (log ++ [.drained w.samples]) where
  started := by rw [sinceReset_concat _ rfl, lastStart?_concat _ rfl]; exact h.started
  running := by rw [lastMark?_concat_other _ rfl]; exact h.running
  known := h.known_append _
  samples := by
    rw [sinceReset_concat _ rfl, spans_concat, drained_concat]
    simpa [span?, Entry.samples, Stopwatch.drain] using h.samples

/-- Every call keeps the stopwatch as the log tells, on a clock that does not go back. -/
theorem perform {call : Call}
    (hclock : ((log ++ [(w.perform call).2]).filterMap Entry.time?).Pairwise fun a b => a.le b = true) :
    Logged (w.perform call).1 (log ++ [(w.perform call).2]) := by
  obtain ⟨now, hstep⟩ | ⟨now, hstep⟩ | hstep | hstep | hstep := w.perform_cases call
  all_goals rw [hstep] at hclock ⊢
  · exact h.start now
  · rw [List.filterMap_append, List.pairwise_append] at hclock
    exact h.halt fun time htime => hclock.2.2 time htime now (List.mem_singleton_self now)
  · exact h.idle
  · exact h.drain
  · exact logged_reset log

end Logged

theorem logged_after (calls : List Call)
    (hclock : ((after calls).2.filterMap Entry.time?).Pairwise fun a b => a.le b = true) :
    Logged (after calls).1 (after calls).2 := by
  induction calls using List.reverseRecOn with
  | nil => exact ⟨rfl, by simp [after, Stopwatch.isRunning], by simp [after], .nil⟩
  | append_singleton calls call ih =>
    rw [after_concat] at hclock ⊢
    have hearlier := hclock
    rw [List.filterMap_append, List.pairwise_append] at hearlier
    exact (ih hearlier.1).perform hclock

/-! ## Single calls -/

theorem stop_of_not_isRunning {w : Stopwatch} {α : Type} (now : Duration) (value : α)
    (h : w.isRunning = false) : w.stop now value = (w, value) := by
  unfold stop
  rw [w.halt_of_not_started now (w.isRunning_eq_false_iff.mp h)]

theorem ensureStopped_of_not_isRunning {w : Stopwatch} (now : Duration) (h : w.isRunning = false) :
    w.ensureStopped now = (w, false) := by
  unfold ensureStopped
  rw [h]
  rfl

/-- A report is there if there are samples, and has them all. -/
theorem report_samples (w : Stopwatch) : match w.report.2 with
    | some r => r.samples.Perm w.samples ∧ w.samples ≠ []
    | none => w.samples = [] := by
  unfold report drain
  cases w.samples with
  | nil => rfl
  | cons d samples => exact ⟨List.mergeSort_perm _ _, List.cons_ne_nil d samples⟩

/-- After any calls on a clock that never goes back, the stopwatch runs exactly if the last start, end or
reset is a start. What was drained since the last reset and what is still held are the samples of the
ends since then that have a start after the end before, each from the latest such start. An end changes
nothing where nothing runs, draining keeps what runs, and a value is handed through. -/
theorem samples_of_history (calls : List Call) (w : Stopwatch) (log : List Entry)
    (hafter : after calls = (w, log))
    (hclock : (log.filterMap Entry.time?).Pairwise fun a b => a.le b = true) :
    (w.isRunning = true ↔ ∃ now, (log.filter Entry.isMark).getLast? = some (.started now)) ∧
      List.Forall₂ Elapsed (drained (sinceReset log) ++ w.samples) (spans (sinceReset log)) ∧
      (w.isRunning = false → (∀ (α : Type) (now : Duration) (value : α), w.stop now value = (w, value)) ∧
        ∀ now, w.ensureStopped now = (w, false)) ∧
      (w.drain.1.started = w.started ∧ w.report.1.started = w.started) ∧
      (match w.report.2 with
        | some r => r.samples.Perm w.samples ∧ w.samples ≠ []
        | none => w.samples = []) ∧
      ∀ (α : Type) (now : Duration) (value : α), (w.stop now value).2 = value := by
  have hlogged := logged_after calls
  rw [hafter] at hlogged
  refine ⟨(hlogged hclock).running, (hlogged hclock).samples, fun hrest => ⟨fun _ now value => ?_,
    fun now => ?_⟩, ⟨rfl, rfl⟩, w.report_samples, fun _ _ _ => rfl⟩
  · exact stop_of_not_isRunning now value hrest
  · exact ensureStopped_of_not_isRunning now hrest

def seconds (n : Fin 60) : Duration :=
  ⟨n, 0, Nat.lt_trans n.isLt (by decide), Duration.zero.nanos_lt⟩

/-- A restart, an end too many, a report between start and end, and an end by `ensure`. -/
def unevenCalls : List Call :=
  [.reset, .start (seconds 1), .start (seconds 3), .stop (seconds 4), .drain,
    .stop (seconds 5), .ensure (seconds 5), .start (seconds 6), .report,
    .ensure (seconds 9)]

theorem samples_of_history_uneven :
    (after unevenCalls).1 = ⟨none, [seconds 3]⟩ ∧
      drained (sinceReset (after unevenCalls).2) = [seconds 1] ∧
      List.Forall₂ Elapsed [seconds 1, seconds 3]
        [(seconds 3, seconds 4), (seconds 6, seconds 9)] :=
  ⟨rfl, rfl, (samples_of_history unevenCalls _ _ rfl (by decide)).2.1⟩

end Stopwatch

end Graft
