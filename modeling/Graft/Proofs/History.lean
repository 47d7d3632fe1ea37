import Graft.Pass.Script
import Graft.Proofs.DepthBalance
import Graft.Proofs.Mirror
import Graft.Session

/-! # Sessions with a history

A session keeps its passes from request to request, in whatever state the last run left them, also when
it stopped midway. With stock passes and passes whose answers do not depend on their state, no reply
tells anything of the requests before it (`serve_independent`): what is left of a run is gone once the
next forest is handed to the passes.
-/

set_option autoImplicit false

namespace Graft

/-! ## Passes that forget -/

/-- A pass whose answers do not depend on its state. -/
structure Pass.Stateless (p : Pass) : Prop where
  before : ∀ s s' ts, (p.before s ts).2 = (p.before s' ts).2
  enter : ∀ s s' t, (p.enter s t).2 = (p.enter s' t).2
  leave : ∀ s s' t, (p.leave s t).map Prod.snd = (p.leave s' t).map Prod.snd
  after : ∀ s s' ts, (p.after s ts).2 = (p.after s' ts).2

theorem Pass.Stateless.withState {p : Pass} (h : p.Stateless) (s : p.State) :
    ({ p with state := s } : Pass).Stateless :=
  ⟨h.before, h.enter, h.leave, h.after⟩

/-- The two are a stateless pass in two states. -/
def Pass.SharesHooks (p q : Pass) : Prop := p.Stateless ∧ ∃ s, q = { p with state := s }

theorem mirrors_sharesHooks : Mirrors Pass.SharesHooks where
  enter := by
    rintro p _ ⟨hp, s, rfl⟩ t
    exact ⟨hp.enter p.state s t, hp.withState _, _, rfl⟩
  leave := by
    rintro p _ ⟨hp, s, rfl⟩ t
    have hanswer := hp.leave p.state s t
    rw [Pass.doLeave, Pass.doLeave]
    dsimp only
    cases hleft : p.leave p.state t with
    | none =>
      rw [hleft] at hanswer
      rw [Option.map_eq_none_iff.mp hanswer.symm]
      exact .inl ⟨rfl, rfl⟩
    | some left =>
      rw [hleft] at hanswer
      obtain ⟨left', hleft', hsnd⟩ := Option.map_eq_some_iff.mp hanswer.symm
      rw [hleft', ← Prod.eta left', hsnd]
      exact .inr ⟨_, _, _, rfl, rfl, hp.withState _, _, rfl⟩
  after := by
    rintro p _ ⟨hp, s, rfl⟩ ts
    exact hp.after p.state s ts

/-- A stock pass, or one without a state that matters. -/
inductive Pass.Forgetful : Pass → Prop
  | stock (s : Stock) : Forgetful s.given
  | stateless {p : Pass} (h : p.Stateless) : Forgetful p

/-- Whatever hooks were called, the next forest finds a forgetful pass as it was at first. -/
theorem Pass.Forgetful.startsAlike {p q : Pass} (hp : p.Forgetful) (hq : p.Becomes q) :
    p.StartsAlike q := by
  intro ts
  cases hp with
  | stock s =>
    -- only the depth can have changed, and the hook before the walk sets it back
    obtain ⟨depth, rfl⟩ := s.becomes_given hq
    have hfirst : s.given.doBefore ts = (s.pass 0, ts) := by cases s <;> rfl
    rw [hfirst, Stock.doBefore_pass]
    exact ⟨rfl, .refl _⟩
  | stateless h =>
    obtain ⟨s, rfl⟩ := hq.exists_state
    exact ⟨h.before p.state s ts, _, mirrors_sharesHooks, h.withState _, _, rfl⟩

theorem startsAlike_of_become {ps qs : List Pass} (hps : ∀ p ∈ ps, p.Forgetful) (h : Become ps qs) :
    List.Forall₂ Pass.StartsAlike ps qs := by
  induction h with
  | nil => exact .nil
  | cons hpq _ ih =>
    rw [List.forall_mem_cons] at hps
    exact .cons (hps.1.startsAlike hpq) (ih hps.2)

theorem getLast?_filterMap_cons {α β : Type} (f : α → Option β) (a : α) (as : List α) (x : Option β) :
    (((a :: as).filterMap f).getLast?).or x = ((as.filterMap f).getLast?).or ((f a).or x) := by
  rw [List.filterMap_cons]
  cases f a with
  | none => rfl
  | some b =>
    rw [List.getLast?_cons]
    cases (as.filterMap f).getLast? <;> rfl

/-! ## Runners with a history -/

namespace Runner

/-- A run with its own bound on nested visits. -/
def runWithin (r : Runner) (limit : Nat) (ts : Forest) : Runner × Run :=
  (⟨(Graft.runWithin limit r.passes ts).passes,
      latest r.last (Graft.runWithin limit r.passes ts).result⟩,
    Graft.runWithin limit r.passes ts)

theorem run_eq_runWithin (r : Runner) (ts : Forest) :
    r.run ts = r.runWithin (depthLimit r.passes (beforeAll 0 r.passes ts).trees) ts :=
  rfl

def after (r : Runner) (earlier : List (Nat × Forest)) : Runner :=
  earlier.foldl (fun r e => (r.runWithin e.1 e.2).1) r

theorem become_after (r : Runner) (earlier : List (Nat × Forest)) :
    Become r.passes (r.after earlier).passes := by
  induction earlier generalizing r with
  | nil => exact Become.refl _
  | cons e earlier ih =>
    exact (becomes_runWithin e.1 r.passes e.2).trans (ih (r.runWithin e.1 e.2).1)

theorem latest_eq (last : Option Tally) (result : Except Failure (Forest × Tally)) :
    latest last result = (result.toOption.map Prod.snd).or last := by
  cases result <;> rfl

/-- The tally that is kept is that of the last run that succeeded, as the passes were at first. -/
theorem last_after {passes : List Pass} (hpasses : ∀ p ∈ passes, p.Forgetful) {r : Runner}
    (h : Become passes r.passes) (earlier : List (Nat × Forest)) :
    (r.after earlier).last =
      ((earlier.filterMap fun e =>
        (Graft.runWithin e.1 passes e.2).result.toOption.map Prod.snd).getLast?).or r.last := by
  induction earlier generalizing r with
  | nil => rfl
  | cons e earlier ih =>
    have hresult := runWithin_result_eq (startsAlike_of_become hpasses h) e.1 e.2
    have hnext : Become passes (r.runWithin e.1 e.2).1.passes :=
      h.trans (becomes_runWithin e.1 r.passes e.2)
    have hlast : (r.runWithin e.1 e.2).1.last =
        ((Graft.runWithin e.1 passes e.2).result.toOption.map Prod.snd).or r.last := by
      rw [hresult]
      exact latest_eq _ _
    rw [getLast?_filterMap_cons, ← hlast]
    exact ih hnext

end Runner

/-! ## Requests -/

/-- What a session is asked for: to take a text, or trees as they are. -/
inductive Request where
  | code (text : String)
  | trees (ts : Forest)

namespace Session

def serve (s : Session) : Request → Session × Reply
  | .code text => s.submit text
  | .trees ts => ((s.submitTrees ts).1, ⟨(s.submitTrees ts).2, []⟩)

def after (s : Session) (earlier : List Request) : Session := earlier.foldl (fun s r => (s.serve r).1) s

/-- The forest of a request, unless the parser refuses its text. -/
def forest? (s : Session) : Request → Option Forest
  | .code text => (parse s.parser text).2.toOption
  | .trees ts => some ts

/-- The tally of the run for a request, if it comes to a run and the run succeeds. -/
def tally? (s : Session) (r : Request) : Option Tally :=
  (s.forest? r).bind fun ts => (run s.runner.passes ts).result.toOption.map Prod.snd

/-- A session as it may be found after the requests of `first`: the outer parts are the same, and of
the passes only what calls of their hooks can change. -/
structure Continues (first s : Session) : Prop where
  parser : s.parser = first.parser
  generator : s.generator = first.generator
  passes : Become first.runner.passes s.runner.passes

section
variable {first s : Session}

theorem Continues.submitTrees (h : first.Continues s) (ts : Forest) :
    first.Continues (s.submitTrees ts).1 :=
  ⟨h.parser, h.generator, h.passes.trans (becomes_runWithin _ _ _)⟩

theorem submit_of_error {text : String} {failure : ParseFailure}
    (h : (parse s.parser text).2 = .error failure) :
    s.submit text = (s, ⟨.error (.parse failure), (parse s.parser text).1⟩) := by
  rw [submit, ← Prod.eta (parse s.parser text), h]

theorem submit_of_ok {text : String} {ts : Forest} (h : (parse s.parser text).2 = .ok ts) :
    s.submit text = ((s.submitTrees ts).1, ⟨(s.submitTrees ts).2, (parse s.parser text).1⟩) := by
  rw [submit, ← Prod.eta (parse s.parser text), h]

theorem Continues.serve (h : first.Continues s) (r : Request) : first.Continues (s.serve r).1 := by
  cases r with
  | trees ts => exact h.submitTrees ts
  | code text =>
    cases hanswer : (parse s.parser text).2 with
    | error failure =>
      rw [Session.serve, submit_of_error hanswer]
      exact h
    | ok ts =>
      rw [Session.serve, submit_of_ok hanswer]
      exact h.submitTrees ts

theorem Continues.after (h : first.Continues s) (requests : List Request) :
    first.Continues (s.after requests) := by
  induction requests generalizing s with
  | nil => exact h
  | cons r requests ih => exact ih (h.serve r)

theorem continues_after (first : Session) (requests : List Request) :
    first.Continues (first.after requests) :=
  Continues.after ⟨rfl, rfl, Become.refl _⟩ requests

theorem Continues.run_result (h : first.Continues s) (hpasses : ∀ p ∈ first.runner.passes, p.Forgetful)
    (ts : Forest) : (run s.runner.passes ts).result = (run first.runner.passes ts).result :=
  (run_result_eq (startsAlike_of_become hpasses h.passes) ts).symm

end

/-! ## Replies -/

theorem submitTrees_snd (s : Session) (ts : Forest) :
    (s.submitTrees ts).2 =
      ((run s.runner.passes ts).result.map fun made => s.generator made.1).mapError .walk := by
  rw [submitTrees, Runner.run]
  dsimp only
  cases (run s.runner.passes ts).result <;> rfl

section
variable {first s : Session} (h : first.Continues s)
  (hpasses : ∀ p ∈ first.runner.passes, p.Forgetful)
include h hpasses

theorem Continues.submitTrees_result (ts : Forest) :
    (s.submitTrees ts).2 = (first.submitTrees ts).2 := by
  rw [submitTrees_snd, submitTrees_snd, h.run_result hpasses, h.generator]

theorem Continues.reply (r : Request) : (s.serve r).2 = (first.serve r).2 := by
  cases r with
  | trees ts => rw [Session.serve, Session.serve, h.submitTrees_result hpasses]
  | code text =>
    have hparse : parse s.parser text = parse first.parser text := by rw [h.parser]
    rw [Session.serve, Session.serve]
    cases hanswer : (parse first.parser text).2 with
    | error failure => rw [submit_of_error hanswer, submit_of_error (hparse ▸ hanswer), hparse]
    | ok ts =>
      rw [submit_of_ok hanswer, submit_of_ok (hparse ▸ hanswer), hparse, h.submitTrees_result hpasses]

theorem Continues.last_serve (r : Request) :
    (s.serve r).1.runner.last = (first.tally? r).or s.runner.last := by
  have hrun : ∀ ts, (s.submitTrees ts).1.runner.last =
      ((run first.runner.passes ts).result.toOption.map Prod.snd).or s.runner.last := by
    intro ts
    rw [← h.run_result hpasses ts]
    exact Runner.latest_eq _ _
  cases r with
  | trees ts => exact hrun ts
  | code text =>
    rw [tally?, forest?, ← h.parser]
    cases hanswer : (parse s.parser text).2 with
    | error failure =>
      rw [Session.serve, submit_of_error hanswer]
      rfl
    | ok ts =>
      rw [Session.serve, submit_of_ok hanswer]
      exact hrun ts

theorem Continues.last_after (requests : List Request) :
    (s.after requests).runner.last =
      ((requests.filterMap first.tally?).getLast?).or s.runner.last := by
  induction requests generalizing s with
  | nil => rfl
  | cons r requests ih =>
    rw [getLast?_filterMap_cons, ← h.last_serve hpasses r]
    exact ih (h.serve r)

end

theorem tally?_isSome_iff (s : Session) (r : Request) :
    (s.tally? r).isSome ↔ ∃ text, (s.serve r).2.result = .ok text := by
  have hrun : ∀ ts, ((run s.runner.passes ts).result.toOption.map Prod.snd).isSome ↔
      ∃ text, (s.submitTrees ts).2 = .ok text := by
    intro ts
    rw [submitTrees_snd]
    cases (run s.runner.passes ts).result <;>
      simp [Except.toOption, Except.map, Except.mapError]
  cases r with
  | trees ts => exact hrun ts
  | code text =>
    rw [tally?, forest?, Session.serve]
    cases hanswer : (parse s.parser text).2 with
    | error failure =>
      rw [submit_of_error hanswer]
      simp [Except.toOption]
    | ok ts =>
      rw [submit_of_ok hanswer]
      exact hrun ts

/-! ## The parser -/

/-- The parser is asked for a text, and once more with a semicolon if the text ends early. -/
theorem parse_cases (parser : Parser) (text : String) :
    (∃ context, parser text = .error (.endsEarly context)) ∧
        parse parser text = ([text, text ++ ";"], parser (text ++ ";")) ∨
      (∀ context, parser text ≠ .error (.endsEarly context)) ∧
        parse parser text = ([text], parser text) := by
  rw [parse]
  cases hanswer : parser text with
  | ok ts => simp
  | error failure => cases failure <;> simp [ParseFailure.invitesRetry]

theorem parse_congr {parser parser' : Parser} {text : String}
    (h : ∀ asked ∈ (parse parser text).1, parser' asked = parser asked) :
    parse parser' text = parse parser text := by
  rcases parse_cases parser text with ⟨⟨context, hearly⟩, hparse⟩ | ⟨hearly, hparse⟩
  · rw [hparse] at h
    have hfirst : parser' text = parser text := h text (by simp)
    have hsecond : parser' (text ++ ";") = parser (text ++ ";") := h (text ++ ";") (by simp)
    rcases parse_cases parser' text with ⟨-, hparse'⟩ | ⟨hearly', -⟩
    · rw [hparse', hparse, hsecond]
    · exact absurd (hfirst.trans hearly) (hearly' context)
  · rw [hparse] at h
    have hfirst : parser' text = parser text := h text (by simp)
    rcases parse_cases parser' text with ⟨⟨context, hearly'⟩, -⟩ | ⟨-, hparse'⟩
    · exact absurd (hfirst.symm.trans hearly') (hearly context)
    · rw [hparse', hparse, hfirst]

theorem asked_submit (s : Session) (text : String) :
    (s.submit text).2.asked = (parse s.parser text).1 := by
  cases hanswer : (parse s.parser text).2 with
  | error failure => rw [submit_of_error hanswer]
  | ok ts => rw [submit_of_ok hanswer]

theorem submit_eq_parse_error_iff (s : Session) (text : String) (failure : ParseFailure) :
    (s.submit text).2.result = .error (.parse failure) ↔ (parse s.parser text).2 = .error failure := by
  cases hanswer : (parse s.parser text).2 with
  | error failure' =>
    rw [submit_of_error hanswer]
    simp
  | ok ts =>
    rw [submit_of_ok hanswer, submitTrees_snd]
    cases (run s.runner.passes ts).result <;> simp [Except.map, Except.mapError]

theorem parse_snd_eq_error_iff (parser : Parser) (text : String) (failure : ParseFailure) :
    (parse parser text).2 = .error failure ↔
      ∃ last, (parse parser text).1.getLast? = some last ∧ parser last = .error failure := by
  rcases parse_cases parser text with ⟨-, hparse⟩ | ⟨-, hparse⟩ <;> simp [hparse]

theorem submit_of_parse_eq (s : Session) (text : String) {parser : Parser}
    (h : parse parser text = parse s.parser text) :
    (submit { s with parser := parser } text).2 = (s.submit text).2 := by
  cases hanswer : (parse s.parser text).2 with
  | error failure =>
    rw [submit_of_error hanswer, submit_of_error (s := { s with parser := parser }) (h ▸ hanswer), h]
  | ok ts =>
    rw [submit_of_ok hanswer, submit_of_ok (s := { s with parser := parser }) (h ▸ hanswer), h]
    rfl

/-! ## Independence -/

/-- A session after some requests, told by the session as it was at first. -/
structure Independent (first : Session) (earlier : List Request) : Prop where
  /-- Every reply is that of the session without a history. -/
  reply : ∀ r, ((first.after earlier).serve r).2 = (first.serve r).2
  /-- The tally that is kept is that of the last request that succeeded. -/
  last : (first.after earlier).runner.last = (earlier.filterMap first.tally?).getLast?
  succeeded : ∀ r, (first.tally? r).isSome ↔
    ∃ text, ((first.after earlier).serve r).2.result = .ok text
  asked : ∀ text,
    (∃ context, first.parser text = .error (.endsEarly context)) ∧
        ((first.after earlier).serve (.code text)).2.asked = [text, text ++ ";"] ∨
      (∀ context, first.parser text ≠ .error (.endsEarly context)) ∧
        ((first.after earlier).serve (.code text)).2.asked = [text]
  /-- The reply rests on no answer of the parser but those for the texts that it was asked for. -/
  consulted : ∀ text (parser : Parser),
    (∀ asked ∈ ((first.after earlier).serve (.code text)).2.asked, parser asked = first.parser asked) →
      (({ first with parser := parser }).serve (.code text)).2 =
        ((first.after earlier).serve (.code text)).2
  /-- A text is refused exactly with the failure of the text asked last. -/
  refused : ∀ text failure,
    ((first.after earlier).serve (.code text)).2.result = .error (.parse failure) ↔
      ∃ last, ((first.after earlier).serve (.code text)).2.asked.getLast? = some last ∧
        first.parser last = .error failure

end Session

/-- A pass that turns variables into closures on entering and removes arrays on leaving. -/
def Pass.stumbling : Pass :=
  { Pass.idle with
    enter := fun s t => (s, if t.kind = .var then .replace (Make.closure [] []) else .keep t)
    leave := fun s t => some (s, if t.kind = .array then .remove else .keep t) }

def stumblingSession : Session where
  parser := fun text =>
    if text = ";" then .ok [Make.echo [Make.null]]
    else if text = "" then .error (.endsEarly none) else .error (.other "refused")
  generator := Session.outline
  runner := { passes := [(Timing.ofSettings {}).pass, .stumbling] }

/-- A success, a refused text, a tree that was never entered, and a lost child inside a closure. -/
def stumblingRequests : List Request :=
  [.code "", .code "?", .trees [Make.var "x"], .trees [Make.closure [] [(Make.array []).asStatement]]]

end Graft
