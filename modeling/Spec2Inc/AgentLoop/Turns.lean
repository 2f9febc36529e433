import Spec2Inc.AgentLoop.Return

/-!
# The attempts of a run, one by one

`turns` lists the passes of the attempt loop with the variables each starts
from. What holds at the start of the first and is kept by every pass that does
not raise holds at the start of each and when the loop returns
(`turns_invariant`). A pass moves `best` to its own score when that is strictly
better, and `verified` to its own records when there are any.
-/

open Python Incumbent

namespace AgentLoop

variable {cfg : Config} {inp : RunInput} {origin : String} {base : Commit} {r : Repo}
  {s : LoopState}

/-- A pass of the attempt loop, with the variables it starts from. -/
structure Turn where
  number : ℕ
  input : AttemptInput
  start : LoopState

/-- The passes of the attempt loop, from attempt `k` on. -/
def turns (cfg : Config) : ℕ → List AttemptInput → LoopState → List Turn
  | _, [], _ => []
  | k, i :: rest, s =>
      ⟨k, i, s⟩ ::
        match attempt cfg k i s with
        | (s', .next) => turns cfg (k + 1) rest s'
        | _ => []

/-- The records of an evaluation at all the verify points. -/
def Judgement.records (j : Judgement) : List Verified :=
  if j.verifyFail.isNone then j.verifiedNow.map Evaluation.verified else []

namespace Turn

def run (cfg : Config) (t : Turn) : LoopState × Flow :=
  attempt cfg t.number t.input t.start

/-- The evaluations, when the agent's call and they came back. -/
def judged (cfg : Config) (t : Turn) : Option Judgement :=
  match t.input.reply with
  | .replied true => (judge cfg.target t.input.probe t.input.verify).toOption
  | _ => none

/-- The module file once the agent is done. -/
def file (cfg : Config) (t : Turn) : Option String :=
  (t.start.edited cfg t.input.writes).repo.work.get? cfg.target.rtl

/-- The score, of a complete attempt. -/
def score (cfg : Config) (t : Turn) : Option ℕ := (t.judged cfg).bind (Judgement.now cfg.target)

def records (cfg : Config) (t : Turn) : List Verified := (t.judged cfg).elim [] Judgement.records

def measured (cfg : Config) (t : Turn) : Option Measured :=
  (t.judged cfg).map fun j => ⟨t.file cfg, j.now cfg.target⟩

/-- The attempt was complete, and strictly better than the baseline and all
earlier complete attempts. -/
def Beats (cfg : Config) (inp : RunInput) (before : List Turn) (t : Turn) : Prop :=
  ∃ n, t.score cfg = some n ∧ (∀ m ∈ baselineScore cfg inp.base, n < m) ∧
    ∀ t' ∈ before, ∀ m ∈ t'.score cfg, n < m

end Turn

/-! ## What one pass does -/

/-- The pass does not raise. -/
def Flow.Returns (f : Flow) : Prop := ∀ e, f ≠ .raised e

/-- What follows the evaluations ends in the exception of the commit, or moves
`best` and `verified` and goes on with a message. -/
theorem conclude_cases (cfg : Config) (k : ℕ) (j : Judgement) (s : LoopState) :
    (∃ e, (conclude cfg k j s).2 = .raised e) ∨
      ∃ s', conclude cfg k j s =
          (s', if cfg.mode = .implement && j.complete then Flow.stop else Flow.next) ∧
        s'.best = (if improves (j.now cfg.target) s.best then j.now cfg.target else s.best) ∧
        s'.verified = (if j.records = [] then s.verified else j.records) ∧
        ((cfg.mode = .implement && j.complete) = false →
          s'.message = formatFeedback cfg.target k j.cand s'.best j.verifyFail) := by
  have hverified : (if j.verifyFail.isNone && !j.verifiedNow.isEmpty then
      j.verifiedNow.map Evaluation.verified else s.verified) =
      if j.records = [] then s.verified else j.records := by
    rw [Judgement.records]
    cases j.verifyFail <;> cases j.verifiedNow <;> simp
  rw [← hverified]
  rcases hmessage : attemptMessage cfg k j (improves (j.now cfg.target) s.best) with
    ⟨subject, body⟩
  rcases hcommit : commit cfg subject body s.repo with ⟨repo, e | sha⟩
  · refine Or.inl ⟨e, ?_⟩
    simp only [conclude, hmessage, hcommit]
  · right
    simp only [conclude, hmessage, hcommit]
    cases hstop : cfg.mode = .implement && j.complete with
    | true => exact ⟨_, rfl, rfl, rfl, fun h => by cases h⟩
    | false => exact ⟨_, rfl, rfl, rfl, fun _ => rfl⟩

/-- How a pass goes: the evaluations come back, or one of them raises, or the
agent's call raises, and is handled or not, or it is not successful. -/
inductive Turn.Goes (cfg : Config) (t : Turn) : Prop
  | judged (j : Judgement) (hreply : t.input.reply = .replied true)
      (hj : t.judged cfg = some j)
      (hrun : t.run cfg = conclude cfg t.number j (t.start.edited cfg t.input.writes))
  | evaluationRaised (e : Exception) (hreply : t.input.reply = .replied true)
      (hj : t.judged cfg = none)
      (hrun : t.run cfg = (t.start.edited cfg t.input.writes, .raised e))
  | agentRaised (e : Exception) (hreply : t.input.reply = .raised e)
      (hj : t.judged cfg = none)
      (hrun : t.run cfg = (agentError t.number e (t.start.edited cfg t.input.writes), .next))
  | agentEscaped (e : Exception) (hreply : t.input.reply = .raised e)
      (hj : t.judged cfg = none)
      (hrun : t.run cfg = (t.start.edited cfg t.input.writes, .raised e))
  | unsuccessful (hreply : t.input.reply = .replied false) (hj : t.judged cfg = none)
      (hrun : t.run cfg = (t.start.edited cfg t.input.writes, .next))

theorem Turn.goes (cfg : Config) (t : Turn) : t.Goes cfg := by
  obtain ⟨k, ⟨writes, reply, probe, verify⟩, s⟩ := t
  cases reply with
  | raised e =>
      cases he : e.isException with
      | true => exact .agentRaised e rfl rfl (by simp [Turn.run, attempt, he])
      | false => exact .agentEscaped e rfl rfl (by simp [Turn.run, attempt, he])
  | replied success =>
      cases success with
      | false => exact .unsuccessful rfl rfl rfl
      | true =>
          cases hjudge : judge cfg.target probe verify with
          | error e =>
              exact .evaluationRaised e rfl (by simp [Turn.judged, hjudge, Except.toOption])
                (by simp [Turn.run, attempt, hjudge])
          | ok j =>
              exact .judged j rfl (by simp [Turn.judged, hjudge, Except.toOption])
                (by simp [Turn.run, attempt, hjudge])

theorem Turn.run_of_judged {t : Turn} {j : Judgement} (hj : t.judged cfg = some j) :
    t.run cfg = conclude cfg t.number j (t.start.edited cfg t.input.writes) := by
  cases t.goes cfg with
  | judged j' hreply hj' hrun =>
      obtain rfl := Option.some.inj (hj.symm.trans hj')
      exact hrun
  | evaluationRaised e hreply hnone hrun => cases hj.symm.trans hnone
  | agentRaised e hreply hnone hrun => cases hj.symm.trans hnone
  | agentEscaped e hreply hnone hrun => cases hj.symm.trans hnone
  | unsuccessful hreply hnone hrun => cases hj.symm.trans hnone

/-- Without evaluations nothing is kept. -/
theorem Turn.run_of_not_judged {t : Turn} (hj : t.judged cfg = none)
    (h : (t.run cfg).2.Returns) :
    (t.run cfg).1.best = t.start.best ∧ (t.run cfg).1.verified = t.start.verified := by
  have hedited := t.start.edited_eq cfg t.input.writes
  have hbest := congrArg LoopState.best hedited
  have hverified := congrArg LoopState.verified hedited
  cases t.goes cfg with
  | judged j hreply hsome hrun => cases hj.symm.trans hsome
  | evaluationRaised e hreply hj' hrun => exact absurd (by rw [hrun]) (h e)
  | agentRaised e hreply hj' hrun =>
      rw [hrun]
      exact ⟨hbest, hverified⟩
  | agentEscaped e hreply hj' hrun => exact absurd (by rw [hrun]) (h e)
  | unsuccessful hreply hj' hrun =>
      rw [hrun]
      exact ⟨hbest, hverified⟩

theorem Turn.run_of_returns {t : Turn} (h : (t.run cfg).2.Returns) :
    (t.run cfg).1.best =
        (if improves (t.score cfg) t.start.best then t.score cfg else t.start.best) ∧
      (t.run cfg).1.verified =
        if t.records cfg = [] then t.start.verified else t.records cfg := by
  rw [Turn.score, Turn.records]
  cases hj : t.judged cfg with
  | none =>
      obtain ⟨hbest, hverified⟩ := Turn.run_of_not_judged hj h
      simp [hbest, hverified, improves]
  | some j =>
      have hedited := t.start.edited_eq cfg t.input.writes
      rw [Turn.run_of_judged hj] at h ⊢
      rcases conclude_cases cfg t.number j (t.start.edited cfg t.input.writes) with
        ⟨e, he⟩ | ⟨s', heq, hbest, hverified, -⟩
      · exact absurd he (h e)
      · rw [congrArg LoopState.best hedited] at hbest
        rw [congrArg LoopState.verified hedited] at hverified
        rw [heq]
        exact ⟨hbest, hverified⟩

/-! ## What a whole loop does -/

/-- What holds at first and is kept by every pass that returns, holds at the
start of each pass and when the loop returns. -/
theorem turns_invariant (Inv : List Turn → LoopState → Prop) (h : Inv [] s)
    (hstep : ∀ before t, Inv before t.start → (t.run cfg).2.Returns →
      Inv (before ++ [t]) (t.run cfg).1)
    (k : ℕ) (inputs : List AttemptInput) :
    (∀ before t, before ++ [t] <+: turns cfg k inputs s → Inv before t.start) ∧
      ∀ s', attempts cfg k inputs s = (s', .ok ()) → Inv (turns cfg k inputs s) s' := by
  induction inputs generalizing k s Inv with
  | nil =>
      refine ⟨fun before t ht => absurd (List.prefix_nil.mp ht) (by simp), fun s' hs' => ?_⟩
      obtain rfl := (Prod.mk.inj hs').1
      exact h
  | cons i rest ih =>
      have hrun := hstep [] ⟨k, i, s⟩ h
      rw [List.nil_append, Turn.run] at hrun
      rw [turns, attempts]
      rcases hattempt : attempt cfg k i s with ⟨s₁, flow⟩
      rw [hattempt] at hrun
      have hcons : ∀ ts : List Turn,
          (∀ before t, before ++ [t] <+: ts → Inv (⟨k, i, s⟩ :: before) t.start) →
            ∀ before t, before ++ [t] <+: ⟨k, i, s⟩ :: ts → Inv before t.start := by
        intro ts hts before t ht
        cases before with
        | nil =>
            obtain ⟨rfl, -⟩ := List.cons_prefix_cons.mp ht
            exact h
        | cons t' before =>
            obtain ⟨hhead, htail⟩ := List.cons_prefix_cons.mp ht
            exact hhead ▸ hts before t htail
      have hlast := hcons [] fun before t ht => absurd (List.prefix_nil.mp ht) (by simp)
      cases flow with
      | next =>
          have hnext : Inv [⟨k, i, s⟩] s₁ := hrun fun e he => by cases he
          obtain ⟨hstarts, hends⟩ := ih (fun before => Inv (⟨k, i, s⟩ :: before)) hnext
            (fun before t => hstep (⟨k, i, s⟩ :: before) t) (k + 1)
          exact ⟨hcons _ hstarts, hends⟩
      | stop =>
          refine ⟨hlast, fun s' hs' => ?_⟩
          obtain rfl := (Prod.mk.inj hs').1
          exact hrun fun e he => by cases he
      | raised e => exact ⟨hlast, fun s' hs' => by cases (Prod.mk.inj hs').2⟩

/-- The measurements are those of the passes, when no pass raises. -/
theorem Tracks.measurements_eq (hne : origin ≠ cfg.branch) {file : Option String}
    {l : Ledger (Option String) ℕ} (h : Tracks cfg origin base file l s) (k : ℕ)
    {inputs : List AttemptInput} (hreturn : AttemptsReturn cfg inputs) :
    measurements cfg file inputs = (turns cfg k inputs s).filterMap (Turn.measured cfg) := by
  induction inputs generalizing k file l s with
  | nil => rfl
  | cons i rest ih =>
      obtain ⟨writes, reply, probe, verify⟩ := i
      have hedited := h.edited writes
      rw [turns, attempt]
      cases reply with
      | raised e =>
          obtain ⟨he, hrest⟩ := hreturn
          have hmeasured : Turn.measured cfg ⟨k, ⟨writes, .raised e, probe, verify⟩, s⟩ =
              none := rfl
          simp only [he, if_true, List.filterMap_cons, hmeasured]
          exact ih (hedited.agentError k e) (k + 1) hrest
      | replied success =>
          cases success with
          | false =>
              have hmeasured : Turn.measured cfg ⟨k, ⟨writes, .replied false, probe, verify⟩, s⟩ =
                  none := rfl
              simp only [List.filterMap_cons, hmeasured]
              exact ih hedited (k + 1) hreturn
          | true =>
              obtain ⟨j, hjudge, hrest⟩ := hreturn
              obtain ⟨s', hconclude, htracks, -⟩ := hedited.conclude hne k j
              have hmeasured : Turn.measured cfg ⟨k, ⟨writes, .replied true, probe, verify⟩, s⟩ =
                  some ⟨writeAllRtl cfg.target.name file writes, j.now cfg.target⟩ := by
                rw [Turn.measured, Turn.judged, hjudge, Turn.file, hedited.work]
                rfl
              simp only [measurements, hjudge, hconclude, List.filterMap_cons, hmeasured]
              cases hstop : cfg.mode = .implement && j.complete with
              | true => simp
              | false =>
                  have hnot : ¬ (cfg.mode = .implement ∧ j.complete = true) := by
                    simpa using hstop
                  simp [ih htracks (k + 1) (hrest.resolve_left hnot)]

/-! ## The attempts of `main` -/

/-- All passes of the attempt loop that `main` makes. -/
def runTurns (cfg : Config) (inp : RunInput) (r : Repo) : List Turn :=
  if cfg.project = "" || r.status then
    []
  else
    match r.checkoutNew cfg.branch with
    | .error _ => []
    | .ok r' =>
        match opening cfg inp (initialState r') with
        | (_, .error _) => []
        | (s, .ok ()) => turns cfg 1 inp.attempts s

/-- `main` comes to its attempts, in this repository and with these variables. -/
structure Opens (cfg : Config) (inp : RunInput) (r r' : Repo) (s : LoopState) : Prop where
  project : cfg.project ≠ ""
  clean : r.status = false
  branch : r.checkoutNew cfg.branch = .ok r'
  opening : opening cfg inp (initialState r') = (s, .ok ())

variable {r' : Repo}

theorem Opens.runTurns_eq (h : Opens cfg inp r r' s) :
    runTurns cfg inp r = turns cfg 1 inp.attempts s := by
  simp only [runTurns, h.project, h.clean, h.branch, h.opening]
  rfl

theorem exists_opens_of_turn {before : List Turn} {t : Turn}
    (ht : before ++ [t] <+: runTurns cfg inp r) : ∃ r' s, Opens cfg inp r r' s := by
  have hne : runTurns cfg inp r ≠ [] := by
    intro hnil
    rw [hnil, List.prefix_nil] at ht
    simp at ht
  by_cases hproject : cfg.project = ""
  · simp [runTurns, hproject] at hne
  · cases hstatus : r.status with
    | true => simp [runTurns, hstatus] at hne
    | false =>
        cases hbranch : r.checkoutNew cfg.branch with
        | error e => simp [runTurns, hbranch] at hne
        | ok r' =>
            rcases hopening : AgentLoop.opening cfg inp (initialState r') with ⟨s, e | _⟩
            · simp [runTurns, hbranch, hopening] at hne
            · exact ⟨r', s, hproject, hstatus, hbranch, hopening⟩

/-- The variables the attempts start from follow the first measurement. -/
theorem Opens.tracks (h : Opens cfg inp r r' s) :
    r.branch ≠ cfg.branch ∧ Tracks cfg r.branch r'.head (baselineFile cfg r)
      (ledger (startFile cfg r) [⟨baselineFile cfg r, baselineScore cfg inp.base⟩]) s := by
  obtain ⟨hne, hon, hfile, hhead, hwork⟩ := onBranch_of_checkoutNew h.clean h.branch
  have hopening := opening_ends hon hne hfile inp
  rw [h.opening] at hopening
  obtain ⟨-, -, -, htracks⟩ := hopening.of_ok
  have hstart : startFile cfg r' = startFile cfg r := by
    rw [startFile, startFile, hhead]
  have hbase : baselineFile cfg r' = baselineFile cfg r := by
    rw [baselineFile, baselineFile, hwork]
  rw [hstart, hbase] at htracks
  exact ⟨hne, htracks⟩

/-- The measurements of the baseline and of some attempts. -/
def known (cfg : Config) (inp : RunInput) (r : Repo) (before : List Turn) : List Measured :=
  ⟨baselineFile cfg r, baselineScore cfg inp.base⟩ :: before.filterMap (Turn.measured cfg)

theorem known_concat (before : List Turn) (t : Turn) :
    known cfg inp r (before ++ [t]) = known cfg inp r before ++ (t.measured cfg).toList := by
  cases h : t.measured cfg <;> simp [known, h]

/-- When no attempt raises, these are all the measurements of the run. -/
theorem Opens.known_eq (h : Opens cfg inp r r' s) (hreturn : AttemptsReturn cfg inp.attempts) :
    known cfg inp r (runTurns cfg inp r) = runMeasurements cfg inp r := by
  obtain ⟨hne, htracks⟩ := h.tracks
  rw [known, h.runTurns_eq, runMeasurements, htracks.measurements_eq hne 1 hreturn]

theorem Turn.score_eq_bind_measured (t : Turn) :
    t.score cfg = (t.measured cfg).bind Measurement.score := by
  rw [Turn.score, Turn.measured, Option.bind_map]
  rfl

/-- At every attempt, `best` is the least score so far. -/
theorem Opens.summarizes (h : Opens cfg inp r r' s) {before : List Turn} {t : Turn}
    (ht : before ++ [t] <+: runTurns cfg inp r) :
    Summarizes (known cfg inp r before) t.start.best := by
  rw [h.runTurns_eq] at ht
  refine (turns_invariant (fun before s => Summarizes (known cfg inp r before) s.best)
    ?_ (fun before t hbest hreturns => ?_) 1 inp.attempts).1 before t ht
  · rw [h.tracks.2.follows.best]
    exact summarizes_ledger _ _
  · rw [(Turn.run_of_returns hreturns).1, known_concat, Turn.score_eq_bind_measured]
    cases t.measured cfg with
    | none => simpa [improves] using hbest
    | some m => exact hbest.concat m

/-- What the loop calls an improvement is one on the baseline and on all
earlier attempts. -/
theorem improves_start_iff {before : List Turn} {t : Turn}
    (ht : before ++ [t] <+: runTurns cfg inp r) :
    improves (t.score cfg) t.start.best = true ↔ t.Beats cfg inp before := by
  obtain ⟨r', s, hopens⟩ := exists_opens_of_turn ht
  rw [(hopens.summarizes ht).improves_iff, Turn.Beats]
  refine exists_congr fun n => and_congr_right fun _ => ?_
  rw [known, List.forall_mem_cons, List.forall_mem_filterMap]
  refine and_congr_right fun _ => forall₂_congr fun t' _ => ?_
  rw [Turn.score_eq_bind_measured]
  cases t'.measured cfg <;> simp

end AgentLoop
