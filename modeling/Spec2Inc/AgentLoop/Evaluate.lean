import Spec2Inc.AgentLoop.Targets
import Spec2Inc.Search.Incumbent

/-!
# Evaluating a candidate

`evaluate`, `check_verify_points`, `score` and `format_feedback`. A `Probe` is
what the two remote calls of one evaluation come to; the synthesis is only
looked at when the tests passed, so a passed evaluation always has one.
-/

open Python

namespace AgentLoop

/-- What the remote `run_tests` and `run_synth` of one evaluation come to. -/
structure Probe where
  tests : Except Exception TestResult
  synth : Except Exception SynthResult

def evaluate (params : Params) (probe : Probe) : Except Exception Evaluation := do
  let test ← probe.tests
  if test.passed then
    let synth ← probe.synth
    .ok ⟨params, test, some synth⟩
  else
    .ok ⟨params, test, none⟩

/-- Evaluate the secondary parameter points, stopping at the first failure. -/
def checkVerifyPoints : List Params → (ℕ → Probe) →
    Except Exception (List Evaluation × Option Evaluation)
  | [], _ => .ok ([], none)
  | params :: points, probes => do
      let chk ← evaluate params (probes 0)
      if !chk.usable then
        .ok ([chk], some chk)
      else
        let (results, fail) ← checkVerifyPoints points fun n => probes (n + 1)
        .ok (chk :: results, fail)

/-- Lower is better. `none` when the candidate is not usable at all. -/
def score (target : Target) (ev : Evaluation) : Option ℕ :=
  if !ev.usable then
    none
  else
    match target.objective with
    | .depth => ev.synth.map SynthResult.depth
    | .cells => ev.synth.map SynthResult.cells
    | .correctness => some 0

/-! ## Feedback to the agent -/

/-- `f"{params}"`. -/
def paramsRepr (params : Params) : String :=
  "\x7b" ++ ", ".intercalate (params.items.map fun p => s!"'{p.1}': {p.2}") ++ "\x7d"

/-- `f"{best}"`. -/
def bestRepr (best : Option ℕ) : String := best.elim "None" toString

/-- The log that tells why an evaluation is not usable. -/
def Evaluation.failureLog (ev : Evaluation) : String :=
  if !ev.test.passed then ev.test.log else (ev.synth.map SynthResult.log).getD ""

/-- The last lines of a log, fenced. -/
def fenced (n : ℕ) (log : String) : String := s!"```\n{lastLines n log}\n```\n\n"

def formatFeedback (target : Target) (attempt : ℕ) (ev : Evaluation) (best : Option ℕ)
    (verifyFail : Option Evaluation) : String :=
  match verifyFail with
  | some failing =>
      s!"Attempt {attempt} REJECTED: it works at {paramsRepr ev.params} but " ++
        (if failing.test.testsRun = 0 then "does not build" else "fails") ++
        s!" at {paramsRepr failing.params}.\n\n" ++
        "The module must be correct across its whole parameter range, not " ++
        "just at one point. Note that the index space and the table size " ++
        "are set by different parameters, so one can be wider than the " ++
        "other.\n\n" ++ fenced 60 failing.failureLog ++
        "Fix this without breaking the point that already works."
  | none =>
    if !ev.test.passed then
      let diagnosis :=
        if ev.test.testsRun = 0 then
          "The module did not compile, so no test ran. Read the compiler " ++
            "error below and fix the syntax or elaboration problem."
        else
          "Your change does not match the specified behavior. The testbench " ++
            "is fixed and correct; the design is what must change."
      s!"Attempt {attempt} REJECTED: {ev.test.summary}.\n\n{diagnosis}\n\n" ++
        fenced 60 ev.test.log ++ "Fix this before anything else."
    else if !ev.synth.any SynthResult.ok then
      s!"Attempt {attempt} REJECTED: tests pass but synthesis failed.\n\n" ++
        fenced 40 ev.failureLog ++ "Make it elaborate under sv2v and yosys."
    else if target.objective = .correctness then
      s!"Attempt {attempt}: {ev.test.summary} and it synthesizes. " ++
        "The module is correct. Stop unless you see something clearly wrong."
    else
      let verdict :=
        if Incumbent.improves (score target ev) best then s!"IMPROVED (best was {bestRepr best})"
        else s!"no improvement (best is still {bestRepr best})"
      let synthesis := (ev.synth.map SynthResult.summary).getD ""
      s!"Attempt {attempt} accepted: {ev.test.summary}, {synthesis} -- {verdict}.\n\n" ++
        s!"Keep going: reduce {target.objective.name} further without breaking the " ++
        "tests or changing the interface."

end AgentLoop
