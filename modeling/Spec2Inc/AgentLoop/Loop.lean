import Spec2Inc.AgentLoop.Evaluate
import Spec2Inc.Git.Repo

/-!
# The agent loop

`main`, from the check for a clean tree to the final checkout, over the
repository of `Git/Repo.lean`. What the outside does is an input: the agent's
writes and reply and the probes of every evaluation, for each attempt. The
variables of `main` are a `LoopState`. A part of `main` that can raise returns
the state it leaves together with what it came to, so that the `finally` block
runs on the state of the moment.
-/

open Python

namespace AgentLoop

abbrev Commit : Type := Git.Commit String String

abbrev Repo : Type := Git.Repo String String

/-! ## The edit tool -/

/-- `RtlEditTool.write_rtl`: the file afterwards, and the reply. -/
def writeRtl (moduleName content : String) (file : Option String) : Option String × String :=
  if !contains content s!"module {moduleName}" then
    (file, s!"REJECTED: content does not define module {moduleName}")
  else if !contains content "endmodule" then
    (file, "REJECTED: content has no endmodule")
  else
    let lines := content.toList.count '\n' + 1
    (some content, s!"wrote {content.length} bytes, {lines} lines")

/-- The file after a sequence of writes. -/
def writeAllRtl (moduleName : String) (file : Option String) (contents : List String) :
    Option String :=
  contents.foldl (fun file content => (writeRtl moduleName content file).1) file

/-! ## Inputs and variables -/

inductive Mode
  | implement
  | optimize
  deriving DecidableEq, Repr

def Mode.name : Mode → String
  | implement => "implement"
  | optimize => "optimize"

/-- What the call to the agent comes to. -/
inductive Reply
  | raised (e : Exception)
  | replied (success : Bool)

/-- One attempt, seen from outside: the contents the agent writes, what its
call comes to, and the probes of the evaluations that may follow. -/
structure AttemptInput where
  writes : List String
  reply : Reply
  probe : Probe
  verify : ℕ → Probe

/-- A run, seen from outside: the probe of the baseline, what creating the
model, the tool and the first message come to, the attempts, and what stopping
the tool comes to. -/
structure RunInput where
  base : Probe
  llm : Except Exception Unit
  tool : Except Exception Unit
  briefing : Except Exception String
  attempts : List AttemptInput
  stopTool : Except Exception Unit

/-- The arguments, the name of the run branch, the trailer of an attempt's
commit message, `REPO`, and what `git rev-parse --short` and `git status
--porcelain` print. -/
structure Config where
  target : Target
  modeArg : Option Mode
  model : String
  project : String
  branch : String
  trailer : String
  root : String
  short : Commit → String
  porcelain : Repo → String

/-- `args.mode`, or its default. -/
def Config.mode (cfg : Config) : Mode :=
  cfg.modeArg.getD (if cfg.target.hasSkeleton then .implement else .optimize)

/-- One entry of `history`. -/
structure Entry where
  attempt : ℕ
  score : Option ℕ
  tests : String
  commit : Option Commit
  cells : Option ℕ
  depth : Option ℕ

/-- One entry of `verified`. -/
structure Verified where
  params : Params
  passed : Bool
  cells : Option ℕ
  depth : Option ℕ

/-- The variables of `main` that change; `tool` is whether there is one. -/
structure LoopState where
  repo : Repo
  tool : Bool
  history : List Entry
  verified : List Verified
  best : Option ℕ
  bestCommit : Commit
  message : String

/-- What goes into `summary.json`. -/
structure Summary where
  target : String
  mode : Mode
  model : String
  branch : String
  base : Commit
  objective : Objective
  history : List Entry
  best : Option ℕ
  verified : List Verified

/-- What `main` comes to. -/
structure Outcome where
  repo : Repo
  summary : Option Summary
  result : Except Exception Unit

/-! ## git -/

/-- What git prints to `stderr` when it refuses. -/
def refusalText : Git.Refusal String → String
  | .branchExists name => s!"fatal: a branch named '{name}' already exists\n"
  | .unknownBranch name => s!"error: pathspec '{name}' did not match any file(s) known to git\n"
  | .pathspec path => s!"error: pathspec '{path}' did not match any file(s) known to git\n"
  | .unmatched path => s!"fatal: pathspec '{path}' did not match any files\n"
  | .nothingToCommit => ""
  | .wouldOverwrite paths =>
      "error: Your local changes to the following files would be overwritten by " ++
        "checkout:\n\t" ++ "\n\t".intercalate paths ++
        "\nPlease commit your changes or stash them before you switch branches.\nAborting\n"

/-- `git(*args)`. -/
def git {α : Type} (args : List String) (command : Except (Git.Refusal String) α) :
    Except Exception α :=
  command.mapError fun e =>
    .runtimeError ("git " ++ " ".intercalate args ++ s!" failed:\n{refusalText e}")

/-- `git commit -m ... -m ...`. -/
def gitCommit (message : List String) (r : Repo) : Except Exception Repo :=
  git ("commit" :: message.flatMap fun paragraph => ["-m", paragraph]) (r.commit message)

/-- `git add` and `git commit` of the module file, and the exception of the one
that was refused. -/
def gitCommitFile (path : String) (message : List String) (r : Repo) :
    Repo × Except Exception Unit :=
  match git ["add", "--", path] (r.add path) with
  | .error e => (r, .error e)
  | .ok r' =>
      match gitCommit message r' with
      | .error e => (r', .error e)
      | .ok r'' => (r'', .ok ())

theorem gitCommit_eq_ok_iff {message : List String} {r r' : Repo} :
    gitCommit message r = .ok r' ↔ r.commit message = .ok r' := by
  rw [gitCommit]
  cases r.commit message with
  | error e => simp [git, Except.mapError]
  | ok r'' => simp [git, Except.mapError]

/-- The two commands are those of `commitFile`. -/
theorem gitCommitFile_spec (path : String) (message : List String) (r : Repo) :
    (gitCommitFile path message r).1 = (r.commitFile path message).1 ∧
      ((gitCommitFile path message r).2 = .ok () ↔ (r.commitFile path message).2 = .ok ()) := by
  rw [gitCommitFile, Git.Repo.commitFile]
  cases r.add path with
  | error e => simp [git, Except.mapError]
  | ok r' =>
      cases hcommit : r'.commit message with
      | error e => simp [gitCommit, git, Except.mapError, hcommit]
      | ok r'' => simp [gitCommit, git, Except.mapError, hcommit]

theorem gitCommitFile_eq_ok_iff {path : String} {message : List String} {r r' : Repo} :
    gitCommitFile path message r = (r', .ok ()) ↔ r.commitFile path message = (r', .ok ()) := by
  obtain ⟨hrepo, hdone⟩ := gitCommitFile_spec path message r
  rw [Prod.ext_iff, Prod.ext_iff, hrepo, hdone]

/-- Commit the module file if it changed, returning the commit. -/
def commit (cfg : Config) (subject : String) (body : List String) (r : Repo) :
    Repo × Except Exception (Option Commit) :=
  if !r.statusAt cfg.target.rtl then
    (r, .ok none)
  else
    match gitCommitFile cfg.target.rtl [subject, "\n".intercalate body, cfg.trailer] r with
    | (r', .error e) => (r', .error e)
    | (r', .ok ()) => (r', .ok (some r'.head))

/-! ## One attempt -/

/-- The evaluations of one attempt: the primary point, and the verify points as
far as they were reached. -/
structure Judgement where
  cand : Evaluation
  verifiedNow : List Evaluation
  verifyFail : Option Evaluation

def judge (target : Target) (probe : Probe) (verify : ℕ → Probe) :
    Except Exception Judgement := do
  let cand ← evaluate target.params probe
  if cand.usable then
    let (verifiedNow, verifyFail) ← checkVerifyPoints target.verifyPoints verify
    .ok ⟨cand, verifiedNow, verifyFail⟩
  else
    .ok ⟨cand, [], none⟩

namespace Judgement

def complete (j : Judgement) : Bool := j.cand.usable && j.verifyFail.isNone

/-- The score of a complete attempt. -/
def now (target : Target) (j : Judgement) : Option ℕ :=
  if j.complete then score target j.cand else none

def headline (j : Judgement) (improved : Bool) : String :=
  match j.verifyFail with
  | some fail => s!"rejected: fails at {paramsRepr fail.params}"
  | none =>
      if j.cand.usable then
        let synthesis := (j.cand.synth.map SynthResult.summary).getD ""
        let verdict := if improved then "accepted" else "no improvement"
        s!"{synthesis} ({verdict})"
      else if j.cand.test.passed then
        "rejected: synthesis failed"
      else
        s!"rejected: {j.cand.test.summary}"

end Judgement

/-- The cells and the depth of a usable evaluation. -/
def Evaluation.cells (ev : Evaluation) : Option ℕ :=
  if ev.usable then ev.synth.map SynthResult.cells else none

def Evaluation.depth (ev : Evaluation) : Option ℕ :=
  if ev.usable then ev.synth.map SynthResult.depth else none

def Evaluation.verified (ev : Evaluation) : Verified where
  params := ev.params
  passed := ev.test.passed
  cells := ev.cells
  depth := ev.depth

/-- How the loop goes on after an attempt. -/
inductive Flow
  | next
  | stop
  | raised (e : Exception)
  deriving DecidableEq

/-- The handler of an exception from the call to the agent. -/
def agentError (attempt : ℕ) (e : Exception) (s : LoopState) : LoopState :=
  { s with
    history := s.history ++
      [⟨attempt, none, s!"agent error: {e.name}", none, none, none⟩]
    message := s!"Attempt {attempt} did not complete: {e.name}. " ++
      "Your previous response was cut off before the edit landed. " ++
      "Keep the reasoning brief and write the complete file in one " ++
      "tool call." }

/-- The subject and the body of an attempt's commit. -/
def attemptMessage (cfg : Config) (attempt : ℕ) (j : Judgement) (improved : Bool) :
    String × List String :=
  (s!"agent({cfg.target.name}): attempt {attempt} -- {j.headline improved}",
    [s!"tests: {j.cand.test.summary}", s!"point: {paramsRepr j.cand.params}",
      s!"mode: {cfg.mode.name}", s!"model: {cfg.model}"] ++
    (j.cand.synth.map fun synth => s!"synth: {synth.summary}").toList)

/-- What follows the evaluations of an attempt: commit, record, and keep the
design when it is the best so far. -/
def conclude (cfg : Config) (attempt : ℕ) (j : Judgement) (s : LoopState) :
    LoopState × Flow :=
  let now := j.now cfg.target
  let improved := Incumbent.improves now s.best
  let verified :=
    if j.verifyFail.isNone && !j.verifiedNow.isEmpty then
      j.verifiedNow.map Evaluation.verified
    else
      s.verified
  let (subject, body) := attemptMessage cfg attempt j improved
  match commit cfg subject body s.repo with
  | (repo, .error e) => ({ s with repo := repo, verified := verified }, .raised e)
  | (repo, .ok sha) =>
      let s' : LoopState :=
        { repo := repo
          tool := s.tool
          history := s.history ++
            [⟨attempt, now, j.cand.test.summary, sha, j.cand.cells, j.cand.depth⟩]
          verified := verified
          best := if improved then now else s.best
          bestCommit := if improved then sha.getD s.bestCommit else s.bestCommit
          message := s.message }
      if cfg.mode = .implement && j.complete then
        (s', .stop)
      else
        ({ s' with
            message := formatFeedback cfg.target attempt j.cand s'.best j.verifyFail }, .next)

/-- The file system after the agent's writes. -/
def LoopState.edited (cfg : Config) (writes : List String) (s : LoopState) : LoopState :=
  match writeAllRtl cfg.target.name (s.repo.work.get? cfg.target.rtl) writes with
  | some content => { s with repo := s.repo.write cfg.target.rtl content }
  | none => s

/-- The body of the attempt loop. -/
def attempt (cfg : Config) (k : ℕ) (i : AttemptInput) (s : LoopState) : LoopState × Flow :=
  let s := s.edited cfg i.writes
  match i.reply with
  | .raised e => if e.isException then (agentError k e s, .next) else (s, .raised e)
  | .replied false => (s, .next)
  | .replied true =>
      match judge cfg.target i.probe i.verify with
      | .error e => (s, .raised e)
      | .ok j => conclude cfg k j s

/-- The attempt loop, from attempt `k` on. -/
def attempts (cfg : Config) : ℕ → List AttemptInput → LoopState →
    LoopState × Except Exception Unit
  | _, [], s => (s, .ok ())
  | k, i :: rest, s =>
      match attempt cfg k i s with
      | (s', .next) => attempts cfg (k + 1) rest s'
      | (s', .stop) => (s', .ok ())
      | (s', .raised e) => (s', .error e)

/-! ## The whole run -/

/-- Start from the skeleton, in implement mode. -/
def seed (cfg : Config) (s : LoopState) : LoopState × Except Exception Unit :=
  if !cfg.target.hasSkeleton then
    (s, .error (.systemExit s!"{cfg.target.name} has no skeleton to start from"))
  else
    let path := cfg.target.skeleton.getD ""
    match s.repo.work.get? path with
    | none => (s, .error (.fileNotFoundError
        s!"[Errno 2] No such file or directory: '{cfg.root}/{path}'"))
    | some content =>
        let (repo, sha) := commit cfg s!"agent({cfg.target.name}): start from skeleton"
          ["mode: implement", s!"model: {cfg.model}"] (s.repo.write cfg.target.rtl content)
        ({ s with repo := repo }, sha.map fun _ => ())

/-- The baseline, and in optimize mode its score. -/
def baseline (cfg : Config) (probe : Probe) (s : LoopState) :
    LoopState × Except Exception Evaluation :=
  match cfg.mode with
  | .implement =>
      match seed cfg s with
      | (s', .error e) => (s', .error e)
      | (s', .ok ()) => (s', evaluate cfg.target.params probe)
  | .optimize =>
      match evaluate cfg.target.params probe with
      | .error e => (s, .error e)
      | .ok base =>
          if !base.usable then
            (s, .error (.systemExit "baseline is not usable; nothing to optimize from"))
          else
            ({ s with best := score cfg.target base }, .ok base)

/-- The first entry of the history. -/
def recordBaseline (base : Evaluation) (s : LoopState) : LoopState :=
  { s with
    history := s.history ++
      [⟨0, s.best, base.test.summary, some s.bestCommit, base.cells, base.depth⟩] }

/-- The constructor of the edit tool. -/
def openTool (cfg : Config) (tool : Except Exception Unit) (r : Repo) :
    Except Exception Unit := do
  tool
  if cfg.target.rtl ∈ r.work then
    .ok ()
  else
    .error (.fileNotFoundError s!"no such RTL file: {cfg.root}/{cfg.target.rtl}")

/-- The `try` block of `main`. -/
def body (cfg : Config) (inp : RunInput) (s : LoopState) : LoopState × Except Exception Unit :=
  match baseline cfg inp.base s with
  | (s', .error e) => (s', .error e)
  | (s', .ok base) =>
      let s' := recordBaseline base s'
      match (do inp.llm; openTool cfg inp.tool s'.repo) with
      | .error e => (s', .error e)
      | .ok () =>
          let s' := { s' with tool := true }
          match inp.briefing with
          | .error e => (s', .error e)
          | .ok message => attempts cfg 1 inp.attempts { s' with message := message }

/-- The `finally` block of `main`. -/
def cleanup (cfg : Config) (stopTool : Except Exception Unit) (s : LoopState) :
    LoopState × Except Exception Unit :=
  match (if s.tool then stopTool else .ok ()) with
  | .error e => (s, .error e)
  | .ok () =>
      if s.repo.statusAt cfg.target.rtl then
        let (repo, done) := gitCommitFile cfg.target.rtl
          [s!"agent({cfg.target.name}): uncommitted edit at exit"] s.repo
        ({ s with repo := repo }, done)
      else
        (s, .ok ())

/-- Leave the branch tip at the best design. -/
def restore (cfg : Config) (s : LoopState) : LoopState × Except Exception Unit :=
  if s.bestCommit = s.repo.head then
    (s, .ok ())
  else
    match git ["checkout", cfg.short s.bestCommit, "--", cfg.target.rtl]
        (s.repo.checkoutPath s.bestCommit cfg.target.rtl) with
    | .error e => (s, .error e)
    | .ok repo =>
        if !repo.status then
          ({ s with repo := repo }, .ok ())
        else
          match gitCommit
              [s!"agent({cfg.target.name}): restore best design from {cfg.short s.bestCommit}"]
              repo with
          | .error e => ({ s with repo := repo }, .error e)
          | .ok repo' => ({ s with repo := repo' }, .ok ())

def summarize (cfg : Config) (base : Commit) (s : LoopState) : Summary where
  target := cfg.target.name
  mode := cfg.mode
  model := cfg.model
  branch := cfg.branch
  base := base
  objective := cfg.target.objective
  history := s.history
  best := s.best
  verified := s.verified

/-- `main` once the run branch is checked out. An exception from the `finally`
block takes the place of one from the `try` block. -/
def runOnBranch (cfg : Config) (inp : RunInput) (origin : String) (r : Repo) : Outcome :=
  let (s₁, ran) := body cfg inp ⟨r, false, [], [], none, r.head, ""⟩
  let (s₂, cleaned) := cleanup cfg inp.stopTool s₁
  match (do cleaned; ran) with
  | .error e => ⟨s₂.repo, none, .error e⟩
  | .ok () =>
      match restore cfg s₂ with
      | (s₃, .error e) => ⟨s₃.repo, none, .error e⟩
      | (s₃, .ok ()) =>
          let summary := summarize cfg r.head s₃
          match git ["checkout", origin] (s₃.repo.checkout origin) with
          | .error e => ⟨s₃.repo, some summary, .error e⟩
          | .ok repo => ⟨repo, some summary, .ok ()⟩

/-- `main`. -/
def main (cfg : Config) (inp : RunInput) (r : Repo) : Outcome :=
  if cfg.project = "" then
    ⟨r, none, .error (.systemExit "GOOGLE_CLOUD_PROJECT is not set")⟩
  else if r.status then
    ⟨r, none, .error (.systemExit
      ("working tree has uncommitted changes; commit or stash first:\n" ++ cfg.porcelain r))⟩
  else
    match git ["checkout", "-b", cfg.branch] (r.checkoutNew cfg.branch) with
    | .error e => ⟨r, none, .error e⟩
    | .ok r' => runOnBranch cfg inp r.branch r'

end AgentLoop
