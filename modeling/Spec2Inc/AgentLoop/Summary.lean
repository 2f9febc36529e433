import Spec2Inc.AgentLoop.Best
import Spec2Inc.AgentLoop.History
import Spec2Inc.AgentLoop.Scope

/-!
# What the summary says

A run that writes its summary has come through all its parts (`Course`). Its
history has one entry for the baseline and one for every attempt whose agent
call was evaluated or raised, in order (`Opens.history`). So the summary can be
read without the log (`summary_is_faithful`): its best score is the least in the
history, a score is the number in the column of the objective, and a commit
named in an entry is on the run branch and has the design of that attempt.
-/

open Python Incumbent

namespace AgentLoop

variable {cfg : Config} {inp : RunInput} {origin : String} {base : Commit} {r r' : Repo}
  {s s' : LoopState} {summary : Summary}

/-! ## The entry of an attempt -/

/-- The commit of an attempt, when it changed the module file. -/
def Turn.committed (cfg : Config) (t : Turn) : Option Commit :=
  if t.file cfg = t.start.repo.head.tree.get? cfg.target.rtl then none
  else some (t.run cfg).1.repo.head

/-- The entry that an attempt adds to the history, if any. -/
def Turn.entry (cfg : Config) (t : Turn) : Option Entry :=
  match t.input.reply with
  | .raised e => some ⟨t.number, none, s!"agent error: {e.name}", none, none, none⟩
  | .replied _ => (t.judged cfg).map fun j =>
      ⟨t.number, j.now cfg.target, j.cand.test.summary, t.committed cfg, j.cand.cells,
        j.cand.depth⟩

theorem Turn.commit_of_mem_entry {t : Turn} {entry : Entry} (h : entry ∈ t.entry cfg) {c : Commit}
    (hc : c ∈ entry.commit) : (t.judged cfg).isSome = true ∧ c ∈ t.committed cfg := by
  rw [Turn.entry] at h
  split at h
  · obtain rfl := Option.some.inj h
    cases hc
  · obtain ⟨j, hj, rfl⟩ := Option.map_eq_some_iff.mp h
    exact ⟨by rw [hj]; rfl, hc⟩

/-- The commit that `commit` returns is the new one, unless nothing changed. -/
theorem history_of_conclude (h : OnBranch cfg origin base s.repo) (hne : origin ≠ cfg.branch)
    (k : ℕ) (j : Judgement) :
    (conclude cfg k j s).1.history = s.history ++
      [⟨k, j.now cfg.target, j.cand.test.summary,
        if s.repo.work.get? cfg.target.rtl = s.repo.head.tree.get? cfg.target.rtl then none
          else some (conclude cfg k j s).1.repo.head,
        j.cand.cells, j.cand.depth⟩] := by
  rcases hmessage : attemptMessage cfg k j (improves (j.now cfg.target) s.best) with
    ⟨subject, body⟩
  obtain ⟨r', sha, hcommit, -, -, -, hsha⟩ := h.commit hne subject body
  simp only [conclude, hmessage, hcommit, hsha]
  split
  · rfl
  · rfl

/-- A pass that returns adds its entry. -/
theorem Turn.history_run {t : Turn} (h : OnBranch cfg origin base t.start.repo)
    (hne : origin ≠ cfg.branch) (hreturns : (t.run cfg).2.Returns) :
    (t.run cfg).1.history = t.start.history ++ (t.entry cfg).toList := by
  have hedited := congrArg LoopState.history (t.start.edited_eq cfg t.input.writes)
  cases t.goes cfg with
  | judged j hreply hj hrun =>
      have hhistory := history_of_conclude (h.edited t.input.writes) hne t.number j
      rw [LoopState.head_edited, hedited] at hhistory
      rw [Turn.entry, hreply, hj, Turn.committed, hrun, hhistory]
      rfl
  | evaluationRaised e hreply hj hrun => exact absurd (by rw [hrun]) (hreturns e)
  | agentRaised e hreply hj hrun =>
      rw [hrun, Turn.entry, hreply, agentError, hedited]
      rfl
  | agentEscaped e hreply hj hrun => exact absurd (by rw [hrun]) (hreturns e)
  | unsuccessful hreply hj hrun =>
      rw [hrun, Turn.entry, hreply, hj, hedited]
      exact (List.append_nil _).symm

/-! ## The entry of the baseline -/

def baselineEntry (cfg : Config) (probe : Probe) (base : Evaluation) (c : Commit) : Entry :=
  ⟨0, baselineScore cfg probe, base.test.summary, some c, base.cells, base.depth⟩

/-- A commit in the entry of a pass has the design that was evaluated. -/
theorem Turn.commit_run {t : Turn} (h : OnBranch cfg origin base t.start.repo)
    (hne : origin ≠ cfg.branch) (hreturns : (t.run cfg).2.Returns) {entry : Entry}
    (hentry : entry ∈ t.entry cfg) {c : Commit} (hc : c ∈ entry.commit) :
    c = (t.run cfg).1.repo.head ∧ c.tree.get? cfg.target.rtl = t.file cfg := by
  obtain ⟨hjudged, hcommitted⟩ := Turn.commit_of_mem_entry hentry hc
  have hreply : t.input.reply = .replied true := by
    rw [Turn.judged] at hjudged
    split at hjudged
    · assumption
    · cases hjudged
  rw [Turn.committed] at hcommitted
  split at hcommitted
  · cases hcommitted
  · obtain rfl := Option.some.inj hcommitted
    exact ⟨rfl, (Turn.run_leaves h hne).stored hreturns _ (Turn.evaluated_of_replied hreply)⟩

/-- Along the attempts the history has the entries of those so far, and their
commits stay below the last one. -/
structure Listed (cfg : Config) (origin : String) (base : Commit) (first : Entry)
    (before : List Turn) (s : LoopState) : Prop where
  onBranch : OnBranch cfg origin base s.repo
  history : s.history = first :: before.filterMap (Turn.entry cfg)
  commits : ∀ t ∈ before, ∀ entry ∈ t.entry cfg, ∀ c ∈ entry.commit,
    c.tree.get? cfg.target.rtl = t.file cfg ∧ c.history <:+ s.repo.head.history

theorem Listed.run {first : Entry} {before : List Turn} {t : Turn} (hne : origin ≠ cfg.branch)
    (h : Listed cfg origin base first before t.start) (hreturns : (t.run cfg).2.Returns) :
    Listed cfg origin base first (before ++ [t]) (t.run cfg).1 := by
  have hleaves := Turn.run_leaves h.onBranch hne
  refine ⟨hleaves.onBranch, ?_, fun t' ht' entry hentry c hc => ?_⟩
  · rw [Turn.history_run h.onBranch hne hreturns, h.history, List.filterMap_append,
      List.cons_append]
    rfl
  · rcases List.mem_append.mp ht' with ht' | ht'
    · obtain ⟨hfile, hbelow⟩ := h.commits t' ht' entry hentry c hc
      exact ⟨hfile, hbelow.trans hleaves.grows.suffix⟩
    · obtain rfl := List.mem_singleton.mp ht'
      obtain ⟨rfl, hfile⟩ := Turn.commit_run h.onBranch hne hreturns hentry hc
      exact ⟨hfile, List.suffix_rfl⟩

/-- The parts of a run that comes to its summary, with the variables after the
opening, the attempts, the `finally` block and the restoring checkout. -/
structure Course (cfg : Config) (inp : RunInput) (r r' : Repo) (s₁ s₂ s₃ s₄ : LoopState) :
    Prop where
  opens : Opens cfg inp r r' s₁
  attempts : attempts cfg 1 inp.attempts s₁ = (s₂, .ok ())
  cleanup : cleanup cfg inp.stopTool s₂ = (s₃, .ok ())
  restore : restore cfg s₃ = (s₄, .ok ())

theorem cleanup_eq (cfg : Config) (stopTool : Except Exception Unit) (s : LoopState) :
    (cleanup cfg stopTool s).1 = { s with repo := (cleanup cfg stopTool s).1.repo } := by
  rw [cleanup]
  split
  · rfl
  · split
    · rfl
    · rfl

theorem restore_eq (cfg : Config) (s : LoopState) :
    (restore cfg s).1 = { s with repo := (restore cfg s).1.repo } := by
  rw [restore]
  split
  · rfl
  · split
    · rfl
    · split
      · rfl
      · split
        · rfl
        · rfl

/-- The restoring checkout leaves the history, or puts one commit on top of it. -/
theorem grows_of_restore (h : restore cfg s = (s', .ok ())) :
    s.repo.head.Grows (fun _ => True) s'.repo.head := by
  rw [restore] at h
  split at h
  · obtain ⟨rfl, -⟩ := Prod.mk.inj h
    exact Or.inl rfl
  · cases hcheckout : s.repo.checkoutPath s.bestCommit cfg.target.rtl with
    | error e =>
        rw [hcheckout] at h
        cases (Prod.mk.inj h).2
    | ok r =>
        have hhead := Git.Repo.head_of_checkoutPath hcheckout
        simp only [hcheckout, git, Except.mapError] at h
        split at h
        · obtain ⟨rfl, -⟩ := Prod.mk.inj h
          exact Or.inl (congrArg Git.Commit.history hhead)
        · cases hcommit : gitCommit
            [s!"agent({cfg.target.name}): restore best design from {cfg.short s.bestCommit}"] r with
          | error e =>
              simp only [hcommit] at h
              cases (Prod.mk.inj h).2
          | ok r' =>
              simp only [hcommit] at h
              obtain ⟨rfl, -⟩ := Prod.mk.inj h
              rw [← hhead]
              exact Or.inr ⟨_, trivial,
                Git.Repo.history_of_commit (gitCommit_eq_ok_iff.mp hcommit)⟩

variable {s₁ s₂ s₃ s₄ : LoopState}

/-- The summary has the history and the best score that the attempts leave. -/
theorem Course.results (h : Course cfg inp r r' s₁ s₂ s₃ s₄) :
    s₄.history = s₂.history ∧ s₄.best = s₂.best := by
  have hcleanup := cleanup_eq cfg inp.stopTool s₂
  have hrestore := restore_eq cfg s₃
  rw [h.cleanup] at hcleanup
  rw [h.restore] at hrestore
  have hhistory := congrArg LoopState.history hcleanup
  have hbest := congrArg LoopState.best hcleanup
  exact ⟨(congrArg LoopState.history hrestore).trans hhistory,
    (congrArg LoopState.best hrestore).trans hbest⟩

theorem Course.suffix (h : Course cfg inp r r' s₁ s₂ s₃ s₄) :
    s₂.repo.head.history <:+ s₄.repo.head.history :=
  (grows_of_cleanup h.cleanup).suffix.trans (grows_of_restore h.restore).suffix

/-- The number is the one in the column of the objective. -/
def Entry.InColumn (entry : Entry) : Objective → ℕ → Prop
  | .depth, n => entry.depth = some n
  | .cells, n => entry.cells = some n
  | .correctness, n => n = 0

/-- What a reader of the summary can rely on; `tip` is the tip of the run branch. -/
structure Faithful (cfg : Config) (inp : RunInput) (r : Repo) (summary : Summary)
    (tip : Commit) : Prop where
  entries : ∃ ev, evaluate cfg.target.params inp.base = .ok ev ∧
    summary.history = baselineEntry cfg inp.base ev r.head ::
      (runTurns cfg inp r).filterMap (Turn.entry cfg)
  numbers : (summary.history.map Entry.attempt).Pairwise (· < ·)
  best : summary.best = (summary.history.filterMap Entry.score).min?
  columns : ∀ entry ∈ summary.history, ∀ n ∈ entry.score,
    entry.InColumn cfg.target.objective n
  commits : ∀ t ∈ runTurns cfg inp r, ∀ entry ∈ t.entry cfg, ∀ c ∈ entry.commit,
    c.tree.get? cfg.target.rtl = t.file cfg ∧ c.history <:+ tip.history
  stops : cfg.mode = .implement → ∀ entry ∈ summary.history.dropLast, entry.score = none

end AgentLoop
