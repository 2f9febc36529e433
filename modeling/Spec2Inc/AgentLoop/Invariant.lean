import Spec2Inc.AgentLoop.Loop

/-!
# What every part of a run keeps

`OnBranch` holds of the repository from the creation of the run branch to the
last checkout, whatever is raised: the branch is checked out, only the module
file differs from the starting commit, and the branch `main` started on still
points there. `Follows` ties the variables of `main` to a ledger of the
measurements of the run. Each part of `main` has one lemma that says when it
returns, in terms of the inputs alone, and what it keeps.
-/

open Python Incumbent

namespace AgentLoop

/-! ## Measurements -/

/-- Every evaluation of the primary point: the content of the module file, and
the score when the attempt was complete. -/
abbrev Measured : Type := Measurement (Option String) ℕ

/-- The measurements of the attempts, from the file's content on. -/
def measurements (cfg : Config) : Option String → List AttemptInput → List Measured
  | _, [] => []
  | file, i :: rest =>
      let file' := writeAllRtl cfg.target.name file i.writes
      match i.reply with
      | .raised _ => measurements cfg file' rest
      | .replied false => measurements cfg file' rest
      | .replied true =>
          match judge cfg.target i.probe i.verify with
          | .error _ => []
          | .ok j => ⟨file', j.now cfg.target⟩ ::
              if cfg.mode = .implement && j.complete then [] else measurements cfg file' rest

/-- The content the baseline is measured on. -/
def baselineFile (cfg : Config) (r : Repo) : Option String :=
  match cfg.mode with
  | .implement => r.work.get? (cfg.target.skeleton.getD "")
  | .optimize => r.work.get? cfg.target.rtl

/-- The score of the baseline, which only optimize mode takes. -/
def baselineScore (cfg : Config) (probe : Probe) : Option ℕ :=
  match cfg.mode, evaluate cfg.target.params probe with
  | .optimize, .ok base => score cfg.target base
  | _, _ => none

/-- All measurements of a run. -/
def runMeasurements (cfg : Config) (inp : RunInput) (r : Repo) : List Measured :=
  ⟨baselineFile cfg r, baselineScore cfg inp.base⟩ ::
    measurements cfg (baselineFile cfg r) inp.attempts

/-! ## When the parts return -/

/-- No attempt that is reached raises past its handler. -/
def AttemptsReturn (cfg : Config) : List AttemptInput → Prop
  | [] => True
  | i :: rest =>
      match i.reply with
      | .raised e => e.isException = true ∧ AttemptsReturn cfg rest
      | .replied false => AttemptsReturn cfg rest
      | .replied true =>
          ∃ j, judge cfg.target i.probe i.verify = .ok j ∧
            (cfg.mode = .implement ∧ j.complete = true ∨ AttemptsReturn cfg rest)

/-- The baseline is measured, and usable where it has to be. -/
def BaselineReturns (cfg : Config) (probe : Probe) (r : Repo) : Prop :=
  ∃ base, evaluate cfg.target.params probe = .ok base ∧
    match cfg.mode with
    | .implement => cfg.target.hasSkeleton = true ∧ (baselineFile cfg r).isSome = true
    | .optimize => base.usable = true

/-- The `try` block returns. -/
structure BodyReturns (cfg : Config) (inp : RunInput) (r : Repo) : Prop where
  baseline : BaselineReturns cfg inp.base r
  llm : inp.llm = .ok ()
  tool : inp.tool = .ok ()
  file : (baselineFile cfg r).isSome = true
  briefing : ∃ message, inp.briefing = .ok message
  attempts : AttemptsReturn cfg inp.attempts

/-! ## Invariants -/

structure OnBranch (cfg : Config) (origin : String) (base : Commit) (r : Repo) : Prop where
  confined : r.Confined base.tree cfg.target.rtl
  branch : r.branch = cfg.branch
  origin : r.refs.get? origin = some base

/-- The variables say what the ledger says. -/
structure Follows (cfg : Config) (l : Ledger (Option String) ℕ) (s : LoopState) : Prop where
  best : s.best = l.best
  stored : s.repo.head.tree.get? cfg.target.rtl = l.stored
  kept : s.bestCommit.tree.get? cfg.target.rtl = l.kept

/-- Between two attempts: the module file is in the working tree, and the
variables follow the ledger. -/
structure Tracks (cfg : Config) (origin : String) (base : Commit) (file : Option String)
    (l : Ledger (Option String) ℕ) (s : LoopState) : Prop where
  onBranch : OnBranch cfg origin base s.repo
  work : s.repo.work.get? cfg.target.rtl = file
  present : file.isSome = true
  follows : Follows cfg l s

variable {cfg : Config} {origin : String} {base : Commit} {r : Repo} {s : LoopState}

/-! ## Commits -/

theorem OnBranch.write (h : OnBranch cfg origin base r) (content : String) :
    OnBranch cfg origin base (r.write cfg.target.rtl content) where
  confined := h.confined.write content
  branch := h.branch
  origin := h.origin

theorem OnBranch.of_committed {r' : Repo} (h : OnBranch cfg origin base r)
    (hne : origin ≠ cfg.branch) {content : String}
    (hconfined : r'.Confined base.tree cfg.target.rtl)
    (hcommitted : Git.Repo.Committed cfg.target.rtl content r r') :
    OnBranch cfg origin base r' where
  confined := hconfined
  branch := hcommitted.branch.trans h.branch
  origin := (hcommitted.refs origin (h.branch ▸ hne)).trans h.origin

/-- Committing a changed module file succeeds. -/
theorem OnBranch.gitCommitFile (h : OnBranch cfg origin base r) (hne : origin ≠ cfg.branch)
    (hdirty : r.statusAt cfg.target.rtl = true) (message : List String) :
    ∃ r', AgentLoop.gitCommitFile cfg.target.rtl message r = (r', .ok ()) ∧
      OnBranch cfg origin base r' ∧
      r'.work.get? cfg.target.rtl = r.work.get? cfg.target.rtl ∧
      r'.head.tree.get? cfg.target.rtl = r.work.get? cfg.target.rtl := by
  obtain ⟨r', content, hcommit, hwork, hconfined, hcommitted⟩ :=
    h.confined.commitFile hdirty message
  refine ⟨r', ?_, h.of_committed hne hconfined hcommitted, ?_, ?_⟩
  · exact gitCommitFile_eq_ok_iff.mpr hcommit
  · rw [hcommitted.work, hwork]
  · rw [hcommitted.head, hwork]

/-- `commit` never fails, and afterwards the last commit has the file as it is
in the working tree. -/
theorem OnBranch.commit (h : OnBranch cfg origin base r) (hne : origin ≠ cfg.branch)
    (subject : String) (body : List String) :
    ∃ r' sha, AgentLoop.commit cfg subject body r = (r', .ok sha) ∧
      OnBranch cfg origin base r' ∧
      r'.work.get? cfg.target.rtl = r.work.get? cfg.target.rtl ∧
      r'.head.tree.get? cfg.target.rtl = r.work.get? cfg.target.rtl ∧
      sha = if r.work.get? cfg.target.rtl = r.head.tree.get? cfg.target.rtl then none
        else some r'.head := by
  have hstatus := h.confined.statusAt_eq_false_iff (q := cfg.target.rtl)
  cases hs : r.statusAt cfg.target.rtl with
  | false =>
      have heq := hstatus.mp hs rfl
      exact ⟨r, none, by simp [AgentLoop.commit, hs], h, rfl, heq.symm, by simp [heq]⟩
  | true =>
      have hneq : r.work.get? cfg.target.rtl ≠ r.head.tree.get? cfg.target.rtl := by
        intro heq
        cases hs.symm.trans (hstatus.mpr fun _ => heq)
      obtain ⟨r', hcommit, hon, hwork, hhead⟩ := h.gitCommitFile hne hs
        [subject, "\n".intercalate body, cfg.trailer]
      refine ⟨r', some r'.head, ?_, hon, hwork, hhead, by simp [hneq]⟩
      simp [AgentLoop.commit, hs, hcommit]

/-! ## Writes -/

theorem isSome_writeRtl (moduleName content : String) {file : Option String}
    (h : file.isSome = true) : (writeRtl moduleName content file).1.isSome = true := by
  rw [writeRtl]
  split
  · exact h
  · split
    · exact h
    · rfl

/-- No write removes the file. -/
theorem isSome_writeAllRtl (moduleName : String) (contents : List String)
    {file : Option String} (h : file.isSome = true) :
    (writeAllRtl moduleName file contents).isSome = true := by
  induction contents generalizing file with
  | nil => exact h
  | cons content contents ih => exact ih (isSome_writeRtl moduleName content h)

theorem Tracks.edited {file : Option String} {l : Ledger (Option String) ℕ}
    (h : Tracks cfg origin base file l s) (writes : List String) :
    Tracks cfg origin base (writeAllRtl cfg.target.name file writes) l
      (s.edited cfg writes) := by
  have hpresent := isSome_writeAllRtl cfg.target.name writes h.present
  obtain ⟨content, hcontent⟩ := Option.isSome_iff_exists.mp hpresent
  have hedited : s.edited cfg writes =
      { s with repo := s.repo.write cfg.target.rtl content } := by
    rw [LoopState.edited, h.work, hcontent]
  rw [hedited]
  exact
    { onBranch := h.onBranch.write content
      work := (Dict.get?_set_self _ _ _).trans hcontent.symm
      present := hpresent
      follows := ⟨h.follows.best, h.follows.stored, h.follows.kept⟩ }

/-! ## Attempts -/

/-- Committing, recording and keeping follow the ledger's step. -/
theorem Tracks.conclude (hne : origin ≠ cfg.branch) {file : Option String}
    {l : Ledger (Option String) ℕ} (h : Tracks cfg origin base file l s) (k : ℕ)
    (j : Judgement) :
    ∃ s', AgentLoop.conclude cfg k j s =
        (s', if cfg.mode = .implement && j.complete then Flow.stop else Flow.next) ∧
      Tracks cfg origin base file (l.next ⟨file, j.now cfg.target⟩) s' ∧
      s'.tool = s.tool := by
  rcases hmessage : attemptMessage cfg k j (improves (j.now cfg.target) s.best) with
    ⟨subject, body⟩
  obtain ⟨r', sha, hcommit, hon, hwork, hhead, hsha⟩ := h.onBranch.commit hne subject body
  rw [h.work] at hwork hhead hsha
  rw [h.follows.stored] at hsha
  -- the commit recorded has the file measured, unless nothing changed
  have hkept : (if improves (j.now cfg.target) s.best then sha.getD s.bestCommit
      else s.bestCommit).tree.get? cfg.target.rtl = (l.next ⟨file, j.now cfg.target⟩).kept := by
    rw [Ledger.next, ← h.follows.best, hsha]
    by_cases hchanged : file = l.stored
    · simp [hchanged, h.follows.kept]
    · cases improves (j.now cfg.target) s.best with
      | false => simp [h.follows.kept]
      | true => simp [hchanged, hhead]
  have htracks : ∀ s' : LoopState, s'.repo = r' →
      s'.best = (if improves (j.now cfg.target) s.best then j.now cfg.target else s.best) →
      s'.bestCommit = (if improves (j.now cfg.target) s.best then sha.getD s.bestCommit
        else s.bestCommit) →
      Tracks cfg origin base file (l.next ⟨file, j.now cfg.target⟩) s' := by
    intro s' hrepo hbest hbestCommit
    subst hrepo
    exact
      { onBranch := hon
        work := hwork
        present := h.present
        follows :=
          { best := by rw [hbest, h.follows.best, Ledger.next]
            stored := hhead
            kept := by rw [hbestCommit, hkept] } }
  simp only [AgentLoop.conclude, hmessage, hcommit]
  split
  · exact ⟨_, rfl, htracks _ rfl rfl rfl, rfl⟩
  · exact ⟨_, rfl, htracks _ rfl rfl rfl, rfl⟩

theorem Tracks.agentError {file : Option String} {l : Ledger (Option String) ℕ}
    (h : Tracks cfg origin base file l s) (k : ℕ) (e : Exception) :
    Tracks cfg origin base file l (agentError k e s) :=
  ⟨h.onBranch, h.work, h.present, ⟨h.follows.best, h.follows.stored, h.follows.kept⟩⟩

/-- A write touches the repository only. -/
theorem LoopState.edited_eq (cfg : Config) (s : LoopState) (writes : List String) :
    s.edited cfg writes = { s with repo := (s.edited cfg writes).repo } := by
  rw [LoopState.edited]
  split <;> rfl

/-- The attempt loop returns when every attempt reached does, and has then
followed all its measurements. -/
theorem Tracks.attempts (hne : origin ≠ cfg.branch) {file : Option String}
    {l : Ledger (Option String) ℕ} (h : Tracks cfg origin base file l s) (k : ℕ)
    (inputs : List AttemptInput) :
    Ends (fun s' => OnBranch cfg origin base s'.repo) (AttemptsReturn cfg inputs)
      (fun _ s' => s'.tool = s.tool ∧ ∃ file', Tracks cfg origin base file'
        ((measurements cfg file inputs).foldl Ledger.next l) s')
      (AgentLoop.attempts cfg k inputs s) := by
  induction inputs generalizing k file l s with
  | nil => exact .ok h.onBranch trivial ⟨rfl, file, h⟩
  | cons i rest ih =>
      obtain ⟨writes, reply, probe, verify⟩ := i
      have hedited := h.edited writes
      have htool : (s.edited cfg writes).tool = s.tool := by
        rw [s.edited_eq cfg writes]
      rw [← htool]
      cases reply with
      | raised e =>
          cases he : e.isException with
          | false =>
              simp only [AgentLoop.attempts, attempt, AttemptsReturn, he]
              exact .error hedited.onBranch (by simp)
          | true =>
              simp only [AgentLoop.attempts, attempt, AttemptsReturn, measurements, he,
                if_true, true_and]
              exact ih (hedited.agentError k e) (k + 1)
      | replied success =>
          cases success with
          | false => exact ih hedited (k + 1)
          | true =>
              cases hjudge : judge cfg.target probe verify with
              | error e =>
                  simp only [AgentLoop.attempts, attempt, AttemptsReturn, hjudge]
                  exact .error hedited.onBranch (by simp)
              | ok j =>
                  obtain ⟨s', hconclude, htracks, htool⟩ := hedited.conclude hne k j
                  simp only [AgentLoop.attempts, attempt, AttemptsReturn, measurements, hjudge,
                    hconclude, ← htool]
                  cases hstop : cfg.mode = .implement && j.complete with
                  | true =>
                      have hboth : cfg.mode = .implement ∧ j.complete = true := by
                        simpa using hstop
                      exact .ok htracks.onBranch ⟨j, rfl, Or.inl hboth⟩ ⟨rfl, _, htracks⟩
                  | false =>
                      have hnot : ¬ (cfg.mode = .implement ∧ j.complete = true) := by
                        simpa using hstop
                      refine (ih htracks (k + 1)).congr ?_
                      simp [hnot]

/-! ## Before the attempts -/

/-- The variables at the start of the `try` block. -/
def initialState (r : Repo) : LoopState := ⟨r, false, [], [], none, r.head, ""⟩

/-- The file stored when the run starts. -/
def startFile (cfg : Config) (r : Repo) : Option String := r.head.tree.get? cfg.target.rtl

theorem improves_none (now : Option ℕ) : (if improves now none then now else none) = now := by
  cases now <;> simp [improves]

/-- The skeleton is committed as the module file. -/
theorem seed_ends (h : OnBranch cfg origin base r) (hne : origin ≠ cfg.branch) :
    Ends (fun s' => OnBranch cfg origin base s'.repo)
      (cfg.target.hasSkeleton = true ∧ (r.work.get? (cfg.target.skeleton.getD "")).isSome = true)
      (fun _ s' => s'.best = none ∧ s'.bestCommit = r.head ∧
        s'.repo.work.get? cfg.target.rtl = r.work.get? (cfg.target.skeleton.getD "") ∧
        s'.repo.head.tree.get? cfg.target.rtl = r.work.get? (cfg.target.skeleton.getD ""))
      (seed cfg (initialState r)) := by
  cases hskeleton : cfg.target.hasSkeleton with
  | false =>
      simp only [seed, hskeleton]
      exact .error h (by simp)
  | true =>
      cases hfile : r.work.get? (cfg.target.skeleton.getD "") with
      | none =>
          simp only [seed, hskeleton, initialState, hfile]
          exact .error h (by simp)
      | some content =>
          obtain ⟨r', sha, hcommit, hon, hwork, hhead, -⟩ := (h.write content).commit hne
            s!"agent({cfg.target.name}): start from skeleton"
            ["mode: implement", s!"model: {cfg.model}"]
          have hself : (r.write cfg.target.rtl content).work.get? cfg.target.rtl = some content :=
            Dict.get?_set_self _ _ _
          rw [hself] at hwork hhead
          simp only [seed, hskeleton, initialState, hfile, hcommit]
          exact .ok hon (by simp) ⟨rfl, rfl, hwork, hhead⟩

/-- The baseline returns when it is measured and good enough to start from, and
is then the first measurement. -/
theorem baseline_ends (h : OnBranch cfg origin base r) (hne : origin ≠ cfg.branch)
    (hclean : r.work.get? cfg.target.rtl = startFile cfg r) (probe : Probe) :
    Ends (fun s' => OnBranch cfg origin base s'.repo) (BaselineReturns cfg probe r)
      (fun _ s' => s'.repo.work.get? cfg.target.rtl = baselineFile cfg r ∧
        Follows cfg (ledger (startFile cfg r) [⟨baselineFile cfg r, baselineScore cfg probe⟩]) s')
      (baseline cfg probe (initialState r)) := by
  cases hmode : cfg.mode with
  | implement =>
      have hfile : baselineFile cfg r = r.work.get? (cfg.target.skeleton.getD "") := by
        rw [baselineFile, hmode]
      have hseed := seed_ends h hne
      rw [← hfile] at hseed
      rcases hseeded : seed cfg (initialState r) with ⟨s', e | _⟩
      · obtain ⟨hon, hnot⟩ := (hseeded ▸ hseed).of_error
        simp only [baseline, hmode, hseeded]
        refine .error hon fun hreturns => hnot ?_
        obtain ⟨_, _, hboth⟩ := hreturns
        simpa [hmode] using hboth
      · obtain ⟨hon, hboth, hbest, hbestCommit, hwork, hhead⟩ := (hseeded ▸ hseed).of_ok
        simp only [baseline, hmode, hseeded]
        cases hbase : evaluate cfg.target.params probe with
        | error e => exact .error hon (by simp [BaselineReturns, hbase])
        | ok ev =>
            refine .ok hon ⟨ev, hbase, by simpa [hmode] using hboth⟩
              ⟨hwork, ?_, hhead, ?_⟩
            · simp [ledger, Ledger.next, baselineScore, hmode, hbest]
            · simp [ledger, Ledger.next, improves, baselineScore, hmode, hbestCommit, startFile]
  | optimize =>
      have hfile : baselineFile cfg r = r.work.get? cfg.target.rtl := by
        rw [baselineFile, hmode]
      cases hbase : evaluate cfg.target.params probe with
      | error e =>
          simp only [baseline, hmode, hbase]
          refine .error h ?_
          simp [BaselineReturns, hbase]
      | ok ev =>
          cases husable : ev.usable with
          | false =>
              simp only [baseline, hmode, hbase, husable]
              refine .error h ?_
              simp [BaselineReturns, hbase, hmode, husable]
          | true =>
              simp only [baseline, hmode, hbase, husable]
              refine .ok h ⟨ev, hbase, by simp [hmode, husable]⟩ ⟨hfile.symm, ?_⟩
              rw [hfile, hclean]
              refine ⟨?_, rfl, ?_⟩
              · simp [ledger, Ledger.next, improves_none, baselineScore, hmode, hbase]
              · simp [ledger, Ledger.next, initialState, startFile]

/-! ## The `try` block -/

theorem openTool_eq_ok_iff {tool : Except Exception Unit} :
    openTool cfg tool r = .ok () ↔
      tool = .ok () ∧ (r.work.get? cfg.target.rtl).isSome = true := by
  rw [openTool, seq_eq_ok_iff, Option.isSome_iff_exists, ← Dict.mem_iff_exists_get?]
  by_cases hmem : cfg.target.rtl ∈ r.work
  · simp [hmem]
  · simp [hmem]

/-- The `try` block up to the attempts. -/
def opening (cfg : Config) (inp : RunInput) (s : LoopState) :
    LoopState × Except Exception Unit :=
  match baseline cfg inp.base s with
  | (s', .error e) => (s', .error e)
  | (s', .ok base) =>
      let s' := recordBaseline base s'
      match (do inp.llm; openTool cfg inp.tool s'.repo) with
      | .error e => (s', .error e)
      | .ok () =>
          let s' := { s' with tool := true }
          match inp.briefing with
          | .error e => (s', .error e)
          | .ok message => ({ s' with message := message }, .ok ())

theorem body_eq (cfg : Config) (inp : RunInput) (s : LoopState) :
    body cfg inp s =
      match opening cfg inp s with
      | (s', .error e) => (s', .error e)
      | (s', .ok ()) => attempts cfg 1 inp.attempts s' := by
  rw [body, opening]
  rcases baseline cfg inp.base s with ⟨s', e | ev⟩
  · rfl
  · cases hopened : (do inp.llm; openTool cfg inp.tool (recordBaseline ev s').repo) with
    | error e => simp only [hopened]
    | ok _ =>
        cases inp.briefing with
        | error e => simp only [hopened]
        | ok message => simp only [hopened]

/-- After the baseline, the part up to the attempts leaves the repository and
the results. -/
theorem opening_eq (cfg : Config) (inp : RunInput) (s : LoopState) :
    (opening cfg inp s).1 =
      { (baseline cfg inp.base s).1 with
        history := (opening cfg inp s).1.history
        tool := (opening cfg inp s).1.tool
        message := (opening cfg inp s).1.message } := by
  rw [opening]
  rcases baseline cfg inp.base s with ⟨s', e | ev⟩
  · rfl
  · dsimp only
    split
    · rfl
    · split
      · rfl
      · rfl

/-- The variables the attempt loop starts from follow the first measurement. -/
theorem opening_ends (h : OnBranch cfg origin base r) (hne : origin ≠ cfg.branch)
    (hclean : r.work.get? cfg.target.rtl = startFile cfg r) (inp : RunInput) :
    Ends (fun s' => OnBranch cfg origin base s'.repo)
      (BaselineReturns cfg inp.base r ∧ inp.llm = .ok () ∧ inp.tool = .ok () ∧
        (baselineFile cfg r).isSome = true ∧ ∃ message, inp.briefing = .ok message)
      (fun _ s' => s'.tool = true ∧ Tracks cfg origin base (baselineFile cfg r)
        (ledger (startFile cfg r) [⟨baselineFile cfg r, baselineScore cfg inp.base⟩]) s')
      (opening cfg inp (initialState r)) := by
  have hbaseline := baseline_ends h hne hclean inp.base
  rcases hbased : baseline cfg inp.base (initialState r) with ⟨s₁, e | ev⟩
  · obtain ⟨hon, hnot⟩ := (hbased ▸ hbaseline).of_error
    simp only [opening, hbased]
    exact .error hon fun hreturns => hnot hreturns.1
  · obtain ⟨hon, hbase, hwork, hfollows⟩ := (hbased ▸ hbaseline).of_ok
    have hfile : (recordBaseline ev s₁).repo.work.get? cfg.target.rtl = baselineFile cfg r := hwork
    simp only [opening, hbased]
    cases hopened : (do inp.llm; openTool cfg inp.tool (recordBaseline ev s₁).repo) with
    | error e =>
        refine .error hon fun ⟨_, hllm, htool, hpresent, _⟩ => ?_
        rw [seq_eq_ok_iff.mpr ⟨hllm, openTool_eq_ok_iff.mpr ⟨htool, hfile ▸ hpresent⟩⟩] at hopened
        cases hopened
    | ok _ =>
        obtain ⟨hllm, hopen⟩ := seq_eq_ok_iff.mp hopened
        obtain ⟨htool, hpresent⟩ := openTool_eq_ok_iff.mp hopen
        rw [hfile] at hpresent
        cases hbriefing : inp.briefing with
        | error e => exact .error hon (by simp)
        | ok message =>
            exact .ok hon ⟨hbase, hllm, htool, hpresent, message, rfl⟩
              ⟨rfl, hon, hwork, hpresent, ⟨hfollows.best, hfollows.stored, hfollows.kept⟩⟩

theorem body_ends (h : OnBranch cfg origin base r) (hne : origin ≠ cfg.branch)
    (hclean : r.work.get? cfg.target.rtl = startFile cfg r) (inp : RunInput) :
    Ends (fun s' => OnBranch cfg origin base s'.repo) (BodyReturns cfg inp r)
      (fun _ s' => s'.tool = true ∧ ∃ file, Tracks cfg origin base file
        (ledger (startFile cfg r) (runMeasurements cfg inp r)) s')
      (body cfg inp (initialState r)) := by
  have hopening := opening_ends h hne hclean inp
  rw [body_eq]
  rcases hopened : opening cfg inp (initialState r) with ⟨s₁, e | _⟩
  · obtain ⟨hon, hnot⟩ := (hopened ▸ hopening).of_error
    exact .error hon fun hreturns => hnot ⟨hreturns.baseline, hreturns.llm, hreturns.tool,
      hreturns.file, hreturns.briefing⟩
  · obtain ⟨-, ⟨hbase, hllm, htool, hpresent, hbriefing⟩, htrue, htracks⟩ :=
      (hopened ▸ hopening).of_ok
    rw [← htrue]
    refine (htracks.attempts hne 1 inp.attempts).congr ?_
    exact ⟨fun hattempts => ⟨hbase, hllm, htool, hpresent, hbriefing, hattempts⟩,
      fun hreturns => hreturns.attempts⟩

end AgentLoop
