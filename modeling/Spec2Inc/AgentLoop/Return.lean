import Spec2Inc.AgentLoop.Invariant

/-!
# The way back

What `main` does after the attempts: the `finally` block commits what is left
in the working tree, the branch tip is put on the best design, and the branch
`main` started on is checked out. Only a run that returns from all of this does
the last step. `RunReturns` says which runs these are, in terms of what `main`
is given; the restoring checkout is refused when the module file is new on the
run branch and no attempt has made a commit the best one.
-/

open Python Incumbent

namespace AgentLoop

variable {cfg : Config} {origin : String} {base : Commit} {r : Repo} {s : LoopState}

/-! ## The `finally` block -/

theorem cleanup_ends (h : OnBranch cfg origin base s.repo) (hne : origin ≠ cfg.branch)
    (stopTool : Except Exception Unit) :
    Ends (fun s' => OnBranch cfg origin base s'.repo) (s.tool = true → stopTool = .ok ())
      (fun _ s' => s'.best = s.best ∧ s'.bestCommit = s.bestCommit ∧
        s'.repo.work.get? cfg.target.rtl = s.repo.work.get? cfg.target.rtl ∧
        s'.repo.head.tree.get? cfg.target.rtl = s.repo.work.get? cfg.target.rtl)
      (cleanup cfg stopTool s) := by
  have hstop : (if s.tool then stopTool else .ok ()) = .ok () ↔
      (s.tool = true → stopTool = .ok ()) := by
    cases s.tool <;> simp
  cases hstopped : (if s.tool then stopTool else .ok ()) with
  | error e =>
      simp only [cleanup, hstopped]
      refine .error h fun hstops => ?_
      cases hstopped.symm.trans (hstop.mpr hstops)
  | ok _ =>
      have hstops := hstop.mp hstopped
      cases hdirty : s.repo.statusAt cfg.target.rtl with
      | false =>
          have heq := h.confined.statusAt_eq_false_iff.mp hdirty rfl
          simp only [cleanup, hstopped, hdirty]
          exact .ok h hstops ⟨rfl, rfl, rfl, heq.symm⟩
      | true =>
          obtain ⟨r', hcommit, hon, hwork, hhead⟩ := h.gitCommitFile hne hdirty
            [s!"agent({cfg.target.name}): uncommitted edit at exit"]
          simp only [cleanup, hstopped, hdirty, hcommit]
          exact .ok hon hstops ⟨rfl, rfl, hwork, hhead⟩

/-! ## The restoring checkout -/

/-- The best design is put at the branch tip when the commit recorded for it
has the module file. -/
theorem restore_ends (h : OnBranch cfg origin base s.repo) (hne : origin ≠ cfg.branch)
    (hclean : s.repo.work.get? cfg.target.rtl = s.repo.head.tree.get? cfg.target.rtl)
    (hpresent : (s.repo.work.get? cfg.target.rtl).isSome = true) :
    Ends (fun s' => OnBranch cfg origin base s'.repo)
      ((s.bestCommit.tree.get? cfg.target.rtl).isSome = true)
      (fun _ s' => s'.best = s.best ∧ s'.repo.status = false ∧
        s'.repo.head.tree.get? cfg.target.rtl = s.bestCommit.tree.get? cfg.target.rtl)
      (restore cfg s) := by
  by_cases hhead : s.bestCommit = s.repo.head
  · simp only [restore, if_pos hhead]
    refine .ok h ?_ ⟨rfl, h.confined.status_eq_false_iff.mpr hclean, by rw [hhead]⟩
    rw [hhead, ← hclean, hpresent]
  · cases hkept : s.bestCommit.tree.get? cfg.target.rtl with
    | none =>
        have hrefused : s.repo.checkoutPath s.bestCommit cfg.target.rtl =
            .error (.pathspec cfg.target.rtl) := by
          rw [Git.Repo.checkoutPath, hkept]
        simp only [restore, if_neg hhead, hrefused]
        exact .error h (by simp)
    | some content =>
        obtain ⟨r', hcheckout, hhead', hbranch, hrefs, hstaged⟩ := h.confined.checkoutPath hkept
        cases hstatus : r'.status with
        | false =>
            have hself := hstaged.status_eq_false_iff.mp hstatus
            simp only [restore, if_neg hhead, hcheckout, git, Except.mapError, hstatus]
            exact .ok ⟨hstaged.confined hself, hbranch.trans h.branch, hrefs ▸ h.origin⟩
              (by simp) ⟨rfl, hstatus, hself⟩
        | true =>
            have hchanged : r'.head.tree.get? cfg.target.rtl ≠ some content := by
              intro hself
              cases hstatus.symm.trans (hstaged.status_eq_false_iff.mpr hself)
            obtain ⟨r'', hcommit, hconfined, hcommitted⟩ := hstaged.commit hchanged
              [s!"agent({cfg.target.name}): restore best design from {cfg.short s.bestCommit}"]
            have hon' : OnBranch cfg origin base r'' :=
              ⟨hconfined, hcommitted.branch.trans (hbranch.trans h.branch), by
                rw [hcommitted.refs origin (by rwa [hbranch, h.branch]), hrefs, h.origin]⟩
            simp only [restore, if_neg hhead, hcheckout, git, Except.mapError, hstatus,
              gitCommit_eq_ok_iff.mpr hcommit]
            refine .ok hon' (by simp) ⟨rfl, ?_, hcommitted.head⟩
            rw [hconfined.status_eq_false_iff, hcommitted.work, hcommitted.head]

/-! ## Which runs come back -/

/-- The run returns from all its parts: the `try` block, stopping the tool, and
the restoring checkout. For the last, the module file is in the starting commit,
or some attempt measured a usable design better than all before it in another
file than the one measured last. -/
structure RunReturns (cfg : Config) (inp : RunInput) (r : Repo) : Prop where
  body : BodyReturns cfg inp r
  stopTool : inp.stopTool = .ok ()
  restorable : cfg.target.rtl ∈ r.head.tree ∨
    ∃ before m, before ++ [m] <+: runMeasurements cfg inp r ∧ Fresh (startFile cfg r) before m

theorem isSome_content_of_mem_measurements {file : Option String}
    (h : file.isSome = true) {inputs : List AttemptInput} {m : Measured}
    (hm : m ∈ measurements cfg file inputs) : m.content.isSome = true := by
  induction inputs generalizing file with
  | nil => simp [measurements] at hm
  | cons i rest ih =>
      have hedited := isSome_writeAllRtl cfg.target.name i.writes h
      rw [measurements] at hm
      split at hm
      · exact ih hedited hm
      · exact ih hedited hm
      · split at hm
        · cases hm
        · rcases List.mem_cons.mp hm with rfl | hm
          · exact hedited
          · split at hm
            · cases hm
            · exact ih hedited hm

/-- A commit with the module file is recorded as the best exactly when the
starting commit has the file or a fresh measurement was committed. -/
theorem isSome_kept_iff {inp : RunInput} (hfile : (baselineFile cfg r).isSome = true) :
    (ledger (startFile cfg r) (runMeasurements cfg inp r)).kept.isSome = true ↔
      cfg.target.rtl ∈ r.head.tree ∨ ∃ before m,
        before ++ [m] <+: runMeasurements cfg inp r ∧ Fresh (startFile cfg r) before m := by
  have hcontent : ∀ before m, before ++ [m] <+: runMeasurements cfg inp r →
      m.content.isSome = true := by
    intro before m hsplit
    rcases List.mem_cons.mp (hsplit.subset (by simp : m ∈ before ++ [m])) with rfl | hm
    · exact hfile
    · exact isSome_content_of_mem_measurements hfile hm
  have hstart : cfg.target.rtl ∈ r.head.tree ↔ (startFile cfg r).isSome = true := by
    rw [Option.isSome_iff_exists]
    exact Dict.mem_iff_exists_get? _ _
  rw [hstart]
  have hmark := isMark_iff.mpr
    (rfl : (ledger (startFile cfg r) (runMeasurements cfg inp r)).kept = _)
  rcases hmark with ⟨before, m, hfresh, hkept, -⟩ | ⟨hkept, hnone⟩
  · rw [← hkept]
    exact ⟨fun _ => Or.inr ⟨before, m, hfresh⟩, fun _ => hcontent before m hfresh.1⟩
  · rw [hkept]
    constructor
    · exact Or.inl
    · rintro (hsome | ⟨before, m, hfresh⟩)
      · exact hsome
      · exact absurd hfresh (hnone before m)

/-! ## The run -/

/-- What a run that comes back leaves: the branch it started on is checked out,
and the tip of the run branch has the file kept as the best. -/
structure Returned (cfg : Config) (inp : RunInput) (r : Repo) (origin : String)
    (out : Outcome) : Prop where
  branch : out.repo.branch = origin
  tip : ∃ tip, out.repo.refs.get? cfg.branch = some tip ∧
    (∀ path, path ≠ cfg.target.rtl → tip.tree.get? path = r.head.tree.get? path) ∧
    tip.tree.get? cfg.target.rtl =
      (ledger (startFile cfg r) (runMeasurements cfg inp r)).kept
  summary : ∃ summary, out.summary = some summary ∧
    summary.best = (ledger (startFile cfg r) (runMeasurements cfg inp r)).best

theorem runOnBranch_spec (h : OnBranch cfg origin r.head r) (hne : origin ≠ cfg.branch)
    (hclean : r.work.get? cfg.target.rtl = startFile cfg r) (inp : RunInput) :
    RunReturns cfg inp r ∧ Returned cfg inp r origin (runOnBranch cfg inp origin r) ∨
      ¬ RunReturns cfg inp r ∧ (runOnBranch cfg inp origin r).repo.branch = cfg.branch ∧
        (runOnBranch cfg inp origin r).summary = none := by
  have hbody := body_ends h hne hclean inp
  rcases hran : body cfg inp ⟨r, false, [], [], none, r.head, ""⟩ with ⟨s₁, ran⟩
  rw [initialState, hran] at hbody
  have hcleanup := cleanup_ends hbody.always hne inp.stopTool
  rcases hcleaned : cleanup cfg inp.stopTool s₁ with ⟨s₂, cleaned⟩
  rw [hcleaned] at hcleanup
  have hon₂ := hcleanup.always
  simp only [runOnBranch, hran, hcleaned]
  cases hboth : (do cleaned; ran) with
  | error e =>
      refine Or.inr ⟨fun hreturns => ?_, hon₂.branch, rfl⟩
      obtain ⟨_, hran⟩ := hbody.exists_ok hreturns.body
      obtain ⟨_, hcleaned⟩ := hcleanup.exists_ok fun _ => hreturns.stopTool
      cases hboth.symm.trans (seq_eq_ok_iff.mpr ⟨hcleaned, hran⟩)
  | ok _ =>
      obtain ⟨rfl, rfl⟩ := seq_eq_ok_iff.mp hboth
      obtain ⟨-, hreturns, htool, file, htracks⟩ := hbody.of_ok
      obtain ⟨-, hstop, hbest, hbestCommit, hwork, hhead⟩ := hcleanup.of_ok
      have hpresent : (s₂.repo.work.get? cfg.target.rtl).isSome = true := by
        rw [hwork, htracks.work, htracks.present]
      have hkept : s₂.bestCommit.tree.get? cfg.target.rtl =
          (ledger (startFile cfg r) (runMeasurements cfg inp r)).kept := by
        rw [hbestCommit, htracks.follows.kept]
      have hrestore := restore_ends hon₂ hne (hwork.trans hhead.symm) hpresent
      rw [hkept, isSome_kept_iff hreturns.file] at hrestore
      rcases hrestored : restore cfg s₂ with ⟨s₃, e | _⟩
      · obtain ⟨hon₃, hnot⟩ := (hrestored ▸ hrestore).of_error
        exact Or.inr ⟨fun hrun => hnot hrun.restorable, hon₃.branch, rfl⟩
      · obtain ⟨hon₃, hrestorable, hbest₃, hstatus, htip⟩ := (hrestored ▸ hrestore).of_ok
        obtain ⟨r', hcheckout, hbranch, hrefs⟩ := Git.Repo.exists_checkout_eq_ok hon₃.origin
          (Git.Repo.status_eq_false_iff.mp hstatus)
        simp only [hcheckout, git, Except.mapError]
        refine Or.inl ⟨⟨hreturns, hstop htool, hrestorable⟩, hbranch, ?_, _, rfl, ?_⟩
        · refine ⟨s₃.repo.head, ?_, hon₃.confined.head, htip⟩
          rw [hrefs, ← hon₃.branch, s₃.repo.head_eq]
        · rw [← htracks.follows.best, ← hbest]
          exact hbest₃

/-- What returns and what is left depends on the starting commit and the
working tree, not on the branches. -/
theorem RunReturns.of_eq {r' : Repo} {inp : RunInput} (hwork : r'.work = r.work)
    (hhead : r'.head = r.head) (h : RunReturns cfg inp r) : RunReturns cfg inp r' := by
  have hfile : baselineFile cfg r' = baselineFile cfg r := by
    rw [baselineFile, baselineFile, hwork]
  have hbase : BaselineReturns cfg inp.base r' ↔ BaselineReturns cfg inp.base r := by
    rw [BaselineReturns, BaselineReturns, hfile]
  obtain ⟨hbody, hstop, hrestorable⟩ := h
  refine ⟨⟨hbase.mpr hbody.baseline, hbody.llm, hbody.tool, hfile ▸ hbody.file,
    hbody.briefing, hbody.attempts⟩, hstop, ?_⟩
  rw [hhead, runMeasurements, hfile, startFile, hhead]
  exact hrestorable

theorem Returned.of_eq {r' : Repo} {inp : RunInput} {out : Outcome}
    (hwork : r'.work = r.work) (hhead : r'.head = r.head)
    (h : Returned cfg inp r origin out) : Returned cfg inp r' origin out := by
  have hledger : ledger (startFile cfg r') (runMeasurements cfg inp r') =
      ledger (startFile cfg r) (runMeasurements cfg inp r) := by
    rw [startFile, startFile, runMeasurements, runMeasurements, baselineFile, baselineFile,
      hwork, hhead]
  refine ⟨h.branch, ?_, ?_⟩
  · rw [hledger, hhead]
    exact h.tip
  · rw [hledger]
    exact h.summary

theorem branch_ne (hnew : cfg.branch ∉ r.refs) : r.branch ≠ cfg.branch := by
  intro heq
  exact hnew (heq ▸ (Dict.mem_iff_exists_get? _ _).mpr ⟨_, r.head_eq⟩)

/-- On the new run branch nothing differs from the starting commit. -/
theorem onBranch_of_checkoutNew {r' : Repo} (hclean : r.status = false)
    (h : r.checkoutNew cfg.branch = .ok r') :
    r.branch ≠ cfg.branch ∧ OnBranch cfg r.branch r'.head r' ∧
      r'.work.get? cfg.target.rtl = startFile cfg r' ∧ r'.head = r.head ∧ r'.work = r.work := by
  have hnew : cfg.branch ∉ r.refs := by
    intro hmem
    rw [Git.Repo.checkoutNew, if_pos hmem] at h
    cases h
  have hne := branch_ne hnew
  obtain ⟨r'', hcheckout, hbranch, hrefs, hhead, hwork, hstatus⟩ :=
    Git.Repo.exists_checkoutNew_eq_ok hnew
  obtain rfl := Except.ok.inj (hcheckout.symm.trans h)
  have hconfined := Git.Repo.Confined.of_clean (hstatus.trans hclean) cfg.target.rtl
  exact ⟨hne, ⟨hconfined, hbranch, by rw [hrefs _ hne, r.head_eq, hhead]⟩,
    hconfined.status_eq_false_iff.mp (hstatus.trans hclean), hhead, hwork⟩

/-- `main` from a clean tree, with a branch name that is not taken. -/
theorem main_spec (hproject : cfg.project ≠ "") (hclean : r.status = false)
    (hnew : cfg.branch ∉ r.refs) (inp : RunInput) :
    RunReturns cfg inp r ∧ Returned cfg inp r r.branch (main cfg inp r) ∨
      ¬ RunReturns cfg inp r ∧ (main cfg inp r).repo.branch = cfg.branch ∧
        (main cfg inp r).summary = none := by
  obtain ⟨r', hcheckout, -⟩ := Git.Repo.exists_checkoutNew_eq_ok hnew
  obtain ⟨hne, hon, hfile, hhead, hwork⟩ := onBranch_of_checkoutNew hclean hcheckout
  have hmain : main cfg inp r = runOnBranch cfg inp r.branch r' := by
    simp only [main, if_neg hproject, hclean, hcheckout, git, Except.mapError]
    rfl
  rw [hmain]
  rcases runOnBranch_spec hon hne hfile inp with ⟨hreturns, hreturned⟩ | ⟨hnot, hleft⟩
  · exact Or.inl ⟨hreturns.of_eq hwork.symm hhead.symm, hreturned.of_eq hwork.symm hhead.symm⟩
  · exact Or.inr ⟨fun hreturns => hnot (hreturns.of_eq hwork hhead), hleft⟩

/-- The branch `main` started on is checked out again exactly when the run
returns. -/
theorem main_returns_to_branch_iff (cfg : Config) (inp : RunInput) (r : Repo)
    (hproject : cfg.project ≠ "") (hclean : r.status = false) (hnew : cfg.branch ∉ r.refs) :
    (main cfg inp r).repo.branch = r.branch ↔ RunReturns cfg inp r := by
  rcases main_spec hproject hclean hnew inp with ⟨hreturns, hreturned⟩ | ⟨hnot, hbranch, -⟩
  · exact iff_of_true hreturned.branch hreturns
  · exact iff_of_false (fun heq => branch_ne hnew (heq.symm.trans hbranch)) hnot

/-! ## Two runs -/

/-- A repository with one commit, which has the engine. -/
def engineRepo (file : String) : Repo :=
  let tree : Git.Tree String String := ⟨[(reductionEngine.rtl, file)], List.nodup_singleton _⟩
  let first : Commit := ⟨⟨tree, ["first"]⟩, []⟩
  { refs := ⟨[("main", first)], List.nodup_singleton _⟩
    branch := "main"
    head := first
    head_eq := rfl
    index := tree
    work := tree }

def engineConfig : Config where
  target := reductionEngine
  modeArg := none
  model := "gemini-3.1-pro-preview"
  project := "project"
  branch := "agent/reduction_engine"
  trailer := ""
  root := "/repo"
  short _ := ""
  porcelain _ := ""

/-- An evaluation whose tests pass, with the depth the synthesis measures. -/
def passing (depth : ℕ) : Probe where
  tests := .ok ⟨true, 9, 0, ""⟩
  synth := .ok ⟨true, 100, depth, ""⟩

/-- An evaluation in which no test ran. -/
def failing : Probe where
  tests := .ok ⟨false, 0, 0, ""⟩
  synth := .error (.runtimeError "")

/-- A run in which nothing goes wrong outside the evaluations. -/
def runWith (base : Probe) (attempts : List AttemptInput) : RunInput where
  base := base
  llm := .ok ()
  tool := .ok ()
  briefing := .ok ""
  attempts := attempts
  stopTool := .ok ()

/-- A repository with one commit, which has the skeleton of the crossbar and no
module file. -/
def skeletonRepo : Repo :=
  let tree : Git.Tree String String :=
    ⟨[("examples/agent_loop/skeletons/req_xbar.sv", "module req_xbar; endmodule")],
      List.nodup_singleton _⟩
  let first : Commit := ⟨⟨tree, ["first"]⟩, []⟩
  { refs := ⟨[("main", first)], List.nodup_singleton _⟩
    branch := "main"
    head := first
    head_eq := rfl
    index := tree
    work := tree }

def xbarConfig : Config := { engineConfig with target := reqXbar, branch := "agent/req_xbar" }

/-- The baseline fails, as does the first attempt; the second one passes. -/
def implementingRun : RunInput :=
  runWith failing
    [⟨["module req_xbar; // draft endmodule"], .replied true, failing, fun _ => failing⟩,
      ⟨["module req_xbar; // final endmodule"], .replied true, passing 12, fun _ => passing 12⟩]

/-- The run makes three measurements, and the module file is new on its branch. -/
theorem main_returns_to_branch_iff_implementing :
    skeletonRepo.head.tree.get? reqXbar.rtl = none ∧
      (runMeasurements xbarConfig implementingRun skeletonRepo).map Incumbent.Measurement.score =
        [none, none, some 0] ∧
      (main xbarConfig implementingRun skeletonRepo).repo.branch = "main" := by
  have hmeasured : runMeasurements xbarConfig implementingRun skeletonRepo =
      [⟨some "module req_xbar; endmodule", none⟩,
        ⟨some "module req_xbar; // draft endmodule", none⟩,
        ⟨some "module req_xbar; // final endmodule", some 0⟩] := by
    decide +kernel
  have hattempts : AttemptsReturn xbarConfig implementingRun.attempts :=
    ⟨_, rfl, Or.inr ⟨_, rfl, Or.inl ⟨rfl, rfl⟩⟩⟩
  refine ⟨by decide +kernel, by rw [hmeasured]; rfl,
    (main_returns_to_branch_iff xbarConfig implementingRun skeletonRepo (by decide) (by decide)
      (by decide)).mpr ?_⟩
  exact
    { body :=
        { baseline := ⟨_, rfl, rfl, rfl⟩
          llm := rfl
          tool := rfl
          file := rfl
          briefing := ⟨_, rfl⟩
          attempts := hattempts }
      stopTool := rfl
      restorable := by
        rw [hmeasured]
        refine Or.inr ⟨[⟨some "module req_xbar; endmodule", none⟩,
            ⟨some "module req_xbar; // draft endmodule", none⟩],
          ⟨some "module req_xbar; // final endmodule", some 0⟩, List.prefix_rfl,
          by decide +kernel, 0, rfl, ?_⟩
        simp }

/-- A baseline that is not usable ends the run on the run branch. -/
theorem unusable_baseline_keeps_run_branch :
    engineConfig.project ≠ "" ∧ (engineRepo "").status = false ∧
      engineConfig.branch ∉ (engineRepo "").refs ∧
      (main engineConfig (runWith failing []) (engineRepo "")).repo.branch ≠
        (engineRepo "").branch := by
  decide

end AgentLoop
