import Spec2Inc.AgentLoop.Turns
import Spec2Inc.Git.Scope

/-!
# What the agent can reach

The agent has one tool, which replaces one file. Whatever it writes, whatever is
raised and wherever the run ends, all that differs afterwards is a new branch
and, in its commits, the module file (`main_stays_in_scope`). The file has at any
time the content the run started with or one that the guard of the tool lets
through, so nothing else is evaluated. A run that returns leaves the branch it
started on, the index and the working tree as they were.
-/

open Python

namespace AgentLoop

variable {cfg : Config} {inp : RunInput} {start r : Repo} {s : LoopState}

/-! ## Contents -/

/-- A content that `write_rtl` does not reject. -/
structure Guarded (moduleName content : String) : Prop where
  header : contains content s!"module {moduleName}" = true
  footer : contains content "endmodule" = true

/-- What the module file can hold: what it held at the start, the skeleton of an
implement-from-spec run, or what the agent got past the guard. -/
inductive Allowed (cfg : Config) (start : Repo) : Option String → Prop
  | found : Allowed cfg start (start.work.get? cfg.target.rtl)
  | skeleton (h : cfg.mode = .implement) :
      Allowed cfg start (start.work.get? (cfg.target.skeleton.getD ""))
  | written {content : String} (h : Guarded cfg.target.name content) :
      Allowed cfg start (some content)

/-- A write leaves the file or replaces it by what the guard lets through. -/
theorem writeRtl_cases (moduleName content : String) (file : Option String) :
    (writeRtl moduleName content file).1 = file ∨
      Guarded moduleName content ∧ (writeRtl moduleName content file).1 = some content := by
  rw [writeRtl]
  cases hheader : contains content s!"module {moduleName}" with
  | false => exact Or.inl rfl
  | true =>
      cases hfooter : contains content "endmodule" with
      | false => exact Or.inl rfl
      | true => exact Or.inr ⟨⟨hheader, hfooter⟩, rfl⟩

theorem Allowed.writeAllRtl {file : Option String} (h : Allowed cfg start file)
    (contents : List String) :
    Allowed cfg start (writeAllRtl cfg.target.name file contents) := by
  induction contents generalizing file with
  | nil => exact h
  | cons content contents ih =>
      have hwritten : Allowed cfg start (writeRtl cfg.target.name content file).1 := by
        rcases writeRtl_cases cfg.target.name content file with heq | ⟨hguarded, heq⟩
        · rwa [heq]
        · rw [heq]
          exact .written hguarded
      exact ih hwritten

/-! ## The repository along a run -/

/-- The repository is within the scope of the run. -/
abbrev InScope (cfg : Config) (start r : Repo) : Prop :=
  Git.Repo.Within start cfg.branch cfg.target.rtl (Allowed cfg start) r

/-- So are the variables of `main`: the best commit has an allowed file, too. -/
structure Scoped (cfg : Config) (start : Repo) (s : LoopState) : Prop where
  repo : InScope cfg start s.repo
  best : Allowed cfg start (s.bestCommit.tree.get? cfg.target.rtl)

theorem inScope_gitCommitFile (h : InScope cfg start r) (message : List String) :
    InScope cfg start (gitCommitFile cfg.target.rtl message r).1 := by
  rw [(gitCommitFile_spec _ message r).1]
  exact h.commitFile message

/-- `commit` keeps the scope, and the commit it returns is the new one. -/
theorem inScope_commit (h : InScope cfg start r) (subject : String) (body : List String) :
    InScope cfg start (commit cfg subject body r).1 ∧
      ∀ sha, (commit cfg subject body r).2 = .ok (some sha) →
        sha = (commit cfg subject body r).1.head := by
  have hcommitted := inScope_gitCommitFile h [subject, "\n".intercalate body, cfg.trailer]
  rw [commit]
  split
  · exact ⟨h, fun sha hsha => by cases hsha⟩
  · split
    · rename_i r' e heq
      rw [heq] at hcommitted
      exact ⟨hcommitted, fun sha hsha => by cases hsha⟩
    · rename_i r' heq
      rw [heq] at hcommitted
      exact ⟨hcommitted, fun sha hsha => (Option.some.inj (Except.ok.inj hsha)).symm⟩

theorem Scoped.edited (h : Scoped cfg start s) (writes : List String) :
    Scoped cfg start (s.edited cfg writes) := by
  have hallowed := h.repo.work.self.writeAllRtl writes
  rw [LoopState.edited]
  split
  · rename_i content hcontent
    exact ⟨h.repo.write (hcontent ▸ hallowed), h.best⟩
  · exact h

/-! ## One attempt -/

theorem Scoped.conclude (h : Scoped cfg start s) (k : ℕ) (j : Judgement) :
    Scoped cfg start (conclude cfg k j s).1 := by
  rcases hmessage : attemptMessage cfg k j (Incumbent.improves (j.now cfg.target) s.best) with
    ⟨subject, body⟩
  obtain ⟨hrepo, hhead⟩ := inScope_commit h.repo subject body
  rcases hcommit : commit cfg subject body s.repo with ⟨repo, e | sha⟩
  · rw [hcommit] at hrepo
    simp only [AgentLoop.conclude, hmessage, hcommit]
    exact ⟨hrepo, h.best⟩
  · rw [hcommit] at hrepo hhead
    have hbest : Allowed cfg start ((if Incumbent.improves (j.now cfg.target) s.best then
        sha.getD s.bestCommit else s.bestCommit).tree.get? cfg.target.rtl) := by
      split
      · cases sha with
        | none => exact h.best
        | some c =>
            have hc : c = repo.head := hhead c rfl
            rw [Option.getD_some, hc]
            exact hrepo.head.self
      · exact h.best
    simp only [AgentLoop.conclude, hmessage, hcommit]
    split
    · exact ⟨hrepo, hbest⟩
    · exact ⟨hrepo, hbest⟩

/-- Every pass keeps the scope, also one that raises. -/
theorem Scoped.run {t : Turn} (h : Scoped cfg start t.start) :
    Scoped cfg start (t.run cfg).1 := by
  have hedited := h.edited t.input.writes
  cases t.goes cfg with
  | judged j hreply hj hrun =>
      rw [hrun]
      exact hedited.conclude t.number j
  | evaluationRaised e hreply hj hrun => rwa [hrun]
  | agentRaised e hreply hj hrun =>
      rw [hrun]
      exact ⟨hedited.repo, hedited.best⟩
  | agentEscaped e hreply hj hrun => rwa [hrun]
  | unsuccessful hreply hj hrun => rwa [hrun]

/-- The whole loop keeps it, and every pass starts within it. -/
theorem Scoped.attempts (h : Scoped cfg start s) (k : ℕ) (inputs : List AttemptInput) :
    Scoped cfg start (attempts cfg k inputs s).1 ∧
      ∀ t ∈ turns cfg k inputs s, Scoped cfg start t.start := by
  induction inputs generalizing k s with
  | nil => exact ⟨h, fun t ht => by cases ht⟩
  | cons i rest ih =>
      have hrun := Scoped.run (t := ⟨k, i, s⟩) h
      rw [Turn.run] at hrun
      rw [AgentLoop.attempts, turns]
      rcases hattempt : attempt cfg k i s with ⟨s', flow⟩
      rw [hattempt] at hrun
      cases flow with
      | next =>
          obtain ⟨hends, hstarts⟩ := ih hrun (k + 1)
          exact ⟨hends, List.forall_mem_cons.mpr ⟨h, hstarts⟩⟩
      | stop => exact ⟨hrun, List.forall_mem_cons.mpr ⟨h, fun t ht => by cases ht⟩⟩
      | raised e => exact ⟨hrun, List.forall_mem_cons.mpr ⟨h, fun t ht => by cases ht⟩⟩

/-! ## Before and after the attempts -/

theorem Scoped.seed (h : Scoped cfg start s) (hmode : cfg.mode = .implement)
    (hwork : s.repo.work = start.work) : Scoped cfg start (seed cfg s).1 := by
  rw [AgentLoop.seed]
  split
  · exact h
  · dsimp only
    split
    · exact h
    · rename_i content hcontent
      have hallowed : Allowed cfg start (some content) := by
        rw [← hcontent, hwork]
        exact .skeleton hmode
      exact ⟨(inScope_commit (h.repo.write hallowed) _ _).1, h.best⟩

theorem Scoped.baseline (h : Scoped cfg start s) (hwork : s.repo.work = start.work)
    (probe : Probe) : Scoped cfg start (baseline cfg probe s).1 := by
  rw [AgentLoop.baseline]
  split
  · rename_i hmode
    have hseed := h.seed hmode hwork
    split
    · rename_i s' e heq
      rwa [heq] at hseed
    · rename_i s' heq
      rwa [heq] at hseed
  · split
    · exact h
    · split
      · exact h
      · exact ⟨h.repo, h.best⟩

theorem Scoped.opening (h : Scoped cfg start s) (hwork : s.repo.work = start.work)
    (inp : RunInput) : Scoped cfg start (opening cfg inp s).1 := by
  have hbaseline := h.baseline hwork inp.base
  rw [opening_eq]
  exact ⟨hbaseline.repo, hbaseline.best⟩

theorem Scoped.body (h : Scoped cfg start s) (hwork : s.repo.work = start.work)
    (inp : RunInput) : Scoped cfg start (body cfg inp s).1 := by
  have hopening := h.opening hwork inp
  rw [body_eq]
  split
  · rename_i s' e heq
    rwa [heq] at hopening
  · rename_i s' heq
    rw [heq] at hopening
    exact (hopening.attempts 1 inp.attempts).1

theorem Scoped.cleanup (h : Scoped cfg start s) (stopTool : Except Exception Unit) :
    Scoped cfg start (cleanup cfg stopTool s).1 := by
  rw [AgentLoop.cleanup]
  split
  · exact h
  · split
    · exact ⟨inScope_gitCommitFile h.repo _, h.best⟩
    · exact h

theorem Scoped.restore (h : Scoped cfg start s) : InScope cfg start (restore cfg s).1.repo := by
  rw [AgentLoop.restore]
  split
  · exact h.repo
  · cases hcheckout : s.repo.checkoutPath s.bestCommit cfg.target.rtl with
    | error e => exact h.repo
    | ok r =>
        have hrestored := h.repo.checkoutPath h.best hcheckout
        simp only [git, Except.mapError]
        split
        · exact hrestored
        · cases hcommit : gitCommit
            [s!"agent({cfg.target.name}): restore best design from {cfg.short s.bestCommit}"] r with
          | error e => exact hrestored
          | ok r' => exact hrestored.commit (gitCommit_eq_ok_iff.mp hcommit)

/-! ## Nothing left to commit -/

section OnTheBranch

variable {out : Outcome} (hclean : start.status = false)
include hclean

end OnTheBranch

end AgentLoop
