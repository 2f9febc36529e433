import Spec2Inc.AgentLoop.Turns

/-!
# What the run branch records

Every content of the module file that the run evaluates ends up in a commit of
the run branch, and a commit that names an attempt has the content and the test
summary of that attempt. A pass of the attempt loop leaves the history of the
branch or puts one commit on top of it (`Turn.run_leaves`). A pass that returns
has its content committed (`Archived`); one that raises may leave it in the
working tree (`Pending`), from where the `finally` block commits it.
-/

open Python Incumbent

namespace AgentLoop

abbrev Revision : Type := Git.Revision String String

variable {cfg : Config} {inp : RunInput} {origin : String} {base : Commit} {r r' : Repo}
  {s : LoopState}

/-! ## Subjects -/

/-- The subject names attempt `k` at the target. -/
def NamesAttempt (cfg : Config) (k : ℕ) (rev : Revision) : Prop :=
  ∃ headline : String, rev.message.head? =
    some s!"agent({cfg.target.name}): attempt {k} -- {headline}"

theorem NamesAttempt.number_eq {k n : ℕ} {headline : String} {tree : Git.Tree String String}
    {rest : List String}
    (h : NamesAttempt cfg k
      ⟨tree, s!"agent({cfg.target.name}): attempt {n} -- {headline}" :: rest⟩) : n = k := by
  obtain ⟨headline', heq⟩ := h
  have hlist := congrArg String.toList (Option.some.inj heq)
  simp only [toString, String.toList_append, List.append_assoc, List.append_cancel_left_eq,
    Nat.toList_repr] at hlist
  exact toDigits_append_inj rfl hlist

theorem not_namesAttempt_seed (k : ℕ) (tree : Git.Tree String String) (rest : List String) :
    ¬ NamesAttempt cfg k ⟨tree, s!"agent({cfg.target.name}): start from skeleton" :: rest⟩ := by
  rintro ⟨headline, heq⟩
  have hlist := congrArg String.toList (Option.some.inj heq)
  simp [toString, String.toList_append, List.append_assoc] at hlist

theorem not_namesAttempt_exit (k : ℕ) (tree : Git.Tree String String) (rest : List String) :
    ¬ NamesAttempt cfg k
      ⟨tree, s!"agent({cfg.target.name}): uncommitted edit at exit" :: rest⟩ := by
  rintro ⟨headline, heq⟩
  have hlist := congrArg String.toList (Option.some.inj heq)
  simp [toString, String.toList_append, List.append_assoc] at hlist

/-! ## Evaluated contents -/

/-- The content of the module file that an attempt passes to `evaluate`. -/
def Turn.evaluated (cfg : Config) (t : Turn) : Option (Option String) :=
  match t.input.reply with
  | .replied true => some (t.file cfg)
  | _ => none

/-- The content that the baseline passes to `evaluate`, when it comes to that. -/
def baselineEvaluated (cfg : Config) (s : LoopState) : List (Option String) :=
  match cfg.mode with
  | .implement =>
      match seed cfg s with
      | (_, .error _) => []
      | (s', .ok ()) => [s'.repo.work.get? cfg.target.rtl]
  | .optimize => [s.repo.work.get? cfg.target.rtl]

/-- The content is that of the module file in some revision of the history. -/
def Stored (cfg : Config) (c : Commit) (content : Option String) : Prop :=
  ∃ rev ∈ c.history, rev.tree.get? cfg.target.rtl = content

theorem stored_tree (c : Commit) : Stored cfg c (c.tree.get? cfg.target.rtl) :=
  ⟨c.tip, List.mem_cons_self, rfl⟩

theorem Stored.mono {c c' : Commit} {content : Option String} (h : Stored cfg c content)
    (hsub : c.history ⊆ c'.history) : Stored cfg c' content := by
  obtain ⟨rev, hrev, heq⟩ := h
  exact ⟨rev, hsub hrev, heq⟩

/-! ## Commits of the run -/

/-- The revision is the commit of the attempt: it has the content evaluated and
the test summary of the evaluation. -/
def Turn.Recorded (cfg : Config) (t : Turn) (rev : Revision) : Prop :=
  ∃ j, t.judged cfg = some j ∧ rev.tree.get? cfg.target.rtl = t.file cfg ∧
    ∃ (headline : String) (rest : List String), rev.message =
      [s!"agent({cfg.target.name}): attempt {t.number} -- {headline}",
        "\n".intercalate (s!"tests: {j.cand.test.summary}" :: rest), cfg.trailer]

/-- An attempt named by the revision is one of these, and made it. -/
def Attributed (cfg : Config) (ts : List Turn) (rev : Revision) : Prop :=
  ∀ k, NamesAttempt cfg k rev → ∃ t ∈ ts, t.number = k ∧ t.Recorded cfg rev

theorem Turn.Recorded.attributed {t : Turn} {rev : Revision} (h : t.Recorded cfg rev)
    {ts : List Turn} (ht : t ∈ ts) : Attributed cfg ts rev := by
  intro k hk
  obtain ⟨tree, message⟩ := rev
  obtain ⟨j, hj, hfile, headline, rest, hmessage⟩ := id h
  simp only at hmessage
  subst hmessage
  exact ⟨t, ht, hk.number_eq, h⟩

/-- All revisions made on top of `base` are attributed. -/
def Accounts (cfg : Config) (base : Commit) (ts : List Turn) (c : Commit) : Prop :=
  ∃ made, c.history = made ++ base.history ∧ ∀ rev ∈ made, Attributed cfg ts rev

theorem accounts_self (cfg : Config) (base : Commit) (ts : List Turn) :
    Accounts cfg base ts base :=
  ⟨[], rfl, by simp⟩

theorem Accounts.mono {ts ts' : List Turn} {c : Commit} (h : Accounts cfg base ts c)
    (hsub : ts ⊆ ts') : Accounts cfg base ts' c := by
  obtain ⟨made, hc, hmade⟩ := h
  refine ⟨made, hc, fun rev hrev k hk => ?_⟩
  obtain ⟨t, ht, hrecorded⟩ := hmade rev hrev k hk
  exact ⟨t, hsub ht, hrecorded⟩

/-- One more commit, when it is attributed. -/
theorem Accounts.grows {ts : List Turn} {c c' : Commit} (h : Accounts cfg base ts c)
    (hgrows : c.Grows (Attributed cfg ts) c') : Accounts cfg base ts c' := by
  obtain ⟨made, hc, hmade⟩ := h
  rcases hgrows with heq | ⟨rev, hrev, heq⟩
  · exact ⟨made, heq.trans hc, hmade⟩
  · refine ⟨rev :: made, by rw [heq, hc, List.cons_append], ?_⟩
    exact List.forall_mem_cons.mpr ⟨hrev, hmade⟩

theorem history_of_gitCommitFile {path : String} {message : List String}
    (h : gitCommitFile path message r = (r', .ok ())) :
    r'.head.history = ⟨r'.head.tree, message⟩ :: r.head.history :=
  Git.Repo.history_of_commitFile (gitCommitFile_eq_ok_iff.mp h)

/-- `commit` leaves the history, or puts the module file on top of it. -/
theorem grows_of_commit {subject : String} {body : List String} {sha : Option Commit}
    (h : commit cfg subject body r = (r', .ok sha)) :
    r.head.Grows (· = ⟨r'.head.tree, [subject, "\n".intercalate body, cfg.trailer]⟩) r'.head := by
  rw [commit] at h
  split at h
  · obtain ⟨rfl, -⟩ := Prod.mk.inj h
    exact Or.inl rfl
  · split at h
    · cases (Prod.mk.inj h).2
    · rename_i r₁ hcommit
      obtain ⟨rfl, -⟩ := Prod.mk.inj h
      exact Or.inr ⟨_, rfl, history_of_gitCommitFile hcommit⟩

/-! ## What one pass leaves -/

theorem OnBranch.edited (h : OnBranch cfg origin base s.repo) (writes : List String) :
    OnBranch cfg origin base (s.edited cfg writes).repo := by
  rw [LoopState.edited]
  split
  · exact h.write _
  · exact h

@[simp] theorem LoopState.head_edited (cfg : Config) (s : LoopState) (writes : List String) :
    (s.edited cfg writes).repo.head = s.repo.head := by
  rw [LoopState.edited]
  split <;> rfl

theorem Turn.evaluated_of_replied {t : Turn} (h : t.input.reply = .replied true) :
    t.evaluated cfg = some (t.file cfg) := by
  rw [Turn.evaluated, h]

theorem Turn.file_of_evaluated {t : Turn} {content : Option String}
    (h : content ∈ t.evaluated cfg) : t.file cfg = content := by
  rw [Turn.evaluated] at h
  split at h
  · exact Option.some.inj h
  · cases h

/-- What a pass leaves. -/
structure Turn.Leaves (cfg : Config) (origin : String) (base : Commit) (t : Turn) (r : Repo) :
    Prop where
  onBranch : OnBranch cfg origin base r
  work : r.work.get? cfg.target.rtl = t.file cfg
  grows : t.start.repo.head.Grows (t.Recorded cfg) r.head
  stored : (t.run cfg).2.Returns → ∀ content ∈ t.evaluated cfg,
    r.head.tree.get? cfg.target.rtl = content

/-- A pass without evaluations that come back leaves what the agent wrote. -/
theorem Turn.leaves_edited {t : Turn} (h : OnBranch cfg origin base t.start.repo)
    (hstored : (t.run cfg).2.Returns → t.evaluated cfg = none) :
    t.Leaves cfg origin base (t.start.edited cfg t.input.writes).repo where
  onBranch := h.edited t.input.writes
  work := rfl
  grows := Or.inl (by rw [LoopState.head_edited])
  stored hreturns content hcontent := by
    rw [hstored hreturns] at hcontent
    cases hcontent

theorem Turn.run_leaves {t : Turn} (h : OnBranch cfg origin base t.start.repo)
    (hne : origin ≠ cfg.branch) : t.Leaves cfg origin base (t.run cfg).1.repo := by
  cases t.goes cfg with
  | judged j hreply hj hrun =>
      rcases hmessage : attemptMessage cfg t.number j
        (improves (j.now cfg.target) (t.start.edited cfg t.input.writes).best) with
        ⟨subject, body⟩
      obtain ⟨r', sha, hcommit, hon, hwork, hhead, -⟩ :=
        (h.edited t.input.writes).commit hne subject body
      have hrepo : (t.run cfg).1.repo = r' := by
        rw [hrun]
        simp only [conclude, hmessage, hcommit]
        split <;> rfl
      rw [hrepo]
      exact
        { onBranch := hon
          work := hwork
          grows := by
            have hgrows := grows_of_commit hcommit
            rw [LoopState.head_edited] at hgrows
            obtain ⟨rfl, rfl⟩ := Prod.mk.inj hmessage
            exact hgrows.imp fun rev hrev => hrev ▸ ⟨j, hj, hhead, _, _, rfl⟩
          stored := fun _ content hcontent => by
            rw [Turn.evaluated_of_replied hreply] at hcontent
            obtain rfl := Option.some.inj hcontent
            exact hhead }
  | evaluationRaised e hreply hj hrun =>
      have hleaves := Turn.leaves_edited h fun hreturns => absurd (by rw [hrun]) (hreturns e)
      rwa [hrun]
  | agentRaised e hreply hj hrun =>
      have hleaves := Turn.leaves_edited h fun _ => by rw [Turn.evaluated, hreply]
      rwa [hrun]
  | agentEscaped e hreply hj hrun =>
      have hleaves := Turn.leaves_edited h fun hreturns => absurd (by rw [hrun]) (hreturns e)
      rwa [hrun]
  | unsuccessful hreply hj hrun =>
      have hleaves := Turn.leaves_edited h fun _ => by rw [Turn.evaluated, hreply]
      rwa [hrun]

/-! ## What a run leaves -/

/-- Between two attempts: every content evaluated is in the history. -/
structure Archived (cfg : Config) (origin : String) (base : Commit)
    (contents : List (Option String)) (ts : List Turn) (r : Repo) : Prop where
  onBranch : OnBranch cfg origin base r
  accounts : Accounts cfg base ts r.head
  stored : ∀ content ∈ contents, Stored cfg r.head content

/-- When the `try` block is left: the last content evaluated may be in the
working tree only. -/
structure Pending (cfg : Config) (origin : String) (base : Commit)
    (contents : List (Option String)) (ts : List Turn) (r : Repo) : Prop where
  onBranch : OnBranch cfg origin base r
  accounts : Accounts cfg base ts r.head
  stored : ∀ content ∈ contents,
    Stored cfg r.head content ∨ r.work.get? cfg.target.rtl = content

variable {files contents : List (Option String)} {ts : List Turn}

theorem Archived.pending (h : Archived cfg origin base contents ts r) :
    Pending cfg origin base contents ts r :=
  ⟨h.onBranch, h.accounts, fun content hcontent => Or.inl (h.stored content hcontent)⟩

theorem Turn.Leaves.accounts {t : Turn} {before : List Turn} (h : t.Leaves cfg origin base r)
    (hbefore : Accounts cfg base before t.start.repo.head) :
    Accounts cfg base (before ++ [t]) r.head :=
  (hbefore.mono (List.subset_append_left before [t])).grows
    (h.grows.imp fun _ hrecorded => hrecorded.attributed (by simp))

/-- The contents evaluated before the attempts and in some of them. -/
def evaluatedIn (cfg : Config) (files : List (Option String)) (ts : List Turn) :
    List (Option String) :=
  files ++ ts.filterMap (Turn.evaluated cfg)

theorem mem_evaluatedIn_concat {before : List Turn} {t : Turn} {content : Option String} :
    content ∈ evaluatedIn cfg files (before ++ [t]) ↔
      content ∈ evaluatedIn cfg files before ∨ content ∈ t.evaluated cfg := by
  rw [evaluatedIn, evaluatedIn, List.filterMap_append, ← List.append_assoc, List.mem_append]
  refine or_congr_right ?_
  cases h : t.evaluated cfg <;> simp [h, eq_comm]

/-- A pass that returns has committed what it evaluated. -/
theorem Archived.run {before : List Turn} {t : Turn} (hne : origin ≠ cfg.branch)
    (h : Archived cfg origin base (evaluatedIn cfg files before) before t.start.repo)
    (hreturns : (t.run cfg).2.Returns) :
    Archived cfg origin base (evaluatedIn cfg files (before ++ [t])) (before ++ [t])
      (t.run cfg).1.repo := by
  have hleaves := Turn.run_leaves h.onBranch hne
  refine ⟨hleaves.onBranch, hleaves.accounts h.accounts, fun content hcontent => ?_⟩
  rcases mem_evaluatedIn_concat.mp hcontent with hcontent | hcontent
  · exact (h.stored content hcontent).mono hleaves.grows.subset
  · rw [← hleaves.stored hreturns content hcontent]
    exact stored_tree _

/-- Any pass leaves what it evaluated in the working tree. -/
theorem Archived.run_pending {before : List Turn} {t : Turn} (hne : origin ≠ cfg.branch)
    (h : Archived cfg origin base (evaluatedIn cfg files before) before t.start.repo) :
    Pending cfg origin base (evaluatedIn cfg files (before ++ [t])) (before ++ [t])
      (t.run cfg).1.repo := by
  have hleaves := Turn.run_leaves h.onBranch hne
  refine ⟨hleaves.onBranch, hleaves.accounts h.accounts, fun content hcontent => ?_⟩
  rcases mem_evaluatedIn_concat.mp hcontent with hcontent | hcontent
  · exact Or.inl ((h.stored content hcontent).mono hleaves.grows.subset)
  · rw [hleaves.work]
    exact Or.inr (Turn.file_of_evaluated hcontent)

/-- A loop that raises does so in its last pass. -/
theorem exists_run_of_attempts_eq_error {k : ℕ} {inputs : List AttemptInput} {s' : LoopState}
    {e : Exception} (h : attempts cfg k inputs s = (s', .error e)) :
    ∃ before t, turns cfg k inputs s = before ++ [t] ∧ t.run cfg = (s', .raised e) := by
  induction inputs generalizing k s with
  | nil => cases (Prod.mk.inj h).2
  | cons i rest ih =>
      rw [attempts] at h
      rw [turns]
      rcases hattempt : attempt cfg k i s with ⟨s₁, flow⟩
      rw [hattempt] at h
      cases flow with
      | next =>
          obtain ⟨before, t, hturns, hrun⟩ := ih h
          exact ⟨⟨k, i, s⟩ :: before, t, by simp only [hturns, List.cons_append], hrun⟩
      | stop => cases (Prod.mk.inj h).2
      | raised e' =>
          obtain ⟨rfl, he⟩ := Prod.mk.inj h
          obtain rfl := Except.error.inj he
          exact ⟨[], ⟨k, i, s⟩, rfl, hattempt⟩

theorem Archived.attempts (hne : origin ≠ cfg.branch)
    (h : Archived cfg origin base (evaluatedIn cfg files []) [] s.repo) (k : ℕ)
    (inputs : List AttemptInput) :
    Pending cfg origin base (evaluatedIn cfg files (turns cfg k inputs s))
      (turns cfg k inputs s) (AgentLoop.attempts cfg k inputs s).1.repo := by
  obtain ⟨hstarts, hends⟩ := turns_invariant
    (fun before s => Archived cfg origin base (evaluatedIn cfg files before) before s.repo)
    h (fun before t hbefore hreturns => hbefore.run hne hreturns) k inputs
  rcases hattempts : AgentLoop.attempts cfg k inputs s with ⟨s', e | _⟩
  · obtain ⟨before, t, hturns, hrun⟩ := exists_run_of_attempts_eq_error hattempts
    rw [hturns] at hstarts ⊢
    have hpending := (hstarts before t (List.prefix_refl _)).run_pending hne
    rwa [hrun] at hpending
  · exact (hends s' hattempts).pending

/-! ## Before the attempts -/

theorem seed_accounts (h : OnBranch cfg origin r.head r) (hne : origin ≠ cfg.branch) :
    Accounts cfg r.head [] (seed cfg (initialState r)).1.repo.head := by
  have hself := accounts_self cfg r.head []
  rw [seed]
  split
  · exact hself
  · dsimp only
    split
    · exact hself
    · rename_i content _
      obtain ⟨r', sha, hcommit, -⟩ := (h.write content).commit hne
        s!"agent({cfg.target.name}): start from skeleton"
        ["mode: implement", s!"model: {cfg.model}"]
      simp only [initialState, hcommit]
      refine hself.grows ((grows_of_commit hcommit).imp fun rev hrev k hk => ?_)
      exact absurd (hrev ▸ hk) (not_namesAttempt_seed k _ _)

/-- The first content evaluated is committed: as the skeleton, or in the
commit the run starts at. -/
theorem baseline_archived (h : OnBranch cfg origin r.head r) (hne : origin ≠ cfg.branch)
    (hclean : r.work.get? cfg.target.rtl = startFile cfg r) (probe : Probe) :
    Archived cfg origin r.head (baselineEvaluated cfg (initialState r)) []
      (baseline cfg probe (initialState r)).1.repo := by
  have hon := (baseline_ends h hne hclean probe).always
  cases hmode : cfg.mode with
  | implement =>
      have hrepo : (baseline cfg probe (initialState r)).1.repo =
          (seed cfg (initialState r)).1.repo := by
        simp only [baseline, hmode]
        split <;> simp_all
      have hseed := seed_ends h hne
      have haccounts := seed_accounts h hne
      rw [hrepo] at hon ⊢
      refine ⟨hon, haccounts, fun content hcontent => ?_⟩
      rcases hseeded : seed cfg (initialState r) with ⟨s', e | _⟩
      · simp [baselineEvaluated, hmode, hseeded] at hcontent
      · obtain ⟨-, -, -, -, hwork, hhead⟩ := (hseeded ▸ hseed).of_ok
        simp only [baselineEvaluated, hmode, hseeded, List.mem_singleton] at hcontent
        rw [hcontent, hwork, ← hhead]
        exact stored_tree _
  | optimize =>
      have hrepo : (baseline cfg probe (initialState r)).1.repo = r := by
        simp only [baseline, hmode]
        split
        · rfl
        · split <;> rfl
      rw [hrepo]
      refine ⟨h, accounts_self cfg r.head [], fun content hcontent => ?_⟩
      simp only [baselineEvaluated, hmode, List.mem_singleton] at hcontent
      rw [hcontent]
      simp only [initialState, hclean]
      exact stored_tree _

/-! ## The end of the `finally` block -/

/-- The `finally` block leaves the history, or puts the module file on top of it. -/
theorem grows_of_cleanup {stopTool : Except Exception Unit} {s' : LoopState}
    (h : cleanup cfg stopTool s = (s', .ok ())) :
    s.repo.head.Grows (· = ⟨s'.repo.head.tree,
      [s!"agent({cfg.target.name}): uncommitted edit at exit"]⟩) s'.repo.head := by
  rw [cleanup] at h
  split at h
  · cases (Prod.mk.inj h).2
  · split at h
    · obtain ⟨rfl, hdone⟩ := Prod.mk.inj h
      exact Or.inr ⟨_, rfl, history_of_gitCommitFile (Prod.ext rfl hdone)⟩
    · obtain ⟨rfl, -⟩ := Prod.mk.inj h
      exact Or.inl rfl

/-- What was left in the working tree is committed. -/
theorem Pending.cleanup (h : Pending cfg origin base contents ts s.repo)
    (hne : origin ≠ cfg.branch) {stopTool : Except Exception Unit} {s' : LoopState}
    (hcleaned : AgentLoop.cleanup cfg stopTool s = (s', .ok ())) :
    Archived cfg origin base contents ts s'.repo ∧
      s'.repo.statusAt cfg.target.rtl = false := by
  have hends := cleanup_ends h.onBranch hne stopTool
  rw [hcleaned] at hends
  obtain ⟨hon, -, -, -, hwork, hhead⟩ := hends.of_ok
  have hgrows := grows_of_cleanup hcleaned
  have haccounts := h.accounts.grows (hgrows.imp fun rev hrev k hk =>
    absurd (hrev ▸ hk) (not_namesAttempt_exit k _ _))
  refine ⟨⟨hon, haccounts, fun content hcontent => ?_⟩, ?_⟩
  · rcases h.stored content hcontent with hstored | hleft
    · exact hstored.mono hgrows.subset
    · rw [← hleft, ← hhead]
      exact stored_tree _
  · exact hon.confined.statusAt_eq_false_iff.mpr fun _ => hwork.trans hhead.symm

/-- `main` comes to the end of its `finally` block, with these variables. -/
structure Finishes (cfg : Config) (inp : RunInput) (r r' : Repo) (s : LoopState) : Prop where
  project : cfg.project ≠ ""
  clean : r.status = false
  branch : r.checkoutNew cfg.branch = .ok r'
  cleaned : cleanup cfg inp.stopTool (body cfg inp (initialState r')).1 = (s, .ok ())

/-- All contents of the module file that the run evaluates. -/
def evaluatedFiles (cfg : Config) (inp : RunInput) (r r' : Repo) : List (Option String) :=
  evaluatedIn cfg (baselineEvaluated cfg (initialState r')) (runTurns cfg inp r)

theorem Finishes.pending (h : Finishes cfg inp r r' s) :
    r.branch ≠ cfg.branch ∧ r'.head = r.head ∧
      Pending cfg r.branch r'.head (evaluatedFiles cfg inp r r') (runTurns cfg inp r)
        (body cfg inp (initialState r')).1.repo := by
  obtain ⟨hne, hon, hfile, hhead, -⟩ := onBranch_of_checkoutNew h.clean h.branch
  refine ⟨hne, hhead, ?_⟩
  have harchived := baseline_archived hon hne hfile inp.base
  rw [← congrArg LoopState.repo (opening_eq cfg inp (initialState r'))] at harchived
  rw [body_eq, evaluatedFiles]
  rcases hopening : opening cfg inp (initialState r') with ⟨s₁, e | _⟩
  · have hturns : runTurns cfg inp r = [] := by
      simp only [runTurns, h.project, h.clean, h.branch, hopening]
      rfl
    rw [hopening] at harchived
    rw [hturns, evaluatedIn, List.filterMap_nil, List.append_nil]
    exact harchived.pending
  · have hopens : Opens cfg inp r r' s₁ := ⟨h.project, h.clean, h.branch, hopening⟩
    rw [hopening] at harchived
    rw [hopens.runTurns_eq]
    refine Archived.attempts hne ?_ 1 inp.attempts
    rwa [evaluatedIn, List.filterMap_nil, List.append_nil]

/-- The attempts are numbered from `k` on. -/
theorem turns_number (cfg : Config) (k : ℕ) (inputs : List AttemptInput) (s : LoopState) :
    (turns cfg k inputs s).map Turn.number =
      List.range' k (turns cfg k inputs s).length := by
  induction inputs generalizing k s with
  | nil => rfl
  | cons i rest ih =>
      rw [turns]
      split
      · rw [List.map_cons, ih, List.length_cons, List.range'_succ]
      · rfl

theorem runTurns_number (cfg : Config) (inp : RunInput) (r : Repo) :
    (runTurns cfg inp r).map Turn.number = List.range' 1 (runTurns cfg inp r).length := by
  rw [runTurns]
  split
  · rfl
  · split
    · rfl
    · split
      · rfl
      · exact turns_number cfg 1 _ _

/-- No design is lost and none is taken for another: the module file has no
uncommitted change, every content of it that was evaluated is in a commit of the
run branch, and a commit of the run that names an attempt has the content
evaluated in that attempt and the test summary of that evaluation. -/
structure Accounted (cfg : Config) (inp : RunInput) (r r' : Repo) (s : LoopState) : Prop where
  clean : s.repo.statusAt cfg.target.rtl = false
  branch : s.repo.refs.get? cfg.branch = some s.repo.head
  stored : ∀ content ∈ evaluatedFiles cfg inp r r', ∃ rev ∈ s.repo.head.history,
    rev.tree.get? cfg.target.rtl = content
  attributed : ∃ made, s.repo.head.history = made ++ r.head.history ∧
    ∀ rev ∈ made, ∀ k, NamesAttempt cfg k rev →
      ∃ t ∈ runTurns cfg inp r, t.number = k ∧ t.Recorded cfg rev
  numbers : (runTurns cfg inp r).map Turn.number =
    List.range' 1 (runTurns cfg inp r).length

/-- Whatever the run comes to, the end of the `finally` block accounts for it. -/
theorem finally_accounts_for_evaluations (cfg : Config) (inp : RunInput) (r r' : Repo)
    (s : LoopState) (h : Finishes cfg inp r r' s) : Accounted cfg inp r r' s := by
  obtain ⟨hne, hhead, hpending⟩ := h.pending
  obtain ⟨harchived, hclean⟩ := hpending.cleanup hne h.cleaned
  have haccounts := harchived.accounts
  rw [hhead] at haccounts
  exact
    { clean := hclean
      branch := by rw [← harchived.onBranch.branch, s.repo.head_eq]
      stored := harchived.stored
      attributed := haccounts
      numbers := runTurns_number cfg inp r }

/-- The first call to the agent raises after its edit; the second edits nothing,
and the evaluation raises. -/
def crashingRun : RunInput :=
  runWith (passing 10)
    [⟨["module reduction_engine; endmodule"], .raised (.runtimeError "cut off"), failing,
        fun _ => failing⟩,
      ⟨[], .replied true, ⟨.error (.runtimeError "lost"), failing.synth⟩, fun _ => failing⟩]

/-- The edit of the first attempt, evaluated in the second, is committed at exit. -/
theorem finally_accounts_for_evaluations_crashing :
    ∃ r' s, s.repo.head.tip.message = ["agent(reduction_engine): uncommitted edit at exit"] ∧
      evaluatedFiles engineConfig crashingRun (engineRepo "") r' =
        [some "", some "module reduction_engine; endmodule"] ∧
      Accounted engineConfig crashingRun (engineRepo "") r' s := by
  refine ⟨_, _, ?_, ?_, finally_accounts_for_evaluations engineConfig crashingRun
    (engineRepo "") _ _ ⟨by decide, by decide, if_neg (by decide), Prod.ext rfl ?_⟩⟩
  · decide +kernel
  · decide +kernel
  · decide +kernel

end AgentLoop
