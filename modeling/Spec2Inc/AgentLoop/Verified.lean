import Spec2Inc.AgentLoop.Best
import Spec2Inc.AgentLoop.Turns

/-!
# The design the reported verification is about

The summary lists results at the verify points beside the best score. They are
those of the last attempt that came through all the verify points, whether or
not it was kept as the best. So they are those of the best design only when
this attempt was the one kept, or its results happen to be the same.
-/

open Python Incumbent

namespace AgentLoop

variable {cfg : Config} {inp : RunInput} {r r' : Repo} {s s' : LoopState} {summary : Summary}
  {b : ℕ} {before : List Turn} {t : Turn}

/-- The last attempt that came through all the verify points. -/
def lastVerified (cfg : Config) (ts : List Turn) : Option Turn :=
  ts.reverse.find? fun t => !(t.records cfg).isEmpty

def lastRecords (cfg : Config) (ts : List Turn) : List Verified :=
  (lastVerified cfg ts).elim [] (Turn.records cfg)

theorem lastRecords_concat (ts : List Turn) (t : Turn) :
    lastRecords cfg (ts ++ [t]) =
      if t.records cfg = [] then lastRecords cfg ts else t.records cfg := by
  rw [lastRecords, lastVerified, List.reverse_concat, List.find?_cons]
  cases h : t.records cfg with
  | nil => simp [lastRecords, lastVerified]
  | cons v vs => simp [h]

/-! ## The variable through a run -/

theorem seed_verified (cfg : Config) (s : LoopState) :
    (seed cfg s).1.verified = s.verified := by
  rw [seed]
  split
  · rfl
  · dsimp only
    split
    · rfl
    · rfl

theorem baseline_verified (cfg : Config) (probe : Probe) (s : LoopState) :
    (baseline cfg probe s).1.verified = s.verified := by
  rw [baseline]
  split
  · have hseed := seed_verified cfg s
    rcases hseeded : seed cfg s with ⟨s', e | _⟩
    · rwa [hseeded] at hseed
    · rwa [hseeded] at hseed
  · split
    · rfl
    · split
      · rfl
      · rfl

theorem opening_verified (cfg : Config) (inp : RunInput) (s : LoopState) :
    (opening cfg inp s).1.verified = s.verified :=
  (congrArg LoopState.verified (opening_eq cfg inp s)).trans (baseline_verified cfg inp.base s)

theorem cleanup_verified (cfg : Config) (stopTool : Except Exception Unit) (s : LoopState) :
    (cleanup cfg stopTool s).1.verified = s.verified := by
  rw [cleanup]
  split
  · rfl
  · split
    · rfl
    · rfl

theorem restore_verified (cfg : Config) (s : LoopState) :
    (restore cfg s).1.verified = s.verified := by
  rw [restore]
  split
  · rfl
  · split
    · rfl
    · split
      · rfl
      · split
        · rfl
        · rfl

theorem Opens.verified (h : Opens cfg inp r r' s)
    (hattempts : attempts cfg 1 inp.attempts s = (s', .ok ())) :
    s'.verified = lastRecords cfg (runTurns cfg inp r) := by
  rw [h.runTurns_eq]
  refine (turns_invariant (fun before s => s.verified = lastRecords cfg before) ?_
    (fun before t hbefore hreturns => ?_) 1 inp.attempts).2 s' hattempts
  · have hopening := opening_verified cfg inp (initialState r')
    rw [h.opening] at hopening
    exact hopening
  · rw [(Turn.run_of_returns hreturns).2, lastRecords_concat, hbefore]

theorem body_of_summary {origin : String}
    (h : (runOnBranch cfg inp origin r).summary = some summary) :
    ∃ s, body cfg inp (initialState r) = (s, .ok ()) ∧ summary.verified = s.verified := by
  rw [initialState]
  rcases hran : body cfg inp ⟨r, false, [], [], none, r.head, ""⟩ with ⟨s₁, ran⟩
  have hcleanup := cleanup_verified cfg inp.stopTool s₁
  rcases hcleaned : cleanup cfg inp.stopTool s₁ with ⟨s₂, cleaned⟩
  rw [hcleaned] at hcleanup
  simp only [runOnBranch, hran, hcleaned] at h
  cases hboth : (do cleaned; ran) with
  | error e => simp [hboth] at h
  | ok _ =>
      obtain ⟨-, rfl⟩ := seq_eq_ok_iff.mp hboth
      have hrestore := restore_verified cfg s₂
      rcases hrestored : restore cfg s₂ with ⟨s₃, e | _⟩
      · simp [hboth, hrestored] at h
      · rw [hrestored] at hrestore
        refine ⟨s₁, rfl, ?_⟩
        have hsummary : summarize cfg r.head s₃ = summary := by
          cases hcheckout : git ["checkout", origin] (s₃.repo.checkout origin) with
          | error e => simpa [hboth, hrestored, hcheckout] using h
          | ok repo => simpa [hboth, hrestored, hcheckout] using h
        rw [← hsummary, ← hcleanup, ← hrestore]
        rfl

/-- The summary has the records of the last attempt that came through all the
verify points. -/
theorem verified_of_summary (h : (main cfg inp r).summary = some summary) :
    summary.verified = lastRecords cfg (runTurns cfg inp r) := by
  by_cases hproject : cfg.project = ""
  · simp [main, hproject] at h
  · cases hclean : r.status with
    | true => simp [main, hproject, hclean] at h
    | false =>
        cases hbranch : r.checkoutNew cfg.branch with
        | error e => simp [main, hproject, hclean, hbranch, git, Except.mapError] at h
        | ok r' =>
            simp only [main, if_neg hproject, hclean, hbranch, git, Except.mapError] at h
            obtain ⟨s', hbody, hverified⟩ := body_of_summary h
            rw [body_eq] at hbody
            rcases hopening : opening cfg inp (initialState r') with ⟨s, e | _⟩
            · simp [hopening] at hbody
            · rw [hopening] at hbody
              rw [hverified]
              exact Opens.verified ⟨hproject, hclean, hbranch, hopening⟩ hbody

/-! ## The attempt that was kept -/

/-- The attempt is the first with the least score of the run, and the baseline
had none as low. -/
structure Accepted (cfg : Config) (inp : RunInput) (r : Repo) (b : ℕ) (before : List Turn)
    (t : Turn) : Prop where
  turn : before ++ [t] <+: runTurns cfg inp r
  score : t.score cfg = some b
  beats : t.Beats cfg inp before
  least : IsBest (runMeasurements cfg inp r) b

/-- The records in the summary are those of the attempt that was accepted as
the best, and the tip of the run branch has its file. -/
def VerifiesBest (cfg : Config) (inp : RunInput) (r : Repo) (summary : Summary) : Prop :=
  ∃ b before t, summary.best = some b ∧ Accepted cfg inp r b before t ∧
    summary.verified = t.records cfg ∧
    ∃ tip, (main cfg inp r).repo.refs.get? cfg.branch = some tip ∧
      tip.tree.get? cfg.target.rtl = t.file cfg

/-- An attempt was the best, its file had been stored, and the last attempt
that came through all the verify points has the same records. -/
def BestVerifiedLast (cfg : Config) (inp : RunInput) (r : Repo) : Prop :=
  ∃ b before t, Accepted cfg inp r b before t ∧ BestStored cfg inp r ∧
    ∀ t' ∈ lastVerified cfg (runTurns cfg inp r), t'.records cfg = t.records cfg

theorem Accepted.measured (h : Accepted cfg inp r b before t) :
    t.measured cfg = some ⟨t.file cfg, some b⟩ := by
  have hscore := h.score
  rw [Turn.score] at hscore
  obtain ⟨j, hj, hnow⟩ := Option.bind_eq_some_iff.mp hscore
  rw [Turn.measured, hj, Option.map_some, hnow]

/-- Among the measurements, that of the accepted attempt is the first with the
least score. -/
theorem Accepted.firstWith (h : Accepted cfg inp r b before t)
    (hknown : known cfg inp r (runTurns cfg inp r) = runMeasurements cfg inp r) :
    FirstWith (runMeasurements cfg inp r) b (known cfg inp r before) ⟨t.file cfg, some b⟩ where
  split := by
    have hconcat : known cfg inp r (before ++ [t]) =
        known cfg inp r before ++ [⟨t.file cfg, some b⟩] := by
      rw [known_concat, h.measured]
      rfl
    rw [← hconcat, ← hknown, known, known, List.cons_prefix_cons]
    exact ⟨rfl, h.turn.filterMap _⟩
  score := rfl
  first := by
    obtain ⟨n, hn, hbase, hbefore⟩ := h.beats
    obtain rfl := Option.some.inj (hn.symm.trans h.score)
    rw [known, List.forall_mem_cons, List.forall_mem_filterMap]
    refine ⟨fun hscore => lt_irrefl _ (hbase n hscore), fun t' ht' m hm hscore => ?_⟩
    refine lt_irrefl _ (hbefore t' ht' n ?_)
    rw [Turn.score_eq_bind_measured, hm]
    exact hscore

/-- Its score is the one in the summary. -/
theorem Accepted.best (hsummary : (main cfg inp r).summary = some summary)
    (h : Accepted cfg inp r b before t) : summary.best = some b := by
  obtain ⟨summary', hsummary', hledger⟩ := (returns_of_summary hsummary).2.summary
  obtain rfl := Option.some.inj (hsummary'.symm.trans hsummary)
  obtain ⟨m, hm, hscore⟩ := h.least.1
  rw [hledger]
  cases hbest : (ledger (startFile cfg r) (runMeasurements cfg inp r)).best with
  | none => cases ((summarizes_ledger _ _).absent hbest m hm).symm.trans hscore
  | some b' => rw [((summarizes_ledger _ _).isBest b' hbest).unique h.least]

/-- Its file is at the tip of the run branch when it had been stored. -/
theorem Accepted.tip_iff (hsummary : (main cfg inp r).summary = some summary)
    (h : Accepted cfg inp r b before t) :
    (∃ tip, (main cfg inp r).repo.refs.get? cfg.branch = some tip ∧
      tip.tree.get? cfg.target.rtl = t.file cfg) ↔ BestStored cfg inp r := by
  obtain ⟨hreturns, hreturned⟩ := returns_of_summary hsummary
  obtain ⟨tip, htip, -, hkept⟩ := hreturned.tip
  obtain ⟨r', s, hopens⟩ := exists_opens_of_turn h.turn
  have hfirst := h.firstWith (hopens.known_eq hreturns.body.attempts)
  have hstored := (kept_eq_iff h.least hfirst : (ledger (startFile cfg r) _).kept = _ ↔ _)
  rw [← hkept] at hstored
  constructor
  · rintro ⟨tip', htip', hfile⟩ b' before' m' hleast hm'
    obtain rfl := Option.some.inj (htip'.symm.trans htip)
    obtain rfl := h.least.unique hleast
    obtain ⟨rfl, rfl⟩ := hfirst.unique hm'
    exact hstored.mp hfile
  · exact fun hbest => ⟨tip, htip, hstored.mpr (hbest _ _ _ h.least hfirst)⟩

/-- The records in the summary are some attempt's when the last ones are. -/
theorem verified_eq_records_iff (hsummary : (main cfg inp r).summary = some summary)
    (hverified : summary.verified ≠ []) :
    summary.verified = t.records cfg ↔
      ∀ t' ∈ lastVerified cfg (runTurns cfg inp r), t'.records cfg = t.records cfg := by
  rw [verified_of_summary hsummary, lastRecords] at hverified ⊢
  cases hlast : lastVerified cfg (runTurns cfg inp r) with
  | none => simp [hlast] at hverified
  | some t' => simp

/-- In a run that writes records of the verify points into its summary, they
are those of the design that was accepted as the best and is at the tip of the
run branch exactly when this attempt's records are also the last ones. -/
theorem verifiesBest_iff (cfg : Config) (inp : RunInput) (r : Repo) (summary : Summary)
    (h : (main cfg inp r).summary = some summary) (hverified : summary.verified ≠ []) :
    VerifiesBest cfg inp r summary ↔ BestVerifiedLast cfg inp r := by
  constructor
  · rintro ⟨b, before, t, -, haccepted, hrecords, htip⟩
    exact ⟨b, before, t, haccepted, (haccepted.tip_iff h).mp htip,
      (verified_eq_records_iff h hverified).mp hrecords⟩
  · rintro ⟨b, before, t, haccepted, hstored, hlast⟩
    exact ⟨b, before, t, haccepted.best h, haccepted,
      (verified_eq_records_iff h hverified).mpr hlast, (haccepted.tip_iff h).mpr hstored⟩

/-! ## Two runs -/

theorem exists_summary_improvingRun :
    ∃ summary, (main engineConfig improvingRun (engineRepo (engineText "base"))).summary =
      some summary ∧ summary.verified ≠ [] := by
  have hsome : (main engineConfig improvingRun (engineRepo (engineText "base"))).summary.any
      (fun summary => !summary.verified.isEmpty) = true := by
    decide +kernel
  obtain ⟨summary, hsummary, hverified⟩ := (Option.any_eq_true _ _).mp hsome
  exact ⟨summary, hsummary, by simpa using hverified⟩

/-- The one attempt of the run is the one accepted and the last one verified. -/
theorem verifiesBest_iff_improving :
    ∃ summary, (main engineConfig improvingRun (engineRepo (engineText "base"))).summary =
      some summary ∧ summary.verified ≠ [] ∧
      VerifiesBest engineConfig improvingRun (engineRepo (engineText "base")) summary := by
  obtain ⟨summary, hsummary, hverified⟩ := exists_summary_improvingRun
  refine ⟨summary, hsummary, hverified, (verifiesBest_iff engineConfig improvingRun
    (engineRepo (engineText "base")) summary hsummary hverified).mpr ?_⟩
  have hscores : (runTurns engineConfig improvingRun (engineRepo (engineText "base"))).map
      (Turn.score engineConfig) = [some 5] := by
    decide +kernel
  obtain ⟨t, ht, hscore⟩ := List.map_eq_singleton_iff.mp hscores
  have hleast : IsBest (runMeasurements engineConfig improvingRun
      (engineRepo (engineText "base"))) 5 := by
    rw [runMeasurements_improvingRun]
    exact ⟨⟨⟨some (engineText "fast"), some 5⟩, by simp, rfl⟩, by simp⟩
  have hbeats : t.Beats engineConfig improvingRun [] := by
    refine ⟨5, hscore, fun m hm => ?_, fun t' ht' => absurd ht' List.not_mem_nil⟩
    obtain rfl : 10 = m := Option.some.inj hm
    decide
  refine ⟨5, [], t, ⟨by simp [ht], hscore, hbeats, hleast⟩, ?_, fun t' ht' => ?_⟩
  · exact bestStored_improvingRun
  · rw [ht] at ht'
    obtain rfl : t' = t := List.mem_singleton.mp
      (List.mem_reverse.mp (List.mem_of_find?_eq_some ht'))
    rfl

/-- The first attempt halves the depth; the second is worse than the first, and
passes all points too. -/
def regressingRun : RunInput :=
  runWith (passing 10)
    [⟨[engineText "fast"], .replied true, passing 5, fun _ => passing 5⟩,
      ⟨[engineText "slow"], .replied true, passing 7, fun _ => passing 7⟩]

/-- The tip of the run branch has the engine of depth 5, and the summary the
depths of the other one. -/
theorem later_attempt_overwrites_verified :
    (main engineConfig regressingRun (engineRepo (engineText "base"))).summary.map
        (fun summary => (summary.best, summary.verified.map Verified.depth)) =
        some (some 5, [some 7, some 7, some 7, some 7, some 7]) ∧
      ((main engineConfig regressingRun (engineRepo (engineText "base"))).repo.refs.get?
        engineConfig.branch).bind (fun tip => tip.tree.get? reductionEngine.rtl) =
        some (engineText "fast") ∧
      ∀ summary, (main engineConfig regressingRun (engineRepo (engineText "base"))).summary =
        some summary →
        ¬ VerifiesBest engineConfig regressingRun (engineRepo (engineText "base")) summary := by
  have hsummary : (main engineConfig regressingRun (engineRepo (engineText "base"))).summary.map
      (fun summary => (summary.best, summary.verified.map Verified.depth)) =
      some (some 5, [some 7, some 7, some 7, some 7, some 7]) := by
    decide +kernel
  refine ⟨hsummary, by decide +kernel, fun summary h hverifies => ?_⟩
  obtain ⟨b, before, t, hbest, haccepted, hrecords, -⟩ := hverifies
  rw [h, Option.map_some, hbest, hrecords] at hsummary
  obtain ⟨hb, hdepth⟩ := Prod.mk.inj (Option.some.inj hsummary)
  obtain rfl := Option.some.inj hb
  -- the attempt with score 5 measured depth 5 at the verify points
  have hall : ∀ t ∈ runTurns engineConfig regressingRun (engineRepo (engineText "base")),
      t.score engineConfig = some 5 → (t.records engineConfig).map Verified.depth =
        [some 5, some 5, some 5, some 5, some 5] := by
    decide +kernel
  have hmem : t ∈ runTurns engineConfig regressingRun (engineRepo (engineText "base")) :=
    haccepted.turn.subset (by simp)
  have hne := hdepth.symm.trans (hall t hmem haccepted.score)
  revert hne
  decide

end AgentLoop
