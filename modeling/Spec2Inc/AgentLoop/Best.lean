import Spec2Inc.AgentLoop.Return

/-!
# The design the run ends on

`main` writes the best score into the summary and leaves the run branch at the
commit it recorded as the best one. The score is always the least measured, and
the branch differs from its start in the module file only. The file is the one
the score was measured on when that measurement made a commit; when nothing had
changed since the last commit, the record falls back to an older commit.
-/

open Python Incumbent

namespace AgentLoop

variable {cfg : Config} {inp : RunInput} {r : Repo} {summary : Summary} {b : ℕ}

/-- The run branch ends on the file that the best score was measured on, and
differs from its start in no other. -/
structure EndsOnBest (cfg : Config) (inp : RunInput) (r : Repo) (b : ℕ) : Prop where
  best : IsBest (runMeasurements cfg inp r) b
  tip : ∃ tip, (main cfg inp r).repo.refs.get? cfg.branch = some tip ∧
    (∃ before m, FirstWith (runMeasurements cfg inp r) b before m ∧
      tip.tree.get? cfg.target.rtl = m.content) ∧
    ∀ path, path ≠ cfg.target.rtl → tip.tree.get? path = r.head.tree.get? path

/-- The first measurement with the best score was of another file than the one
measured just before it, or else of the file of the last fresh measurement. -/
def BestStored (cfg : Config) (inp : RunInput) (r : Repo) : Prop :=
  ∀ b before m, IsBest (runMeasurements cfg inp r) b →
    FirstWith (runMeasurements cfg inp r) b before m →
      m.content ≠ lastContent (startFile cfg r) before ∨
        IsMark (startFile cfg r) before m.content

/-- A run that writes its summary has come through all its parts. -/
theorem returns_of_summary (h : (main cfg inp r).summary = some summary) :
    RunReturns cfg inp r ∧ Returned cfg inp r r.branch (main cfg inp r) := by
  by_cases hproject : cfg.project = ""
  · simp [main, hproject] at h
  · cases hstatus : r.status with
    | true => simp [main, hproject, hstatus] at h
    | false =>
        by_cases hnew : cfg.branch ∈ r.refs
        · simp [main, hproject, hstatus, Git.Repo.checkoutNew, hnew, git, Except.mapError] at h
        · rcases main_spec hproject hstatus hnew inp with hreturned | ⟨-, -, hnone⟩
          · exact hreturned
          · cases hnone.symm.trans h

/-- The best score is the least of all measured. -/
theorem isBest_of_summary (h : (main cfg inp r).summary = some summary)
    (hbest : summary.best = some b) : IsBest (runMeasurements cfg inp r) b := by
  obtain ⟨summary', hsummary', hledger⟩ := (returns_of_summary h).2.summary
  obtain rfl := Option.some.inj (hsummary'.symm.trans h)
  exact (summarizes_ledger _ _).isBest b (hledger.symm.trans hbest)

/-- A run that writes a best score into its summary ends on the design the score
was measured on exactly when that design had been stored. -/
theorem main_ends_on_best_iff (cfg : Config) (inp : RunInput) (r : Repo) (b : ℕ)
    (hbest : (main cfg inp r).summary.bind Summary.best = some b) :
    EndsOnBest cfg inp r b ↔ BestStored cfg inp r := by
  obtain ⟨summary, h, hb⟩ := Option.bind_eq_some_iff.mp hbest
  have hleast := isBest_of_summary h hb
  obtain ⟨tip, htip, hother, hkept⟩ := (returns_of_summary h).2.tip
  constructor
  · intro hends b' before m hleast' hm
    obtain ⟨tip', htip', ⟨before', m', hm', hcontent⟩, -⟩ := hends.tip
    obtain rfl := Option.some.inj (htip'.symm.trans htip)
    obtain rfl := hleast.unique hleast'
    obtain ⟨rfl, rfl⟩ := hm'.unique hm
    refine (kept_eq_iff hleast hm).mp ?_
    rw [← hkept, hcontent]
  · intro hstored
    obtain ⟨before, m, hm⟩ := exists_firstWith hleast.1
    refine ⟨hleast, tip, htip, ⟨before, m, hm, ?_⟩, hother⟩
    rw [hkept]
    exact (kept_eq_iff hleast hm).mpr (hstored b before m hleast hm)

/-! ## Two runs -/

/-- A candidate the edit tool accepts. -/
def engineText (name : String) : String := "module reduction_engine; // " ++ name ++ " endmodule"

/-- One attempt that writes a better engine. -/
def improvingRun : RunInput :=
  runWith (passing 10) [⟨[engineText "fast"], .replied true, passing 5, fun _ => passing 5⟩]

theorem runMeasurements_improvingRun :
    runMeasurements engineConfig improvingRun (engineRepo (engineText "base")) =
      [⟨some (engineText "base"), some 10⟩, ⟨some (engineText "fast"), some 5⟩] := by
  decide +kernel

theorem bestStored_improvingRun :
    BestStored engineConfig improvingRun (engineRepo (engineText "base")) := by
  refine fun b before m hb hm => (kept_eq_iff hb hm).mp ?_
  rw [runMeasurements_improvingRun] at hb hm ⊢
  have hle : b ≤ 5 := hb.2 ⟨some (engineText "fast"), some 5⟩ (by simp) 5 rfl
  have hmem : m ∈ [⟨some (engineText "base"), some 10⟩, ⟨some (engineText "fast"), some 5⟩] :=
    hm.split.subset (by simp)
  rcases List.mem_cons.mp hmem with rfl | hmem
  · obtain rfl := Option.some.inj hm.score
    exact absurd hle (by decide)
  · obtain rfl := List.mem_singleton.mp hmem
    decide +kernel

theorem main_ends_on_best_iff_improving :
    EndsOnBest engineConfig improvingRun (engineRepo (engineText "base")) 5 :=
  (main_ends_on_best_iff engineConfig improvingRun (engineRepo (engineText "base")) 5
    (by decide +kernel)).mpr bestStored_improvingRun

/-- The first attempt writes a better engine, which fails at a verify point; the
second writes nothing, and all points pass. -/
def flakyRun : RunInput :=
  runWith (passing 10)
    [⟨[engineText "fast"], .replied true, passing 5, fun _ => failing⟩,
      ⟨[], .replied true, passing 5, fun _ => passing 5⟩]

theorem runMeasurements_flakyRun :
    runMeasurements engineConfig flakyRun (engineRepo (engineText "base")) =
      [⟨some (engineText "base"), some 10⟩, ⟨some (engineText "fast"), none⟩,
        ⟨some (engineText "fast"), some 5⟩] := by
  decide +kernel

/-- The run branch ends on the engine it started from, and the summary has the
score of the better one. -/
theorem flaky_verify_point_loses_best :
    (main engineConfig flakyRun (engineRepo (engineText "base"))).summary.bind Summary.best =
        some 5 ∧
      ((main engineConfig flakyRun (engineRepo (engineText "base"))).repo.refs.get?
        engineConfig.branch).bind (fun tip => tip.tree.get? reductionEngine.rtl) =
        some (engineText "base") ∧
      ¬ EndsOnBest engineConfig flakyRun (engineRepo (engineText "base")) 5 := by
  have htip : ((main engineConfig flakyRun (engineRepo (engineText "base"))).repo.refs.get?
      engineConfig.branch).bind (fun tip => tip.tree.get? reductionEngine.rtl) =
      some (engineText "base") := by
    decide +kernel
  refine ⟨by decide +kernel, htip, fun hends => ?_⟩
  obtain ⟨tip, hrefs, ⟨before, m, hm, hcontent⟩, -⟩ := hends.tip
  rw [runMeasurements_flakyRun] at hm
  have hlast : FirstWith [⟨some (engineText "base"), some 10⟩, ⟨some (engineText "fast"), none⟩,
      ⟨some (engineText "fast"), some 5⟩] 5
      [⟨some (engineText "base"), some 10⟩, ⟨some (engineText "fast"), none⟩]
      ⟨some (engineText "fast"), some 5⟩ := ⟨List.prefix_rfl, rfl, by simp⟩
  obtain ⟨-, rfl⟩ := hm.unique hlast
  have hfast : tip.tree.get? reductionEngine.rtl = some (engineText "fast") := hcontent
  rw [hrefs, Option.bind_some, hfast] at htip
  revert htip
  decide +kernel

end AgentLoop
