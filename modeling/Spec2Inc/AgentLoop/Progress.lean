import Spec2Inc.AgentLoop.Best
import Spec2Inc.AgentLoop.Turns

/-!
# What the agent is told

After a complete attempt the next message says whether the design improved.
`main` has by then taken the attempt's score into `best`, and `format_feedback`
compares the score with that: it never says that there was an improvement. The
message is right at exactly the attempts that were none.
-/

open Python Incumbent

namespace AgentLoop

variable {cfg : Config} {inp : RunInput} {r : Repo}

/-- Usable at the primary point and at all the verify points. -/
def Turn.complete (cfg : Config) (t : Turn) : Bool := (t.judged cfg).any Judgement.complete

/-- A complete attempt of a run, after the attempts of `before`, and the loop
goes on with a message about it. -/
structure Told (cfg : Config) (inp : RunInput) (r : Repo) (before : List Turn) (t : Turn) :
    Prop where
  turn : before ++ [t] <+: runTurns cfg inp r
  complete : t.complete cfg = true
  next : (t.run cfg).2 = .next

/-- The message tells whether the design improved. -/
def Truthful (message : String) (improved : Prop) : Prop :=
  (contains message "IMPROVED" = true ↔ improved) ∧
    (¬ improved → contains message "no improvement" = true)

/-! ## The message about an attempt -/

/-- The text has no `V`. -/
def Plain (s : String) : Prop := 'V' ∉ s.toList

instance : DecidablePred Plain := fun s => inferInstanceAs (Decidable ('V' ∉ s.toList))

theorem plain_append {s t : String} : Plain (s ++ t) ↔ Plain s ∧ Plain t := by
  rw [Plain, String.toList_append, List.mem_append, not_or, Plain, Plain]

theorem plain_toString (n : ℕ) : Plain (toString n) := by
  intro hmem
  cases isDigit_of_mem_toString hmem

theorem plain_bestRepr (best : Option ℕ) : Plain (bestRepr best) := by
  cases best with
  | none => decide
  | some b => exact plain_toString b

theorem plain_summary_of_passed {test : TestResult} (h : test.passed = true) :
    Plain test.summary := by
  rw [TestResult.summary, if_pos h]
  simp only [plain_append, plain_toString]
  decide

theorem plain_summary_of_ok {synth : SynthResult} (h : synth.ok = true) :
    Plain synth.summary := by
  rw [SynthResult.summary, if_pos h]
  simp only [plain_append, plain_toString]
  decide

theorem plain_name (objective : Objective) : Plain objective.name := by
  cases objective <;> decide

/-- The message about a usable design that is no better than `best`. -/
theorem formatFeedback_of_not_improves {target : Target} {k : ℕ} {ev : Evaluation}
    {best : Option ℕ} (hobj : target.objective ≠ .correctness) (husable : ev.usable = true)
    (h : improves (score target ev) best = false) :
    contains (formatFeedback target k ev best none) "IMPROVED" = false ∧
      contains (formatFeedback target k ev best none) "no improvement" = true := by
  obtain ⟨hpassed, hsynth⟩ := Bool.and_eq_true_iff.mp husable
  obtain ⟨synth, hsome, hok⟩ := (Option.any_eq_true _ _).mp hsynth
  have htext : ∀ text : String, toString text = text := fun _ => rfl
  unfold formatFeedback
  dsimp only
  rw [if_neg (by simp [hpassed]), if_neg (by simp [hsynth]), if_neg hobj, if_neg (by simp [h]),
    hsome]
  simp only [htext, Option.map_some, Option.getD_some]
  constructor
  · refine contains_eq_false_of_notMem (c := 'V') (by decide) (?_ : Plain _)
    simp only [plain_append, plain_toString, plain_bestRepr, plain_name,
      plain_summary_of_passed hpassed, plain_summary_of_ok hok]
    decide
  · have hverdict : contains ("no improvement (best is still " ++ bestRepr best ++ ")")
        "no improvement" = true :=
      contains_append_right (contains_append_right (by decide) _) _
    exact contains_append_right (contains_append_right (contains_append_right
      (contains_append_left _ hverdict) _) _) _

/-! ## The messages of a run -/

/-- Every message says that there was no improvement. -/
theorem Told.message {before : List Turn} {t : Turn} (h : Told cfg inp r before t)
    (hobj : cfg.target.objective ≠ .correctness) :
    contains (t.run cfg).1.message "IMPROVED" = false ∧
      contains (t.run cfg).1.message "no improvement" = true := by
  obtain ⟨j, hj, hcomplete⟩ := (Option.any_eq_true _ _).mp h.complete
  obtain ⟨husable, hverify⟩ := Bool.and_eq_true_iff.mp hcomplete
  have hnow : j.now cfg.target = score cfg.target j.cand := by
    rw [Judgement.now, if_pos hcomplete]
  have hnext := h.next
  rw [Turn.run_of_judged hj] at hnext ⊢
  rcases conclude_cases cfg t.number j (t.start.edited cfg t.input.writes) with
    ⟨e, he⟩ | ⟨s', heq, hbest, -, hmessage⟩
  · cases hnext.symm.trans he
  · rw [heq] at hnext ⊢
    have hgoes : (cfg.mode = .implement && j.complete) = false := by
      by_contra hstop
      rw [if_pos (by simpa using hstop)] at hnext
      cases hnext
    rw [hmessage hgoes, Option.isNone_iff_eq_none.mp hverify]
    refine formatFeedback_of_not_improves hobj husable ?_
    -- the score is compared with a best that already has it
    rw [hbest, hnow, improves_updated]

/-- The agent is told the truth about a complete attempt exactly when the
attempt did not improve on the baseline and all earlier complete attempts. -/
theorem truthful_iff_not_beats (cfg : Config) (inp : RunInput) (r : Repo)
    (before : List Turn) (t : Turn)
    (hobj : cfg.target.objective = .depth ∨ cfg.target.objective = .cells)
    (h : Told cfg inp r before t) :
    Truthful (t.run cfg).1.message (t.Beats cfg inp before) ↔ ¬ t.Beats cfg inp before := by
  have hcorrectness : cfg.target.objective ≠ .correctness := by
    rcases hobj with hobj | hobj
    · simp [hobj]
    · simp [hobj]
  obtain ⟨himproved, hno⟩ := h.message hcorrectness
  constructor
  · intro htrue hbeats
    cases himproved.symm.trans (htrue.1.mpr hbeats)
  · intro hbeats
    exact ⟨iff_of_false (by simp [himproved]) hbeats, fun _ => hno⟩

/-! ## Two runs -/

/-- A run of one attempt, when that is complete and the loop goes on. -/
theorem exists_told {n : ℕ} (h : (runTurns engineConfig inp r).map (fun t =>
      (t.complete engineConfig, (t.run engineConfig).2, t.score engineConfig)) =
        [(true, .next, some n)]) :
    ∃ t, Told engineConfig inp r [] t ∧ t.score engineConfig = some n := by
  obtain ⟨t, ht, hresults⟩ := List.map_eq_singleton_iff.mp h
  obtain ⟨hcomplete, hrest⟩ := Prod.mk.inj hresults
  obtain ⟨hnext, hscore⟩ := Prod.mk.inj hrest
  exact ⟨t, ⟨by simp [ht], hcomplete, hnext⟩, hscore⟩

/-- One attempt that writes a worse engine. -/
def worseningRun : RunInput :=
  runWith (passing 10) [⟨[engineText "slow"], .replied true, passing 12, fun _ => passing 12⟩]

/-- From depth 10 to depth 12, the agent is told the truth. -/
theorem truthful_iff_not_beats_worsening :
    ∃ t, Told engineConfig worseningRun (engineRepo (engineText "base")) [] t ∧
      t.score engineConfig = some 12 ∧
      Truthful (t.run engineConfig).1.message (t.Beats engineConfig worseningRun []) := by
  have hturns : (runTurns engineConfig worseningRun (engineRepo (engineText "base"))).map
      (fun t => (t.complete engineConfig, (t.run engineConfig).2, t.score engineConfig)) =
        [(true, .next, some 12)] := by
    decide +kernel
  obtain ⟨t, ht, hscore⟩ := exists_told hturns
  refine ⟨t, ht, hscore, (truthful_iff_not_beats engineConfig worseningRun
    (engineRepo (engineText "base")) [] t (Or.inl rfl) ht).mpr ?_⟩
  rintro ⟨n, hn, hbase, -⟩
  obtain rfl : 12 = n := Option.some.inj (hscore.symm.trans hn)
  exact absurd (hbase 10 rfl) (by decide)

/-- From depth 10 to depth 5, the agent is told that there was no improvement. -/
theorem improving_attempt_told_otherwise :
    baselineScore engineConfig improvingRun.base = some 10 ∧
      ∃ t, Told engineConfig improvingRun (engineRepo (engineText "base")) [] t ∧
        t.score engineConfig = some 5 ∧
        contains (t.run engineConfig).1.message "no improvement" = true ∧
        ¬ Truthful (t.run engineConfig).1.message (t.Beats engineConfig improvingRun []) := by
  have hbase : baselineScore engineConfig improvingRun.base = some 10 := rfl
  have hturns : (runTurns engineConfig improvingRun (engineRepo (engineText "base"))).map
      (fun t => (t.complete engineConfig, (t.run engineConfig).2, t.score engineConfig)) =
        [(true, .next, some 5)] := by
    decide +kernel
  obtain ⟨t, ht, hscore⟩ := exists_told hturns
  obtain ⟨himproved, hno⟩ := ht.message (by decide)
  refine ⟨hbase, t, ht, hscore, hno, fun htrue => ?_⟩
  have hbeats : t.Beats engineConfig improvingRun [] := by
    refine ⟨5, hscore, fun m hm => ?_, by simp⟩
    obtain rfl := Option.some.inj (hbase.symm.trans hm)
    decide
  cases himproved.symm.trans (htrue.1.mpr hbeats)

end AgentLoop
