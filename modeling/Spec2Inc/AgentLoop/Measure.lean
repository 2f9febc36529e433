import Spec2Inc.AgentLoop.Loop
import Spec2Inc.AgentLoop.Synth

/-!
# From subprocesses to an attempt

What one evaluation comes to, from the outcomes of its four subprocesses. A time
limit in the synthesis is a result like any other, and so is a failed conversion;
`run_synth` fails to report only when a number in its log is too long to be read
(`runSynth_reports_iff`). The evaluations of an attempt stop at the first parameter
point that is not usable. They come back exactly when those that are reached
report (`judge_returns_iff`), and the attempt is complete exactly when the tests
pass and the design synthesizes at every point (`judge_complete_iff`).
-/

open Python

namespace AgentLoop

variable {isalnum : Char → Bool} {tools : Tools} {call : SynthCall}

/-! ## Synthesis -/

/-- Both commands succeed, and yosys leaves this log. -/
def Converted (tools : Tools) (call : SynthCall) (log : String) : Prop :=
  (∃ stdout stderr, tools.sv2v call.conversion = .finished 0 stdout stderr) ∧
    ∃ stdout stderr, tools.yosys call.script = .finished 0 stdout stderr ∧
      stdout ++ "\n" ++ stderr = log

/-- The two numbers that are read from a log, as they stand there. -/
structure Printed (isalnum : Char → Bool) (log : String) (cells depth : List Char) : Prop where
  cells : (cellsFound log.toList).getLast? = some cells
  depth : Pattern.search (ltpRe isalnum) log.toList = some [depth]

/-- No number that has to be read is too long for `int`. -/
def SynthReportable (isalnum : Char → Bool) (tools : Tools) (call : SynthCall) : Prop :=
  ∀ log cells depth, Converted tools call log → Printed isalnum log cells depth →
    cells.length ≤ intMaxStrDigits ∧ depth.length ≤ intMaxStrDigits

/-- Both commands succeed, and both numbers are printed and can be read. -/
def Synthesized (isalnum : Char → Bool) (tools : Tools) (call : SynthCall) : Prop :=
  ∃ log cells depth, Converted tools call log ∧ Printed isalnum log cells depth ∧
    cells.length ≤ intMaxStrDigits ∧ depth.length ≤ intMaxStrDigits

/-- A count that is found is a run of digits. -/
theorem isDecimal_of_mem_cellsFound {log cells : List Char} (h : cells ∈ cellsFound log) :
    ∀ c ∈ cells, isDecimal c = true := by
  obtain ⟨caps, hcaps, hmem⟩ := List.mem_flatten.mp h
  have hclasses : Pattern.lineClasses cellsRe = [isDecimal] := rfl
  have hcaptured := Pattern.captures_of_mem_findLines hcaps
  rw [hclasses] at hcaptured
  match hcaptured with
  | .cons hdigits .nil =>
      obtain rfl := List.mem_singleton.mp hmem
      exact hdigits

/-- So is the length in a line of `ltp`, which has one group. -/
theorem exists_depth_of_search {log : List Char} {groups : List (List Char)}
    (h : Pattern.search (ltpRe isalnum) log = some groups) :
    ∃ depth, groups = [depth] ∧ ∀ c ∈ depth, isDecimal c = true := by
  have hclasses : Pattern.classes (ltpRe isalnum) = [isDecimal] := rfl
  have hcaptured := Pattern.captures_of_search h
  rw [hclasses] at hcaptured
  match hcaptured with
  | .cons hdigits .nil => exact ⟨_, rfl, hdigits⟩

theorem Printed.isDecimal {log : String} {cells depth : List Char}
    (h : Printed isalnum log cells depth) :
    (∀ c ∈ cells, isDecimal c = true) ∧ ∀ c ∈ depth, isDecimal c = true := by
  obtain ⟨depth', heq, hdepth⟩ := exists_depth_of_search h.depth
  obtain rfl := List.singleton_inj.mp heq
  exact ⟨isDecimal_of_mem_cellsFound (List.mem_of_getLast? h.cells), hdepth⟩

/-- A log either has both numbers, or the result is a failure. -/
theorem readSynth_cases (isalnum : Char → Bool) (log : String) :
    (∃ cells depth, Printed isalnum log cells depth ∧ readSynth isalnum log = do
        let cells ← int cells
        let depth ← int depth
        .ok ⟨true, cells, depth, log⟩) ∨
      (¬ ∃ cells depth, Printed isalnum log cells depth) ∧
        readSynth isalnum log = .ok ⟨false, 0, 0, log⟩ := by
  cases hcells : (cellsFound log.toList).getLast? with
  | none =>
      refine Or.inr ⟨fun ⟨cells, depth, h⟩ => ?_, by simp only [readSynth, hcells]⟩
      cases hcells.symm.trans h.cells
  | some cells =>
      cases hdepth : Pattern.search (ltpRe isalnum) log.toList with
      | none =>
          refine Or.inr ⟨fun ⟨cells, depth, h⟩ => ?_, by simp only [readSynth, hcells, hdepth]⟩
          cases hdepth.symm.trans h.depth
      | some groups =>
          obtain ⟨depth, rfl, -⟩ := exists_depth_of_search hdepth
          refine Or.inl ⟨cells, depth, ⟨hcells, hdepth⟩, ?_⟩
          simp only [readSynth, hcells, hdepth, List.headD_cons]

/-- Whatever else the two commands come to is a failure without numbers. -/
theorem runSynth_cases (isalnum : Char → Bool) (tools : Tools) (call : SynthCall) :
    (∃ log, Converted tools call log ∧ runSynth isalnum tools call = readSynth isalnum log) ∨
      (¬ ∃ log, Converted tools call log) ∧
        ∃ log, runSynth isalnum tools call = .ok ⟨false, 0, 0, log⟩ := by
  cases hconv : tools.sv2v call.conversion with
  | timeoutExpired stdout stderr =>
      refine Or.inr ⟨?_, _, by simp only [runSynth, hconv]; rfl⟩
      rintro ⟨log, ⟨_, _, hdone⟩, -⟩
      cases hconv.symm.trans hdone
  | finished rc stdout stderr =>
      by_cases hrc : rc = 0
      · subst hrc
        cases hyosys : tools.yosys call.script with
        | timeoutExpired out err =>
            refine Or.inr ⟨?_, _, by simp [runSynth, hconv, hyosys]; rfl⟩
            rintro ⟨log, -, _, _, hdone, -⟩
            cases hyosys.symm.trans hdone
        | finished rc' out err =>
            by_cases hrc' : rc' = 0
            · subst hrc'
              exact Or.inl ⟨out ++ "\n" ++ err, ⟨⟨_, _, hconv⟩, _, _, hyosys, rfl⟩,
                by simp [runSynth, hconv, hyosys]⟩
            · refine Or.inr ⟨?_, _, by simp [runSynth, hconv, hyosys, hrc']; rfl⟩
              rintro ⟨log, -, _, _, hdone, -⟩
              obtain ⟨rfl, -, -⟩ := RunOutcome.finished.inj (hyosys.symm.trans hdone)
              exact hrc' rfl
      · refine Or.inr ⟨?_, _, by simp [runSynth, hconv, hrc]; rfl⟩
        rintro ⟨log, ⟨_, _, hdone⟩, -⟩
        obtain ⟨rfl, -, -⟩ := RunOutcome.finished.inj (hconv.symm.trans hdone)
        exact hrc rfl

theorem Converted.unique {log log' : String} (h : Converted tools call log)
    (h' : Converted tools call log') : log = log' := by
  obtain ⟨-, stdout, stderr, hyosys, rfl⟩ := h
  obtain ⟨-, stdout', stderr', hyosys', rfl⟩ := h'
  obtain ⟨-, rfl, rfl⟩ := RunOutcome.finished.inj (hyosys.symm.trans hyosys')
  rfl

theorem Printed.unique {log : String} {cells cells' depth depth' : List Char}
    (h : Printed isalnum log cells depth) (h' : Printed isalnum log cells' depth') :
    cells = cells' ∧ depth = depth' :=
  ⟨Option.some.inj (h.cells.symm.trans h'.cells),
    List.singleton_inj.mp (Option.some.inj (h.depth.symm.trans h'.depth))⟩

/-- Reading the two numbers fails only on one that is too long. -/
theorem exists_readNumbers_iff {log : String} {cells depth : List Char}
    (h : Printed isalnum log cells depth) :
    (∃ r, (do
        let cells ← int cells
        let depth ← int depth
        .ok ⟨true, cells, depth, log⟩ : Except Exception SynthResult) = .ok r) ↔
      cells.length ≤ intMaxStrDigits ∧ depth.length ≤ intMaxStrDigits := by
  obtain ⟨hcells, hdepth⟩ := h.isDecimal
  rw [← exists_int_iff hcells, ← exists_int_iff hdepth]
  simp only [bind_eq_ok_iff]
  constructor
  · rintro ⟨r, n, hn, m, hm, -⟩
    exact ⟨⟨n, hn⟩, ⟨m, hm⟩⟩
  · rintro ⟨⟨n, hn⟩, ⟨m, hm⟩⟩
    exact ⟨_, n, hn, m, hm, rfl⟩

/-- `run_synth` reports unless a number it has to read is too long. -/
theorem runSynth_reports_iff :
    (∃ r, runSynth isalnum tools call = .ok r) ↔ SynthReportable isalnum tools call := by
  rcases runSynth_cases isalnum tools call with ⟨log, hconverted, hrun⟩ | ⟨hnone, log, hrun⟩
  · rw [hrun]
    rcases readSynth_cases isalnum log with ⟨cells, depth, hprinted, hread⟩ | ⟨hnone, hread⟩
    · rw [hread, exists_readNumbers_iff hprinted]
      constructor
      · intro hshort log' cells' depth' hconverted' hprinted'
        obtain rfl := hconverted.unique hconverted'
        obtain ⟨rfl, rfl⟩ := hprinted.unique hprinted'
        exact hshort
      · exact fun h => h log cells depth hconverted hprinted
    · rw [hread]
      refine iff_of_true ⟨_, rfl⟩ fun log' cells' depth' hconverted' hprinted' => ?_
      obtain rfl := hconverted.unique hconverted'
      exact absurd ⟨cells', depth', hprinted'⟩ hnone
  · rw [hrun]
    exact iff_of_true ⟨_, rfl⟩ fun log' _ _ hconverted _ => absurd ⟨log', hconverted⟩ hnone

variable (isalnum tools call) in
/-- The result is good exactly when both numbers are there to be read. -/
theorem runSynth_ok_iff :
    (∃ r, runSynth isalnum tools call = .ok r ∧ r.ok = true) ↔
      Synthesized isalnum tools call := by
  rcases runSynth_cases isalnum tools call with ⟨log, hconverted, hrun⟩ | ⟨hnone, log, hrun⟩
  · rw [hrun]
    rcases readSynth_cases isalnum log with ⟨cells, depth, hprinted, hread⟩ | ⟨hnone, hread⟩
    · have hok : (∃ r, readSynth isalnum log = .ok r ∧ r.ok = true) ↔
          ∃ r, readSynth isalnum log = .ok r := by
        rw [hread]
        refine exists_congr fun r => and_iff_left_of_imp fun hr => ?_
        obtain ⟨n, -, hr⟩ := bind_eq_ok_iff.mp hr
        obtain ⟨m, -, hr⟩ := bind_eq_ok_iff.mp hr
        obtain rfl := Except.ok.inj hr
        rfl
      rw [hok, hread, exists_readNumbers_iff hprinted]
      constructor
      · exact fun hshort => ⟨log, cells, depth, hconverted, hprinted, hshort⟩
      · rintro ⟨log', cells', depth', hconverted', hprinted', hshort⟩
        obtain rfl := hconverted.unique hconverted'
        obtain ⟨rfl, rfl⟩ := hprinted.unique hprinted'
        exact hshort
    · rw [hread]
      refine iff_of_false ?_ ?_
      · rintro ⟨r, hr, hok⟩
        obtain rfl := Except.ok.inj hr
        cases hok
      · rintro ⟨log', cells, depth, hconverted', hprinted, -⟩
        obtain rfl := hconverted.unique hconverted'
        exact hnone ⟨cells, depth, hprinted⟩
  · rw [hrun]
    refine iff_of_false ?_ fun ⟨log', _, _, hconverted, _⟩ => hnone ⟨log', hconverted⟩
    rintro ⟨r, hr, hok⟩
    obtain rfl := Except.ok.inj hr
    cases hok

/-! ## Tests -/

/-- The build ends, and the first summary line in its log counts no failure and
as many passed tests as tests, of which there are some. -/
def Passed (build : RunOutcome) : Prop :=
  ∃ rc stdout stderr groups n skipped, build = .finished rc stdout stderr ∧
    Pattern.search summaryRe (stdout ++ "\n" ++ stderr).toList = some groups ∧
    groups.mapM int = .ok [n, n, 0, skipped] ∧ 0 < n

theorem readSummary_passed_iff {groups : List (List Char)} {log : String} :
    (∃ r, readSummary groups log = .ok r ∧ r.passed = true) ↔
      ∃ n skipped, groups.mapM int = .ok [n, n, 0, skipped] ∧ 0 < n := by
  simp only [readSummary, bind_eq_ok_iff]
  constructor
  · rintro ⟨r, ⟨counts, hcounts, hr⟩, hpassed⟩
    split at hr
    · obtain rfl := Except.ok.inj hr
      rename_i total passed failed skipped
      simp only [verdict, Bool.and_eq_true, decide_eq_true_eq] at hpassed
      obtain ⟨⟨rfl, rfl⟩, hpos⟩ := hpassed
      exact ⟨passed, skipped, hcounts, hpos⟩
    · cases hr
  · rintro ⟨n, skipped, hcounts, hpos⟩
    exact ⟨_, ⟨_, hcounts, rfl⟩, by simp [verdict, hpos]⟩

theorem runTests_passed_iff (clean build : RunOutcome) :
    (∃ r, runTests clean build = .ok r ∧ r.passed = true) ↔ Passed build := by
  cases build with
  | timeoutExpired stdout stderr =>
      refine iff_of_false ?_ ?_
      · rintro ⟨r, hr, hpassed⟩
        obtain ⟨head, -, hr⟩ := bind_eq_ok_iff.mp hr
        obtain ⟨partialOutput, -, hr⟩ := bind_eq_ok_iff.mp hr
        obtain rfl := Except.ok.inj hr
        cases hpassed
      · rintro ⟨_, _, _, _, _, _, hbuild, -⟩
        cases hbuild
  | finished rc stdout stderr =>
      have hpassed : Passed (.finished rc stdout stderr) ↔
          ∃ groups, Pattern.search summaryRe (stdout ++ "\n" ++ stderr).toList = some groups ∧
            ∃ n skipped, groups.mapM int = .ok [n, n, 0, skipped] ∧ 0 < n := by
        constructor
        · rintro ⟨_, _, _, groups, n, skipped, hbuild, hsearch, hcounts, hpos⟩
          obtain ⟨rfl, rfl, rfl⟩ := RunOutcome.finished.inj hbuild
          exact ⟨groups, hsearch, n, skipped, hcounts, hpos⟩
        · rintro ⟨groups, hsearch, n, skipped, hcounts, hpos⟩
          exact ⟨rc, stdout, stderr, groups, n, skipped, rfl, hsearch, hcounts, hpos⟩
      rw [hpassed, runTests]
      cases hsearch : Pattern.search summaryRe (stdout ++ "\n" ++ stderr).toList with
      | none => simp
      | some groups =>
          simp only [Option.some.injEq, exists_eq_left']
          exact readSummary_passed_iff

/-! ## One evaluation -/

/-- What the subprocesses of one evaluation come to, and the temporary directory
of its synthesis. -/
structure Subprocesses where
  clean : RunOutcome
  build : RunOutcome
  tools : Tools
  tmp : String

/-- The machine the loop runs on: its repository, and what `str.isalnum` says. -/
structure Host where
  repo : String
  isalnum : Char → Bool

/-- The call of `run_synth` in `evaluate`. -/
def synthCall (host : Host) (target : Target) (params : Params) (x : Subprocesses) : SynthCall :=
  ⟨x.tmp, host.repo, target.deps ++ [target.rtl], target.name, params⟩

/-- The two remote calls in `evaluate`. -/
def Subprocesses.probe (host : Host) (target : Target) (params : Params) (x : Subprocesses) :
    Probe where
  tests := runTests x.clean x.build
  synth := runSynth host.isalnum x.tools (synthCall host target params x)

variable (host : Host) (target : Target)

/-- The evaluation comes back. -/
structure ComesBack (params : Params) (x : Subprocesses) : Prop where
  tests : Reportable x.build
  synth : Passed x.build → SynthReportable host.isalnum x.tools (synthCall host target params x)

/-- The design passes its tests and synthesizes. -/
structure Works (params : Params) (x : Subprocesses) : Prop where
  tests : Passed x.build
  synth : Synthesized host.isalnum x.tools (synthCall host target params x)

variable {host target} {params : Params} {x : Subprocesses}

/-- The two calls, one after the other. -/
theorem evaluate_eq_ok_iff {ev : Evaluation} :
    evaluate params (x.probe host target params) = .ok ev ↔
      ∃ r, runTests x.clean x.build = .ok r ∧
        (r.passed = false ∧ ⟨params, r, none⟩ = ev ∨ r.passed = true ∧ ∃ synth,
          runSynth host.isalnum x.tools (synthCall host target params x) = .ok synth ∧
            ⟨params, r, some synth⟩ = ev) := by
  refine bind_eq_ok_iff.trans (exists_congr fun r => and_congr_right fun _ => ?_)
  cases hpassed : r.passed with
  | false => simp
  | true => simp [bind_eq_ok_iff, Subprocesses.probe]

/-- Whether the tests passed does not depend on who asks. -/
theorem passed_iff_of_runTests {r : TestResult} (h : runTests x.clean x.build = .ok r) :
    Passed x.build ↔ r.passed = true := by
  rw [← runTests_passed_iff x.clean, h]
  simp

theorem comesBack_iff :
    (∃ ev, evaluate params (x.probe host target params) = .ok ev) ↔
      ComesBack host target params x := by
  constructor
  · rintro ⟨ev, hev⟩
    obtain ⟨r, hr, hcases⟩ := evaluate_eq_ok_iff.mp hev
    refine ⟨(exists_runTests_iff x.clean x.build).mp ⟨r, hr⟩, fun hpassed => ?_⟩
    rcases hcases with ⟨hfailed, -⟩ | ⟨-, synth, hsynth, -⟩
    · cases hfailed.symm.trans ((passed_iff_of_runTests hr).mp hpassed)
    · exact runSynth_reports_iff.mp ⟨synth, hsynth⟩
  · rintro ⟨htests, hsynth⟩
    obtain ⟨r, hr⟩ := (exists_runTests_iff x.clean x.build).mpr htests
    cases hpassed : r.passed with
    | false => exact ⟨_, evaluate_eq_ok_iff.mpr ⟨r, hr, Or.inl ⟨hpassed, rfl⟩⟩⟩
    | true =>
        obtain ⟨synth, hs⟩ :=
          runSynth_reports_iff.mpr (hsynth ((passed_iff_of_runTests hr).mpr hpassed))
        exact ⟨_, evaluate_eq_ok_iff.mpr ⟨r, hr, Or.inr ⟨hpassed, synth, hs, rfl⟩⟩⟩

/-- An evaluation that comes back is usable exactly when the design works. -/
theorem usable_iff {ev : Evaluation}
    (h : evaluate params (x.probe host target params) = .ok ev) :
    ev.usable = true ↔ Works host target params x := by
  obtain ⟨r, hr, hcases⟩ := evaluate_eq_ok_iff.mp h
  have hpassed := passed_iff_of_runTests hr
  rcases hcases with ⟨hfailed, rfl⟩ | ⟨htrue, synth, hsynth, rfl⟩
  · refine iff_of_false (by simp [Evaluation.usable]) fun hworks => ?_
    cases hfailed.symm.trans (hpassed.mp hworks.tests)
  · have hok := runSynth_ok_iff host.isalnum x.tools (synthCall host target params x)
    simp only [hsynth, Except.ok.injEq, exists_eq_left'] at hok
    rw [Evaluation.usable, htrue, Bool.true_and, Option.any_some, hok]
    exact ⟨fun hs => ⟨hpassed.mpr htrue, hs⟩, Works.synth⟩

theorem Works.comesBack (h : Works host target params x) : ComesBack host target params x := by
  obtain ⟨r, hr, -⟩ := (runTests_passed_iff x.clean x.build).mpr h.tests
  obtain ⟨synth, hsynth, -⟩ := (runSynth_ok_iff _ _ _).mpr h.synth
  exact ⟨(exists_runTests_iff x.clean x.build).mp ⟨r, hr⟩,
    fun _ => runSynth_reports_iff.mp ⟨synth, hsynth⟩⟩

/-! ## One attempt -/

/-- The verify point of a number. -/
def pointAt (target : Target) (points : List Params) (n : ℕ) : Params :=
  points.getD n target.params

/-- The probes of the evaluations at some verify points. -/
def verifyProbes (host : Host) (target : Target) (points : List Params) (xs : ℕ → Subprocesses) :
    ℕ → Probe :=
  fun n => (xs n).probe host target (pointAt target points n)

variable {points : List Params} {xs : ℕ → Subprocesses}

/-- One point, and the others if the design works there. -/
theorem checkVerifyPoints_cons_eq_ok_iff {results : List Evaluation} {fail : Option Evaluation} :
    checkVerifyPoints (params :: points) (verifyProbes host target (params :: points) xs) =
        .ok (results, fail) ↔
      ∃ ev, evaluate params ((xs 0).probe host target params) = .ok ev ∧
        (ev.usable = false ∧ results = [ev] ∧ fail = some ev ∨
          ev.usable = true ∧ ∃ rest, results = ev :: rest ∧
            checkVerifyPoints points (verifyProbes host target points fun n => xs (n + 1)) =
              .ok (rest, fail)) := by
  refine bind_eq_ok_iff.trans (exists_congr fun ev => and_congr_right fun _ => ?_)
  cases husable : ev.usable with
  | false => simp [eq_comm]
  | true =>
      simp only [Bool.not_true, Bool.false_eq_true, if_false, bind_eq_ok_iff]
      constructor
      · rintro ⟨⟨rest, fail'⟩, hrest, heq⟩
        obtain ⟨rfl, rfl⟩ := Prod.mk.inj (Except.ok.inj heq)
        exact Or.inr ⟨trivial, rest, rfl, hrest⟩
      · rintro (⟨hfalse, -⟩ | ⟨-, rest, rfl, hrest⟩)
        · cases hfalse
        · exact ⟨(rest, fail), hrest, rfl⟩

/-- They stop at the first point at which the design does not work. -/
theorem checkVerifyPoints_returns_iff :
    (∃ results, checkVerifyPoints points (verifyProbes host target points xs) = .ok results) ↔
      ∀ n < points.length, (∀ k < n, Works host target (pointAt target points k) (xs k)) →
        ComesBack host target (pointAt target points n) (xs n) := by
  induction points generalizing xs with
  | nil => simp [checkVerifyPoints]
  | cons params points ih =>
      have hsplit : (∀ n < (params :: points).length,
          (∀ k < n, Works host target (pointAt target (params :: points) k) (xs k)) →
            ComesBack host target (pointAt target (params :: points) n) (xs n)) ↔
          ComesBack host target params (xs 0) ∧ (Works host target params (xs 0) →
            ∀ n < points.length,
              (∀ k < n, Works host target (pointAt target points k) (xs (k + 1))) →
                ComesBack host target (pointAt target points n) (xs (n + 1))) := by
        rw [List.length_cons, Nat.forall_lt_succ_left]
        simp only [Nat.forall_lt_succ_left, Nat.not_lt_zero, false_imp_iff, forall_const, and_imp]
        exact and_congr_right fun _ => ⟨fun h hw n hn => h n hn hw, fun h n hn hw => h hw n hn⟩
      rw [hsplit, ← @ih fun n => xs (n + 1), ← comesBack_iff, Prod.exists]
      simp only [checkVerifyPoints_cons_eq_ok_iff]
      constructor
      · rintro ⟨results, fail, ev, hev, hcases⟩
        refine ⟨⟨ev, hev⟩, fun hworks => ?_⟩
        rcases hcases with ⟨hfalse, -⟩ | ⟨-, rest, -, hrest⟩
        · cases hfalse.symm.trans ((usable_iff hev).mpr hworks)
        · exact ⟨_, hrest⟩
      · rintro ⟨⟨ev, hev⟩, hothers⟩
        cases husable : ev.usable with
        | false => exact ⟨_, _, ev, hev, Or.inl ⟨husable, rfl, rfl⟩⟩
        | true =>
            obtain ⟨⟨rest, fail⟩, hrest⟩ := hothers ((usable_iff hev).mp husable)
            exact ⟨_, _, ev, hev, Or.inr ⟨husable, rest, rfl, hrest⟩⟩

/-- No point fails exactly when the design works at all of them. -/
theorem checkVerifyPoints_none_iff :
    (∃ results, checkVerifyPoints points (verifyProbes host target points xs) =
        .ok (results, none)) ↔
      ∀ n < points.length, Works host target (pointAt target points n) (xs n) := by
  induction points generalizing xs with
  | nil => simp [checkVerifyPoints]
  | cons params points ih =>
      have hsplit : (∀ n < (params :: points).length,
          Works host target (pointAt target (params :: points) n) (xs n)) ↔
          Works host target params (xs 0) ∧
            ∀ n < points.length, Works host target (pointAt target points n) (xs (n + 1)) :=
        Nat.forall_lt_succ_left
      rw [hsplit, ← @ih fun n => xs (n + 1)]
      simp only [checkVerifyPoints_cons_eq_ok_iff]
      constructor
      · rintro ⟨results, ev, hev, ⟨-, -, hfail⟩ | ⟨husable, rest, -, hrest⟩⟩
        · cases hfail
        · exact ⟨(usable_iff hev).mp husable, rest, hrest⟩
      · rintro ⟨hworks, rest, hrest⟩
        obtain ⟨ev, hev⟩ := comesBack_iff.mpr hworks.comesBack
        exact ⟨_, ev, hev, Or.inr ⟨(usable_iff hev).mpr hworks, rest, rfl, hrest⟩⟩

variable (host target) in
/-- The evaluations of an attempt, on what their subprocesses come to. -/
def judgeSubprocesses (x : Subprocesses) (xs : ℕ → Subprocesses) : Except Exception Judgement :=
  judge target (x.probe host target target.params)
    (verifyProbes host target target.verifyPoints xs)

theorem judgeSubprocesses_eq_ok_iff {j : Judgement} :
    judgeSubprocesses host target x xs = .ok j ↔
      ∃ ev, evaluate target.params (x.probe host target target.params) = .ok ev ∧
        (ev.usable = false ∧ ⟨ev, [], none⟩ = j ∨ ev.usable = true ∧ ∃ results fail,
          checkVerifyPoints target.verifyPoints
              (verifyProbes host target target.verifyPoints xs) = .ok (results, fail) ∧
            ⟨ev, results, fail⟩ = j) := by
  refine bind_eq_ok_iff.trans (exists_congr fun ev => and_congr_right fun _ => ?_)
  cases husable : ev.usable with
  | false => simp
  | true => simp [bind_eq_ok_iff]

/-- The evaluations of an attempt come back exactly when all those reached do: the
one at the primary point, and then each after points at which the design works. -/
theorem judge_returns_iff (host : Host) (target : Target) (x : Subprocesses)
    (xs : ℕ → Subprocesses) :
    (∃ j, judgeSubprocesses host target x xs = .ok j) ↔
      ComesBack host target target.params x ∧ (Works host target target.params x →
        ∀ n < target.verifyPoints.length,
          (∀ k < n, Works host target (pointAt target target.verifyPoints k) (xs k)) →
            ComesBack host target (pointAt target target.verifyPoints n) (xs n)) := by
  rw [← comesBack_iff, ← checkVerifyPoints_returns_iff]
  simp only [judgeSubprocesses_eq_ok_iff]
  constructor
  · rintro ⟨j, ev, hev, hcases⟩
    refine ⟨⟨ev, hev⟩, fun hworks => ?_⟩
    rcases hcases with ⟨hfalse, -⟩ | ⟨-, results, fail, hverify, -⟩
    · cases hfalse.symm.trans ((usable_iff hev).mpr hworks)
    · exact ⟨_, hverify⟩
  · rintro ⟨⟨ev, hev⟩, hverify⟩
    cases husable : ev.usable with
    | false => exact ⟨_, ev, hev, Or.inl ⟨husable, rfl⟩⟩
    | true =>
        obtain ⟨⟨results, fail⟩, hresults⟩ := hverify ((usable_iff hev).mp husable)
        exact ⟨_, ev, hev, Or.inr ⟨husable, results, fail, hresults, rfl⟩⟩

/-- An attempt is complete exactly when the design works at every parameter point
of the target. -/
theorem judge_complete_iff (host : Host) (target : Target) (x : Subprocesses)
    (xs : ℕ → Subprocesses) :
    (∃ j, judgeSubprocesses host target x xs = .ok j ∧ j.complete = true) ↔
      Works host target target.params x ∧ ∀ n < target.verifyPoints.length,
        Works host target (pointAt target target.verifyPoints n) (xs n) := by
  rw [← checkVerifyPoints_none_iff]
  simp only [judgeSubprocesses_eq_ok_iff]
  constructor
  · rintro ⟨j, ⟨ev, hev, ⟨hfalse, rfl⟩ | ⟨husable, results, fail, hverify, rfl⟩⟩, hcomplete⟩
    · simp [Judgement.complete, hfalse] at hcomplete
    · obtain rfl : fail = none := by simpa [Judgement.complete, husable] using hcomplete
      exact ⟨(usable_iff hev).mp husable, results, hverify⟩
  · rintro ⟨hworks, results, hverify⟩
    obtain ⟨ev, hev⟩ := comesBack_iff.mpr hworks.comesBack
    have husable := (usable_iff hev).mpr hworks
    exact ⟨_, ⟨ev, hev, Or.inr ⟨husable, results, none, hverify, rfl⟩⟩,
      by simp [Judgement.complete, husable]⟩

end AgentLoop
