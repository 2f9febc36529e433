import Spec2Inc.Python.Str
import Spec2Inc.Text.Pattern

/-!
# Measurements, and the verdict read from a log

The results of the evaluation nodes, and `run_tests`: two make invocations, the
log they leave, and the summary line searched in it. The search takes the first
match, so what a design prints before the summary line decides the verdict
whenever it matches the pattern; `Harmless` says which printed texts do not.
-/

open Python

namespace AgentLoop

/-- A parameter point. -/
abbrev Params : Type := Dict String ℕ

structure TestResult where
  passed : Bool
  testsRun : ℕ
  testsFailed : ℕ
  log : String
  deriving DecidableEq, Repr

def TestResult.summary (r : TestResult) : String :=
  if r.passed then
    s!"all {r.testsRun} tests passed"
  else if r.testsRun = 0 then
    "DID NOT COMPILE: no tests ran"
  else
    s!"{r.testsFailed} of {r.testsRun} tests FAILED"

structure SynthResult where
  ok : Bool
  cells : ℕ
  depth : ℕ
  log : String
  deriving DecidableEq, Repr

def SynthResult.summary (r : SynthResult) : String :=
  if r.ok then s!"cells={r.cells} logic_depth={r.depth}" else "synthesis FAILED"

/-- One full measurement of a candidate design, at one parameter point. -/
structure Evaluation where
  params : Params
  test : TestResult
  synth : Option SynthResult

/-- The tests passed, and the design synthesizes. -/
def Evaluation.usable (ev : Evaluation) : Bool :=
  ev.test.passed && ev.synth.any SynthResult.ok

/-! ## Running the tests -/

/-- What `subprocess.run` with `text=True` and a timeout comes to: the output
as text, or an exception whose partial output is absent or bytes. -/
inductive RunOutcome
  | finished (returncode : ℤ) (stdout stderr : String)
  | timeoutExpired (stdout stderr : Option (List UInt8))

/-- A value that is text or bytes. -/
inductive StrOrBytes
  | str (s : String)
  | bytes (b : List UInt8)

/-- `x or ""`. -/
def orEmpty : Option (List UInt8) → StrOrBytes
  | none | some [] => .str ""
  | some b => .bytes b

/-- `x + s`, for text `s`. -/
def appendStr : StrOrBytes → String → Except Exception String
  | .str x, s => .ok (x ++ s)
  | .bytes _, _ => .error (.typeError "can't concat str to bytes")

/-- `s + x`, for text `s`. -/
def strAppend : String → StrOrBytes → Except Exception String
  | s, .str x => .ok (s ++ x)
  | _, .bytes _ => .error (.typeError "can only concatenate str (not \"bytes\") to str")

abbrev buildTimeoutS : ℕ := 900

/-- `_SUMMARY_RE`. -/
def summaryRe : List (Pattern.Item Char) :=
  [.lit ['T', 'E', 'S', 'T', 'S', '='], .group isDecimal, .run isSpace,
    .lit ['P', 'A', 'S', 'S', '='], .group isDecimal, .run isSpace,
    .lit ['F', 'A', 'I', 'L', '='], .group isDecimal, .run isSpace,
    .lit ['S', 'K', 'I', 'P', '='], .group isDecimal]

/-- All tests passed, and there were some. -/
def verdict (total passed failed : ℕ) : Bool :=
  failed = 0 && passed = total && 0 < total

/-- The result read from the groups of a match. -/
def readSummary (groups : List (List Char)) (log : String) : Except Exception TestResult := do
  match ← groups.mapM int with
  | [total, passed, failed, _] => .ok ⟨verdict total passed failed, total, failed, log⟩
  | counts => .error (.valueError
      s!"not enough values to unpack (expected 4, got {counts.length})")

/-- `EvalNode.run_tests`, from the outcomes of `make clean` and `make`. A stuck
clean is ignored, as is the exit status of the build. -/
def runTests (_clean build : RunOutcome) : Except Exception TestResult :=
  match build with
  | .timeoutExpired stdout stderr => do
      let head ← appendStr (orEmpty stdout) "\n"
      let partialOutput ← strAppend head (orEmpty stderr)
      .ok ⟨false, 0, 0, s!"TIMED OUT after {buildTimeoutS}s -- the build or the " ++
        s!"simulation never finished.\n\n{partialOutput}"⟩
  | .finished _ stdout stderr =>
      let log := stdout ++ "\n" ++ stderr
      match Pattern.search summaryRe log.toList with
      | none => .ok ⟨false, 0, 0, log⟩
      | some groups => readSummary groups log

/-! ## Whether a result comes back -/

/-- The bytes are kept: the text they encode is part of the log. -/
def Keeps (log : String) (output : Option (List UInt8)) : Prop :=
  ∀ bytes ∈ output, ∃ text : String, text.toUTF8.data.toList = bytes ∧ contains log text = true

/-- A result comes back. After a build cut off by its time limit it is a failure
with no tests run, and its log keeps what the build had printed. -/
def AlwaysReports (clean build : RunOutcome) : Prop :=
  ∃ r, runTests clean build = .ok r ∧
    match build with
    | .timeoutExpired stdout stderr =>
      r.passed = false ∧ r.testsRun = 0 ∧ Keeps r.log stdout ∧ Keeps r.log stderr
    | .finished _ _ _ => True

/-- Nothing was printed. -/
def Silent (output : Option (List UInt8)) : Prop := output = none ∨ output = some []

/-- A build that printed nothing before its time limit, or one that ended and
whose first summary line, if there is one, has counts short enough for `int`. -/
def Reportable : RunOutcome → Prop
  | .timeoutExpired stdout stderr => Silent stdout ∧ Silent stderr
  | .finished _ stdout stderr =>
    ∀ groups, Pattern.search summaryRe (stdout ++ "\n" ++ stderr).toList = some groups →
      ∀ group ∈ groups, group.length ≤ intMaxStrDigits

theorem orEmpty_of_silent {output : Option (List UInt8)} (h : Silent output) :
    orEmpty output = .str "" := by
  rcases h with rfl | rfl <;> rfl

theorem exists_bytes_of_not_silent {output : Option (List UInt8)} (h : ¬ Silent output) :
    ∃ b, orEmpty output = .bytes b := by
  cases output with
  | none => exact absurd (Or.inl rfl) h
  | some b =>
      cases b with
      | nil => exact absurd (Or.inr rfl) h
      | cons x b => exact ⟨x :: b, rfl⟩

theorem keeps_of_silent (log : String) {output : Option (List UInt8)} (h : Silent output) :
    Keeps log output := by
  intro bytes hbytes
  rcases h with rfl | rfl
  · cases hbytes
  · obtain rfl := Option.some.inj hbytes
    exact ⟨"", rfl, by simp [contains]⟩

/-- The partial outputs are joined to text, which bytes are not. -/
theorem silent_of_runTests {clean : RunOutcome} {stdout stderr : Option (List UInt8)}
    {r : TestResult} (h : runTests clean (.timeoutExpired stdout stderr) = .ok r) :
    Silent stdout ∧ Silent stderr := by
  obtain ⟨head, hhead, h⟩ := bind_eq_ok_iff.mp h
  obtain ⟨partialOutput, hpartial, -⟩ := bind_eq_ok_iff.mp h
  refine ⟨not_not.mp fun hout => ?_, not_not.mp fun herr => ?_⟩
  · obtain ⟨b, hb⟩ := exists_bytes_of_not_silent hout
    rw [hb] at hhead
    cases hhead
  · obtain ⟨b, hb⟩ := exists_bytes_of_not_silent herr
    rw [hb] at hpartial
    cases hpartial

theorem runTests_of_silent (clean : RunOutcome) {stdout stderr : Option (List UInt8)}
    (hout : Silent stdout) (herr : Silent stderr) :
    ∃ log, runTests clean (.timeoutExpired stdout stderr) = .ok ⟨false, 0, 0, log⟩ := by
  rw [runTests, orEmpty_of_silent hout, orEmpty_of_silent herr]
  exact ⟨_, rfl⟩

/-- `int` reads a run of digits unless it is too long. -/
theorem exists_int_iff {s : List Char} (h : ∀ c ∈ s, isDecimal c = true) :
    (∃ n, int s = .ok n) ↔ s.length ≤ intMaxStrDigits := by
  rw [int]
  by_cases hlen : intMaxStrDigits < s.length
  · simp [hlen]
  · have hdigits : ∃ digits, s.mapM decimal? = some digits := by
      induction s with
      | nil => exact ⟨[], rfl⟩
      | cons c s ih =>
          obtain ⟨d, hd⟩ := Option.isSome_iff_exists.mp (h c List.mem_cons_self)
          obtain ⟨ds, hds⟩ := ih (fun c' hc' => h c' (List.mem_cons_of_mem _ hc'))
            (by simp only [List.length_cons] at hlen; omega)
          exact ⟨d :: ds, by rw [List.mapM_cons, hd, hds]; rfl⟩
    obtain ⟨digits, hdigits⟩ := hdigits
    simp [hlen, hdigits, Nat.le_of_not_lt hlen]

/-- Reading a matched summary line fails only on a count that is too long. -/
theorem exists_readSummary_iff {groups : List (List Char)}
    (h : List.Forall₂ (fun cls cap => ∀ c ∈ cap, cls c = true) (Pattern.classes summaryRe)
      groups) (log : String) :
    (∃ r, readSummary groups log = .ok r) ↔
      ∀ group ∈ groups, group.length ≤ intMaxStrDigits := by
  obtain ⟨total, passed, failed, skipped, rfl, htotal, hpassed, hfailed, hskipped⟩ :
      ∃ total passed failed skipped, groups = [total, passed, failed, skipped] ∧
        (∀ c ∈ total, isDecimal c = true) ∧ (∀ c ∈ passed, isDecimal c = true) ∧
        (∀ c ∈ failed, isDecimal c = true) ∧ ∀ c ∈ skipped, isDecimal c = true := by
    have hclasses : Pattern.classes summaryRe =
        [isDecimal, isDecimal, isDecimal, isDecimal] := rfl
    rw [hclasses] at h
    match h with
    | .cons h₁ (.cons h₂ (.cons h₃ (.cons h₄ .nil))) =>
        exact ⟨_, _, _, _, rfl, h₁, h₂, h₃, h₄⟩
  simp only [List.mem_cons, List.not_mem_nil, or_false, forall_eq_or_imp, forall_eq,
    ← exists_int_iff htotal, ← exists_int_iff hpassed, ← exists_int_iff hfailed,
    ← exists_int_iff hskipped]
  constructor
  · rintro ⟨r, hr⟩
    obtain ⟨counts, hcounts, -⟩ := bind_eq_ok_iff.mp hr
    simp only [List.mapM_cons, bind_eq_ok_iff] at hcounts
    obtain ⟨a, ha, -, ⟨b, hb, -, ⟨c, hc, -, ⟨d, hd, -⟩, -⟩, -⟩, -⟩ := hcounts
    exact ⟨⟨a, ha⟩, ⟨b, hb⟩, ⟨c, hc⟩, ⟨d, hd⟩⟩
  · rintro ⟨⟨a, ha⟩, ⟨b, hb⟩, ⟨c, hc⟩, ⟨d, hd⟩⟩
    refine ⟨⟨verdict a b c, a, c, log⟩, ?_⟩
    simp only [readSummary, List.mapM_cons, List.mapM_nil, ha, hb, hc, hd]
    rfl

/-- A result comes back exactly when the outcome is reportable. -/
theorem exists_runTests_iff (clean build : RunOutcome) :
    (∃ r, runTests clean build = .ok r) ↔ Reportable build := by
  cases build with
  | timeoutExpired stdout stderr =>
      constructor
      · rintro ⟨r, hr⟩
        exact silent_of_runTests hr
      · rintro ⟨hout, herr⟩
        obtain ⟨log, hlog⟩ := runTests_of_silent clean hout herr
        exact ⟨_, hlog⟩
  | finished rc stdout stderr =>
      rw [runTests, Reportable]
      cases hsearch : Pattern.search summaryRe (stdout ++ "\n" ++ stderr).toList with
      | none => simp
      | some groups =>
          simp only [Option.some.injEq, forall_eq']
          exact exists_readSummary_iff (Pattern.captures_of_search hsearch) _

/-- `run_tests` reports exactly on the reportable outcomes. -/
theorem runTests_reports_iff (clean build : RunOutcome) :
    AlwaysReports clean build ↔ Reportable build := by
  constructor
  · rintro ⟨r, hr, -⟩
    exact (exists_runTests_iff clean build).mp ⟨r, hr⟩
  · intro h
    cases build with
    | timeoutExpired stdout stderr =>
        -- Nothing was printed, so there is nothing the log could lose.
        obtain ⟨hout, herr⟩ := h
        obtain ⟨log, hlog⟩ := runTests_of_silent clean hout herr
        exact ⟨_, hlog, rfl, rfl, keeps_of_silent log hout, keeps_of_silent log herr⟩
    | finished rc stdout stderr =>
        obtain ⟨r, hr⟩ := (exists_runTests_iff clean _).mpr h
        exact ⟨r, hr, trivial⟩

/-- A build that is cut off after it has printed a letter. -/
theorem cut_off_build_raises :
    ¬ AlwaysReports (.finished 0 "" "") (.timeoutExpired (some [0x6d]) none) := by
  rintro ⟨r, hr, -⟩
  cases hr

/-! ## The genuine summary line -/

/-- What cocotb prints after the tests have ended. A count that can be printed
has no more digits than `int` reads. -/
structure SummaryLine where
  tests : ℕ
  pass : ℕ
  fail : ℕ
  skip : ℕ
  printable : ∀ n ∈ [tests, pass, fail, skip], n < 10 ^ intMaxStrDigits

def SummaryLine.text (line : SummaryLine) : String :=
  s!"TESTS={line.tests} PASS={line.pass} FAIL={line.fail} SKIP={line.skip}"

/-- The result is the one of the genuine line. -/
def Reports (line : SummaryLine) (r : Except Exception TestResult) : Prop :=
  ∃ log, r = .ok ⟨verdict line.tests line.pass line.fail, line.tests, line.fail, log⟩

/-- A text printed before the line is harmless: the pattern does not occur in
it, or it first occurs with readable counts that say what the line says. -/
def Harmless (line : SummaryLine) (printed : String) : Prop :=
  ∀ groups, Pattern.search summaryRe printed.toList = some groups →
    ∃ total passed failed skipped,
      groups.mapM int = .ok [total, passed, failed, skipped] ∧
      total = line.tests ∧ failed = line.fail ∧
      verdict total passed failed = verdict line.tests line.pass line.fail

/-- The digits of the line's counts. -/
def SummaryLine.groups (line : SummaryLine) : List (List Char) :=
  [Nat.toDigits 10 line.tests, Nat.toDigits 10 line.pass, Nat.toDigits 10 line.fail,
    Nat.toDigits 10 line.skip]

theorem SummaryLine.mapM_int_groups (line : SummaryLine) :
    line.groups.mapM int = .ok [line.tests, line.pass, line.fail, line.skip] := by
  have hprint := line.printable
  simp only [List.mem_cons, List.not_mem_nil, or_false, forall_eq_or_imp, forall_eq] at hprint
  obtain ⟨htests, hpass, hfail, hskip⟩ := hprint
  simp only [groups, List.mapM_cons, List.mapM_nil, int_toDigits htests, int_toDigits hpass,
    int_toDigits hfail, int_toDigits hskip]
  rfl

/-- A text that starts with a character outside a class. -/
theorem forall_mem_head? {p : Char → Bool} {c : Char} (h : p c = false) (s : List Char) :
    ∀ c' ∈ (c :: s).head?, p c' = false := by
  intro c' hc'
  obtain rfl := Option.some.inj hc'
  exact h

theorem matchAt_digits {n : ℕ} {p : List (Pattern.Item Char)} {s : List Char}
    {caps : List (List Char)} (hstop : ∀ c ∈ s.head?, isDecimal c = false)
    (h : Pattern.matchAt p s = some caps) :
    Pattern.matchAt (.group isDecimal :: p) (Nat.toDigits 10 n ++ s) =
      some (Nat.toDigits 10 n :: caps) :=
  Pattern.matchAt_group Nat.toDigits_ne_nil (fun _ hc => isDecimal_of_isDigit
    (Nat.isDigit_of_mem_toDigits (by decide) le_rfl hc)) hstop h

theorem matchAt_space {p : List (Pattern.Item Char)} {s : List Char}
    {caps : List (List Char)} (hstop : ∀ c ∈ s.head?, isSpace c = false)
    (h : Pattern.matchAt p s = some caps) :
    Pattern.matchAt (.run isSpace :: p) ([' '] ++ s) = some caps :=
  Pattern.matchAt_run (by simp) (fun c hc => by rw [List.mem_singleton.mp hc]; rfl) hstop h

theorem SummaryLine.toList_text (line : SummaryLine) :
    line.text.toList = ['T', 'E', 'S', 'T', 'S', '='] ++ (Nat.toDigits 10 line.tests ++
      ([' '] ++ (['P', 'A', 'S', 'S', '='] ++ (Nat.toDigits 10 line.pass ++
      ([' '] ++ (['F', 'A', 'I', 'L', '='] ++ (Nat.toDigits 10 line.fail ++
      ([' '] ++ (['S', 'K', 'I', 'P', '='] ++ Nat.toDigits 10 line.skip))))))))) := by
  have htests : "TESTS=".toList = ['T', 'E', 'S', 'T', 'S', '='] := by rfl
  have hpass : " PASS=".toList = [' ', 'P', 'A', 'S', 'S', '='] := by rfl
  have hfail : " FAIL=".toList = [' ', 'F', 'A', 'I', 'L', '='] := by rfl
  have hskip : " SKIP=".toList = [' ', 'S', 'K', 'I', 'P', '='] := by rfl
  simp [text, toString, htests, hpass, hfail, hskip]

/-- The pattern matches the line, and its groups are the line's counts. -/
theorem SummaryLine.matchAt_text (line : SummaryLine) {rest : List Char}
    (hrest : ∀ c ∈ rest.head?, isDecimal c = false) :
    Pattern.matchAt summaryRe (line.text.toList ++ rest) = some line.groups := by
  simp only [toList_text, List.append_assoc, summaryRe]
  rw [Pattern.matchAt_lit]
  refine matchAt_digits (forall_mem_head? rfl _) ?_
  refine matchAt_space (forall_mem_head? rfl _) ?_
  rw [Pattern.matchAt_lit]
  refine matchAt_digits (forall_mem_head? rfl _) ?_
  refine matchAt_space (forall_mem_head? rfl _) ?_
  rw [Pattern.matchAt_lit]
  refine matchAt_digits (forall_mem_head? rfl _) ?_
  refine matchAt_space (forall_mem_head? rfl _) ?_
  rw [Pattern.matchAt_lit]
  exact matchAt_digits hrest rfl

/-- What the design printed before the line is searched first. -/
theorem SummaryLine.search_text (line : SummaryLine) (printed : List Char) {rest : List Char}
    (hrest : ∀ c ∈ rest.head?, isDecimal c = false) :
    Pattern.search summaryRe (printed ++ line.text.toList ++ rest) =
      (Pattern.search summaryRe printed).or (some line.groups) := by
  have hmatch := Pattern.search_eq_of_matchAt (line.matchAt_text hrest)
  have hword : Pattern.Unbordered ['T', 'E', 'S', 'T', 'S', '='] := by decide
  have havoid : ∀ item ∈ summaryRe.tail, item.Avoids 'T' := by
    simp [summaryRe, Pattern.Item.Avoids]
    decide
  obtain ⟨t, ht⟩ : ∃ t, line.text.toList ++ rest = ['T', 'E', 'S', 'T', 'S', '='] ++ t :=
    ⟨_, by rw [toList_text, List.append_assoc]⟩
  rw [ht] at hmatch
  rw [List.append_assoc, ht, ← List.append_assoc]
  exact (Pattern.search_append hword havoid printed t).trans
    (congrArg (Option.or _) hmatch)

theorem reports_readSummary_iff (line : SummaryLine) (groups : List (List Char))
    (log : String) :
    Reports line (readSummary groups log) ↔ ∃ total passed failed skipped,
      groups.mapM int = .ok [total, passed, failed, skipped] ∧
      total = line.tests ∧ failed = line.fail ∧
      verdict total passed failed = verdict line.tests line.pass line.fail := by
  constructor
  · rintro ⟨log', h⟩
    obtain ⟨counts, hcounts, h⟩ := bind_eq_ok_iff.mp h
    match counts, h with
    | [total, passed, failed, skipped], h =>
        obtain ⟨hverdict, htotal, hfailed, -⟩ := TestResult.mk.inj (Except.ok.inj h)
        exact ⟨total, passed, failed, skipped, hcounts, htotal, hfailed, hverdict⟩
  · rintro ⟨total, passed, failed, skipped, hcounts, rfl, rfl, hverdict⟩
    refine ⟨log, ?_⟩
    rw [readSummary, hcounts, ← hverdict]
    rfl

/-- One run reports the genuine line exactly when the printed text is harmless. -/
theorem reports_runTests_iff (line : SummaryLine) (clean : RunOutcome) (rc : ℤ)
    (printed post stderr : String) (hpost : ∀ c ∈ post.toList.head?, isDecimal c = false) :
    Reports line (runTests clean (.finished rc (printed ++ line.text ++ post) stderr)) ↔
      Harmless line printed := by
  have hrest : ∀ c ∈ (post.toList ++ ['\n'] ++ stderr.toList).head?, isDecimal c = false := by
    cases hp : post.toList with
    | nil => exact forall_mem_head? rfl _
    | cons c cs => simpa [hp] using hpost
  have hlog : (printed ++ line.text ++ post ++ "\n" ++ stderr).toList =
      printed.toList ++ line.text.toList ++ (post.toList ++ ['\n'] ++ stderr.toList) := by
    simp [String.toList_append]
  have hsearch := line.search_text printed.toList hrest
  rw [← hlog] at hsearch
  rw [runTests, Harmless, hsearch]
  cases hfirst : Pattern.search summaryRe printed.toList with
  | none =>
      rw [Option.none_or]
      simp only [reduceCtorEq, false_implies, implies_true, iff_true]
      exact (reports_readSummary_iff line _ _).mpr
        ⟨_, _, _, _, line.mapM_int_groups, rfl, rfl, rfl⟩
  | some groups =>
      rw [Option.some_or]
      simp only [Option.some.injEq, forall_eq']
      exact reports_readSummary_iff line groups _

/-- The verdict is independent of what the design prints exactly when the
printed texts are harmless: for every genuine line and every two texts before
it, both runs report the line if and only if both texts are. -/
theorem verdict_independent_iff (line : SummaryLine) (clean₁ clean₂ : RunOutcome)
    (rc₁ rc₂ : ℤ) (printed₁ printed₂ post stderr : String)
    (hpost : ∀ c ∈ post.toList.head?, isDecimal c = false) :
    (Reports line (runTests clean₁ (.finished rc₁ (printed₁ ++ line.text ++ post) stderr)) ∧
        Reports line (runTests clean₂ (.finished rc₂ (printed₂ ++ line.text ++ post) stderr))) ↔
      Harmless line printed₁ ∧ Harmless line printed₂ :=
  and_congr (reports_runTests_iff line clean₁ rc₁ printed₁ post stderr hpost)
    (reports_runTests_iff line clean₂ rc₂ printed₂ post stderr hpost)

/-- Nine tests, of which six failed. -/
def failingLine : SummaryLine where
  tests := 9
  pass := 3
  fail := 6
  skip := 0
  printable n hn :=
    have hle : ∀ n ∈ [9, 3, 6, 0], n < 10 ^ 1 := by decide
    (hle n hn).trans_le (Nat.pow_le_pow_right (by decide) (by decide))

/-- One design prints a line in which the pattern does not occur, the other the
summary line as it will be. -/
theorem verdict_independent_iff_printing :
    Reports failingLine (runTests (.finished 0 "" "")
        (.finished 2 ("beat 7: PASS\n" ++ failingLine.text ++ " **") "")) ∧
      Reports failingLine (runTests (.finished 0 "" "")
        (.finished 2 ("TESTS=9 PASS=3 FAIL=6 SKIP=0\n" ++ failingLine.text ++ " **") "")) := by
  have hnone : Harmless failingLine "beat 7: PASS\n" := by
    intro groups hgroups
    cases hgroups
  have hsame : Harmless failingLine "TESTS=9 PASS=3 FAIL=6 SKIP=0\n" := by
    intro groups hgroups
    obtain rfl : [['9'], ['3'], ['6'], ['0']] = groups := Option.some.inj hgroups
    exact ⟨9, 3, 6, 0, rfl, rfl, rfl, rfl⟩
  exact (verdict_independent_iff failingLine (.finished 0 "" "") (.finished 0 "" "") 2 2
    "beat 7: PASS\n" "TESTS=9 PASS=3 FAIL=6 SKIP=0\n" " **" ""
    (forall_mem_head? rfl _)).mpr ⟨hnone, hsame⟩

/-- A design that prints a summary line of its own passes, where the genuine
line says that six of nine tests failed. -/
theorem printed_summary_wins :
    verdict failingLine.tests failingLine.pass failingLine.fail = false ∧
      ∃ log, runTests (.finished 0 "" "") (.finished 2
        ("TESTS=1 PASS=1 FAIL=0 SKIP=0\n" ++ failingLine.text ++ " **") "") =
        .ok ⟨true, 1, 0, log⟩ :=
  ⟨rfl, _, rfl⟩

end AgentLoop
