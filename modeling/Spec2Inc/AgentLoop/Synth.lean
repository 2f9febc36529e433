import Spec2Inc.AgentLoop.Evaluate

/-!
# Synthesis, and the depth read from its log

`run_synth` converts the sources, runs yosys, and reads two numbers from the
log: the last cell count, and the length in the first line that `ltp` prints.
With one module that line is the design's. With helper modules `ltp` prints one
line for each, and the reported depth is the longest path exactly when the line
printed first has it (`runSynth_depth_iff`).
-/

open Python

namespace AgentLoop

abbrev synthTimeoutS : ℕ := 900

/-- `\w`: the underscore, and letters and digits. Outside ASCII these are what
`str.isalnum` says. -/
def isWord (isalnum : Char → Bool) (c : Char) : Bool :=
  c = '_' || c.isAlphanum || (128 ≤ c.toNat && isalnum c)

/-- `_CELLS_RE`. -/
def cellsRe : List (Pattern.LineItem Char) :=
  [.run isSpace, .group isDecimal, .run isSpace, .lit ['c', 'e', 'l', 'l', 's'],
    .optRun isSpace]

/-- How a line of `ltp` begins. -/
def pathPhrase : List Char :=
  ['L', 'o', 'n', 'g', 'e', 's', 't', ' ', 't', 'o', 'p', 'o', 'l', 'o', 'g', 'i', 'c', 'a',
    'l', ' ', 'p', 'a', 't', 'h', ' ', 'i', 'n', ' ']

/-- How it goes on after the name of the module. -/
def lengthPhrase : List Char := [' ', '(', 'l', 'e', 'n', 'g', 't', 'h', '=']

/-- `_LTP_RE`. -/
def ltpRe (isalnum : Char → Bool) : List (Pattern.Item Char) :=
  [.lit pathPhrase, .run (isWord isalnum), .lit lengthPhrase, .group isDecimal, .lit [')']]

/-- `_CELLS_RE.findall`: the one group of every match. -/
def cellsFound (log : List Char) : List (List Char) := (Pattern.findLines '\n' cellsRe log).flatten

/-- What the two commands come to. -/
structure Tools where
  sv2v : String → RunOutcome
  yosys : String → RunOutcome

/-- The arguments of `run_synth`, and its temporary directory. -/
structure SynthCall where
  tmp : String
  workdir : String
  sources : List String
  top : String
  params : Params

/-- `os.path.join(dir, name)`. -/
def joinPath (dir name : String) : String :=
  if name.startsWith "/" then name
  else if dir = "" || dir.endsWith "/" then dir ++ name
  else dir ++ "/" ++ name

def SynthCall.flat (call : SynthCall) : String := joinPath call.tmp "flat.v"

/-- The shell command that converts the sources to one file. -/
def SynthCall.conversion (call : SynthCall) : String :=
  let srcs := " ".intercalate (call.sources.map (joinPath call.workdir))
  s!"sv2v {srcs} > {call.flat}"

def SynthCall.chparam (call : SynthCall) : String :=
  String.join ((call.params.items.mergeSort fun p q => p.1 ≤ q.1).map fun p =>
    s!"chparam -set {p.1} {p.2} {call.top}; ")

def SynthCall.script (call : SynthCall) : String :=
  s!"read_verilog {call.flat}; {call.chparam}synth -top {call.top}; stat; ltp"

/-- The result read from the log of a yosys run that succeeded. -/
def readSynth (isalnum : Char → Bool) (log : String) : Except Exception SynthResult :=
  match (cellsFound log.toList).getLast?, Pattern.search (ltpRe isalnum) log.toList with
  | some cells, some depth => do
      let cells ← int cells
      let depth ← int (depth.headD [])
      .ok ⟨true, cells, depth, log⟩
  | _, _ => .ok ⟨false, 0, 0, log⟩

/-- `EvalNode.run_synth`. -/
def runSynth (isalnum : Char → Bool) (tools : Tools) (call : SynthCall) :
    Except Exception SynthResult :=
  match tools.sv2v call.conversion with
  | .timeoutExpired _ _ => .ok ⟨false, 0, 0, s!"sv2v timed out after {synthTimeoutS}s"⟩
  | .finished rc _ stderr =>
    if rc ≠ 0 then .ok ⟨false, 0, 0, "sv2v failed:\n" ++ stderr⟩
    else
      match tools.yosys call.script with
      | .timeoutExpired _ _ => .ok ⟨false, 0, 0, s!"yosys timed out after {synthTimeoutS}s"⟩
      | .finished rc stdout stderr =>
        let log := stdout ++ "\n" ++ stderr
        if rc ≠ 0 then .ok ⟨false, 0, 0, log⟩ else readSynth isalnum log

/-! ## What yosys prints -/

/-- The line `ltp` prints for a module whose name is a word. -/
structure PathLine (isalnum : Char → Bool) where
  name : List Char
  length : ℕ
  name_ne_nil : name ≠ []
  name_word : ∀ c ∈ name, isWord isalnum c = true
  printable : length < 10 ^ intMaxStrDigits

/-- A log with the lines of `ltp` in it: text without such a line, the line that
is printed first, and the others, each followed by any text. -/
structure Report (isalnum : Char → Bool) where
  lead : List Char
  quiet : ¬ pathPhrase <:+: lead
  first : PathLine isalnum
  after : List Char
  others : List (PathLine isalnum × List Char)

variable {isalnum : Char → Bool}

def PathLine.text (line : PathLine isalnum) : List Char :=
  pathPhrase ++ (line.name ++ (lengthPhrase ++ (Nat.toDigits 10 line.length ++ [')'])))

def Report.text (report : Report isalnum) : List Char :=
  report.lead ++ (report.first.text ++
    (report.after ++ report.others.flatMap fun p => p.1.text ++ p.2))

/-- The longest path over all the modules. -/
def Report.longest (report : Report isalnum) : ℕ :=
  (report.first.length :: report.others.map fun p => p.1.length).foldr max 0

/-- A candidate that synthesizes: both commands succeed, the log is the report,
and the counts in it end with the design's total. -/
structure Synthesizes (tools : Tools) (call : SynthCall) (report : Report isalnum)
    (total : ℕ) : Prop where
  converts : ∃ stdout stderr, tools.sv2v call.conversion = .finished 0 stdout stderr
  log_eq : ∃ stdout stderr, tools.yosys call.script = .finished 0 stdout stderr ∧
    (stdout ++ "\n" ++ stderr).toList = report.text
  cells_eq : (cellsFound report.text).getLast? = some (Nat.toDigits 10 total)
  printable : total < 10 ^ intMaxStrDigits

/-! ## The depth -/

theorem isWord_space : isWord isalnum ' ' = false := rfl

theorem PathLine.matchAt_text (line : PathLine isalnum) (rest : List Char) :
    Pattern.matchAt (ltpRe isalnum) (line.text ++ rest) =
      some [Nat.toDigits 10 line.length] := by
  have hclose : Pattern.matchAt [.lit [')']] ([')'] ++ rest) = some [] :=
    Pattern.matchAt_lit [')'] [] rest
  simp only [PathLine.text, List.append_assoc, ltpRe]
  rw [Pattern.matchAt_lit]
  refine Pattern.matchAt_run line.name_ne_nil line.name_word (forall_mem_head? isWord_space _) ?_
  rw [Pattern.matchAt_lit]
  exact matchAt_digits (forall_mem_head? rfl _) hclose

/-- The search stops at the line that is printed first. -/
theorem Report.search_text (report : Report isalnum) :
    Pattern.search (ltpRe isalnum) report.text =
      some [Nat.toDigits 10 report.first.length] := by
  have hword : Pattern.Unbordered pathPhrase := by decide
  have hfirst := report.first.matchAt_text
    (report.after ++ report.others.flatMap fun p => p.1.text ++ p.2)
  rw [Report.text]
  simp only [PathLine.text, List.append_assoc] at hfirst ⊢
  rw [ltpRe, Pattern.search_append_of_not_infix hword report.quiet]
  exact Pattern.search_eq_of_matchAt hfirst

theorem foldr_max_le_iff (l : List ℕ) (n : ℕ) : l.foldr max 0 ≤ n ↔ ∀ m ∈ l, m ≤ n := by
  induction l with
  | nil => simp
  | cons m l ih => rw [List.foldr_cons, Nat.max_le, ih, List.forall_mem_cons]

theorem Report.length_eq_longest_iff (report : Report isalnum) :
    report.first.length = report.longest ↔
      ∀ p ∈ report.others, p.1.length ≤ report.first.length := by
  have hle : report.first.length ≤ report.longest := Nat.le_max_left _ _
  rw [← List.forall_mem_map (P := fun n => n ≤ report.first.length), ← foldr_max_le_iff]
  constructor
  · intro h
    have hmax : (report.others.map fun p => p.1.length).foldr max 0 ≤ report.longest :=
      Nat.le_max_right _ _
    rwa [← h] at hmax
  · intro h
    exact Nat.le_antisymm hle (Nat.max_le.mpr ⟨Nat.le_refl _, h⟩)

/-- A candidate that synthesizes gets a depth, and it is the longest path of its
modules exactly when the module printed first has it. -/
theorem runSynth_depth_iff {tools : Tools} {call : SynthCall} {report : Report isalnum}
    {total : ℕ} (h : Synthesizes tools call report total) :
    ∃ r, runSynth isalnum tools call = .ok r ∧ r.ok = true ∧ r.cells = total ∧
      (r.depth = report.longest ↔
        ∀ p ∈ report.others, p.1.length ≤ report.first.length) := by
  obtain ⟨convOut, convErr, hconv⟩ := h.converts
  obtain ⟨stdout, stderr, hyosys, hlog⟩ := h.log_eq
  refine ⟨⟨true, total, report.first.length, stdout ++ "\n" ++ stderr⟩, ?_, rfl, rfl,
    report.length_eq_longest_iff⟩
  have hread : readSynth isalnum (stdout ++ "\n" ++ stderr) =
      .ok ⟨true, total, report.first.length, stdout ++ "\n" ++ stderr⟩ := by
    have htotal := int_toDigits h.printable
    have hdepth := int_toDigits report.first.printable
    simp only [readSynth, hlog, h.cells_eq, report.search_text, List.headD_cons, htotal, hdepth]
    rfl
  simp only [runSynth, hconv, hyosys, ne_eq, not_true_eq_false, if_false]
  exact hread

/-! ## A helper module -/

/-- The path line of a module of the sample design. -/
def samplePath (name : List Char) (length : ℕ) (hne : name ≠ [])
    (hword : ∀ c ∈ name, isWord (fun _ => false) c = true) (hlen : length < 10 ^ 1) :
    PathLine fun _ => false where
  name := name
  length := length
  name_ne_nil := hne
  name_word := hword
  printable := hlen.trans_le (Nat.pow_le_pow_right (by decide) (by decide))

/-- A design of depth nine with a helper of depth two, printed in either order. -/
def helperReport (helperFirst : Bool) : Report fun _ => false :=
  let helper := samplePath ['h'] 2 (by decide) (by simp [isWord]) (by decide)
  let top := samplePath ['t', 'o', 'p'] 9 (by decide) (by simp [isWord]) (by decide)
  { lead := ['\n', ' ', '4', ' ', 'c', 'e', 'l', 'l', 's', '\n', ' ', '7', ' ', 'c', 'e', 'l',
      'l', 's', '\n']
    quiet := by decide
    first := if helperFirst then helper else top
    after := ['\n']
    others := [(if helperFirst then top else helper, ['\n'])] }

/-- Tools that print the report. -/
def helperTools (helperFirst : Bool) : Tools where
  sv2v _ := .finished 0 "" ""
  yosys _ := .finished 0 (String.ofList ((helperReport helperFirst).text.dropLast)) ""

def helperCall : SynthCall :=
  ⟨"/tmp/synth", "/repo", defaultDeps ++ [reductionEngine.rtl], "top", reductionEngine.params⟩

theorem synthesizes_helper (helperFirst : Bool) :
    Synthesizes (helperTools helperFirst) helperCall (helperReport helperFirst) 7 where
  converts := ⟨"", "", rfl⟩
  log_eq := by
    refine ⟨_, _, rfl, ?_⟩
    cases helperFirst <;> simp [String.toList_append] <;> rfl
  cells_eq := by cases helperFirst <;> decide
  printable := (by decide : 7 < 10 ^ 1).trans_le (Nat.pow_le_pow_right (by decide) (by decide))

theorem runSynth_depth_iff_helperLast :
    ∃ r, runSynth (fun _ => false) (helperTools false) helperCall = .ok r ∧
      r.depth = (helperReport false).longest := by
  obtain ⟨r, hr, -, -, hdepth⟩ := runSynth_depth_iff (synthesizes_helper false)
  exact ⟨r, hr, hdepth.mpr (by decide)⟩

/-- Printed first, the helper hides the depth of the design from the score. -/
theorem helper_first_lowers_score :
    (helperReport true).longest = 9 ∧
      ∃ r, runSynth (fun _ => false) (helperTools true) helperCall = .ok r ∧
        r.depth ≠ (helperReport true).longest ∧
        score reductionEngine ⟨reductionEngine.params, ⟨true, 1, 0, ""⟩, some r⟩ = some 2 := by
  refine ⟨rfl, ⟨true, 7, 2, _⟩, rfl, ?_, rfl⟩
  decide

end AgentLoop
