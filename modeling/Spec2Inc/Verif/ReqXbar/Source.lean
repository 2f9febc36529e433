import Spec2Inc.Bits.Bus
import Spec2Inc.Verif.ReqXbar.Traffic

/-!
# The source driver

`Harness.source` presents its beats one after another and records each as sent
when it is taken. The coroutine is a machine that waits for clock edges: `Wait`
says where it stands, `rising` and `falling` what it does when an edge wakes it.
In cycle `t`, from rising edge `t` to the next, the bus carries what all the
sources have driven, and a beat on it is transferred when `s_ready` is sampled
high at the falling edge. The ledger is what was transferred, as long as halt is
not raised at the very edge that ends a transfer (`source_ledger_iff`).
-/

open Bits Spec2incPkg

namespace ReqXbar

/-! ## The bus -/

/-- The lists `_words` and `_valid`, shared by all the sources. -/
structure Lines where
  words : ℕ → ℕ
  valid : ℕ → Bool

namespace Lines

/-- What `_drive` puts on `s_req`. -/
def sReq (nSrc : ℕ) (l : Lines) : ℕ := busOf reqW nSrc l.words

/-- What `_drive` puts on `s_valid`. -/
def sValid (nSrc : ℕ) (l : Lines) : ℕ :=
  ((List.range nSrc).map fun s => (l.valid s).toNat <<< s).sum

theorem busWord_sReq {nSrc : ℕ} {l : Lines} (hfit : ∀ s < nSrc, l.words s < 2 ^ reqW) {s : ℕ}
    (hs : s < nSrc) : busWord reqW (l.sReq nSrc) s = l.words s :=
  busWord_busOf hfit hs

theorem testBit_sValid {nSrc : ℕ} (l : Lines) {s : ℕ} (hs : s < nSrc) :
    (l.sValid nSrc).testBit s = l.valid s := by
  have hfit : ∀ k < nSrc, (l.valid k).toNat < 2 ^ 1 := fun k _ => Bool.toNat_lt _
  have hbus : l.sValid nSrc = busOf 1 nSrc fun s => (l.valid s).toNat := by
    rw [← sum_shiftLeft_eq_busOf hfit]
    simp only [sValid, Nat.mul_one]
  have hbit : (busWord 1 (l.sValid nSrc) s).testBit 0 = (l.sValid nSrc).testBit s := by
    rw [testBit_busWord, Nat.mul_one, Nat.add_zero]
    rfl
  rw [← hbit, hbus, busWord_busOf hfit hs]
  cases l.valid s <;> rfl

end Lines

/-! ## The coroutine -/

/-- Where `source` waits for a clock edge, with the beats it has yet to send. -/
inductive Wait
  /-- The first rising edge. -/
  | align (beats : List Beat)
  /-- The falling edge of an idle cycle before `beat`. -/
  | gapFall (beat : Beat) (rest : List Beat)
  /-- The rising edge that ends it. -/
  | gapRise (beat : Beat) (rest : List Beat)
  /-- The falling edge at which `s_ready` is sampled for `beat`. -/
  | offered (beat : Beat) (rest : List Beat)
  /-- The rising edge after it. -/
  | sampled (taken : Bool) (beat : Beat) (rest : List Beat)
  | returned

/-- The coroutine with its entries of `_words`, `_valid`, `sent` and `accepted`. -/
structure Source where
  wait : Wait
  word : ℕ
  valid : Bool
  sent : List Beat
  accepted : ℕ

/-- `ready is not None and (ready >> idx) & 1`. -/
def takenAt (idx : ℕ) : Option ℕ → Bool
  | none => false
  | some ready => ready.testBit idx

namespace Source

/-- The entries of a fresh harness. -/
def idle : Source := ⟨.returned, 0, false, [], 0⟩

/-- Calling `source` runs it up to its first edge. -/
def call (beats : List Beat) (s : Source) : Source := { s with wait := .align beats }

/-- The last two statements: release the bus and return. -/
def leave (s : Source) : Source := { s with valid := false, wait := .returned }

/-- The test of the gap loop: idle for a cycle, or present the beat. -/
def present (gap : Bool) (beat : Beat) (rest : List Beat) (s : Source) : Source :=
  if gap then { s with wait := .gapFall beat rest }
  else { s with wait := .offered beat rest, word := beat.word, valid := true }

/-- The head of the loop over the beats. -/
def next (halt gap : Bool) (beats : List Beat) (s : Source) : Source :=
  match beats with
  | [] => s.leave
  | beat :: rest => if halt then s.leave else s.present gap beat rest

/-- Record a beat as sent, and drop valid. -/
def record (beat : Beat) (s : Source) : Source :=
  { s with sent := s.sent ++ [beat], accepted := s.accepted + 1, valid := false }

/-- What a falling edge does, given the sample of `s_ready`. -/
def falling (idx : ℕ) (sReady : Option ℕ) (s : Source) : Source :=
  match s.wait with
  | .gapFall beat rest => { s with wait := .gapRise beat rest }
  | .offered beat rest => { s with wait := .sampled (takenAt idx sReady) beat rest }
  | _ => s

/-- What a rising edge does, given the halt flag and the outcome of the random
draw if the gap loop makes one. -/
def rising (halt gap : Bool) (s : Source) : Source :=
  match s.wait with
  | .align beats => s.next halt gap beats
  | .gapRise beat rest => s.present gap beat rest
  | .sampled taken beat rest =>
    if taken || halt then
      if halt then s.leave else (s.record beat).next halt gap rest
    else
      { s with wait := .offered beat rest }
  | _ => s

/-- From one cycle to the next. -/
def cycle (idx : ℕ) (sReady : Option ℕ) (halt gap : Bool) (s : Source) : Source :=
  (s.falling idx sReady).rising halt gap

end Source

/-- What surrounds one source: the entries of the others in every cycle, which
are words of beats, and the samples, draws and halt flag it meets. -/
structure Around (nSrc : ℕ) where
  idx : ℕ
  idx_lt : idx < nSrc
  others : ℕ → Lines
  word_lt : ∀ t s, (others t).words s < 2 ^ reqW
  sReady : ℕ → Option ℕ
  halt : ℕ → Bool
  gap : ℕ → Bool

section Run

variable {nSrc : ℕ} (A : Around nSrc) (beats : List Beat)

/-- The source in cycle `t`, which begins with rising edge `t`. -/
def Around.source : ℕ → Source
  | 0 => (Source.idle.call beats).rising (A.halt 0) (A.gap 0)
  | t + 1 => (Around.source t).cycle A.idx (A.sReady t) (A.halt (t + 1)) (A.gap (t + 1))

/-- The shared lists in cycle `t`. -/
def Around.lines (t : ℕ) : Lines where
  words := Function.update (A.others t).words A.idx (A.source beats t).word
  valid := Function.update (A.others t).valid A.idx (A.source beats t).valid

/-- The source's bit of `s_valid` in cycle `t`. -/
def Around.sValid (t : ℕ) : Bool := ((A.lines beats t).sValid nSrc).testBit A.idx

/-- The source's word on `s_req` in cycle `t`. -/
def Around.sWord (t : ℕ) : ℕ := busWord reqW ((A.lines beats t).sReq nSrc) A.idx

/-- The DUT takes the source's beat at the end of cycle `t`. -/
def Around.transfer (t : ℕ) : Bool := A.sValid beats t && takenAt A.idx (A.sReady t)

/-- The words transferred before cycle `T`, in order. -/
def Around.transferred (T : ℕ) : List ℕ :=
  ((List.range T).filter (A.transfer beats)).map (A.sWord beats)

/-- The ledger after rising edge `T`, against the bus in the cycles before it. -/
structure Around.LedgerExact (T : ℕ) : Prop where
  sent_prefix : (A.source beats T).sent <+: beats
  sent_eq : (A.source beats T).sent.map Beat.word = A.transferred beats T
  accepted_eq : (A.source beats T).accepted = (A.source beats T).sent.length
  /-- The beat offered is the first one not yet taken. -/
  offers_next : ∀ t ≤ T, A.sValid beats t = true →
    ∃ b, beats[(A.transferred beats t).length]? = some b ∧ A.sWord beats t = b.word
  /-- Until taken or halted it stays offered, unchanged. -/
  stays : ∀ t < T, A.sValid beats t = true → A.transfer beats t = false →
    A.halt (t + 1) = false →
      A.sValid beats (t + 1) = true ∧ A.sWord beats (t + 1) = A.sWord beats t

end Run

/-! ## What the source keeps -/

namespace Source

/-- The ledger of a source that has recorded every transfer. -/
structure Ledger (moved : List ℕ) (s : Source) : Prop where
  sent : s.sent.map Beat.word = moved
  accepted : s.accepted = s.sent.length

/-- What a source keeps from cycle to cycle. While it is running it has recorded
every transfer, none of which ended with halt raised (`unhalted`). It returns
the same way, or else at a transfer it did not record. -/
def Keeps (beats : List Beat) (moved : List ℕ) (unhalted : Prop) (s : Source) : Prop :=
  match s.wait with
  | .gapFall beat rest =>
    s.valid = false ∧ s.sent ++ beat :: rest = beats ∧ s.Ledger moved ∧ unhalted
  | .offered beat rest =>
    s.valid = true ∧ s.word = beat.word ∧ s.sent ++ beat :: rest = beats ∧ s.Ledger moved ∧
      unhalted
  | .returned =>
    s.valid = false ∧ s.sent <+: beats ∧ s.accepted = s.sent.length ∧
      (unhalted ∧ s.sent.map Beat.word = moved ∨ ¬ unhalted ∧ s.sent.length < moved.length)
  | _ => False

variable {beats : List Beat} {moved : List ℕ} {unhalted : Prop} {s : Source}

theorem Ledger.leave (h : s.Ledger moved) (hpre : s.sent <+: beats) (hun : unhalted) :
    Keeps beats moved unhalted s.leave :=
  ⟨rfl, hpre, h.accepted, Or.inl ⟨hun, h.sent⟩⟩

theorem Ledger.present (h : s.Ledger moved) {beat : Beat} {rest : List Beat}
    (hbeats : s.sent ++ beat :: rest = beats) (hvalid : s.valid = false) (hun : unhalted)
    (gap : Bool) : Keeps beats moved unhalted (s.present gap beat rest) := by
  cases gap with
  | true => exact ⟨hvalid, hbeats, ⟨h.sent, h.accepted⟩, hun⟩
  | false => exact ⟨rfl, rfl, hbeats, ⟨h.sent, h.accepted⟩, hun⟩

theorem Ledger.next (h : s.Ledger moved) {rest : List Beat} (hbeats : s.sent ++ rest = beats)
    (hvalid : s.valid = false) (hun : unhalted) (halt gap : Bool) :
    Keeps beats moved unhalted (s.next halt gap rest) := by
  have hpre : s.sent <+: beats := ⟨rest, hbeats⟩
  cases rest with
  | nil => exact h.leave hpre hun
  | cons beat rest =>
      cases halt with
      | true => exact h.leave hpre hun
      | false => exact h.present hbeats hvalid hun gap

theorem Ledger.record (h : s.Ledger moved) (beat : Beat) :
    (s.record beat).Ledger (moved ++ [beat.word]) where
  sent := by
    change (s.sent ++ [beat]).map Beat.word = _
    rw [List.map_append, h.sent]
    rfl
  accepted := by
    change s.accepted + 1 = (s.sent ++ [beat]).length
    rw [List.length_append, h.accepted]
    rfl

theorem keeps_start (halt gap : Bool) :
    Keeps beats [] True ((idle.call beats).rising halt gap) :=
  Ledger.next (s := idle.call beats) ⟨rfl, rfl⟩ rfl rfl trivial halt gap

/-! What one cycle does, wait by wait. -/

section Cycle

variable {idx : ℕ} {sReady : Option ℕ} {halt gap : Bool} {beat : Beat} {rest : List Beat}

theorem cycle_of_returned (hwait : s.wait = .returned) : s.cycle idx sReady halt gap = s := by
  simp [Source.cycle, Source.falling, Source.rising, hwait]

theorem cycle_of_align (hwait : s.wait = .align rest) :
    s.cycle idx sReady halt gap = s.next halt gap rest := by
  simp [Source.cycle, Source.falling, Source.rising, hwait]

theorem cycle_of_gapFall (hwait : s.wait = .gapFall beat rest) :
    s.cycle idx sReady halt gap = s.present gap beat rest := by
  simp [Source.cycle, Source.falling, Source.rising, hwait, Source.present]

/-- A raised halt ends the loop, whether or not the beat was taken. -/
theorem cycle_of_halted (hwait : s.wait = .offered beat rest) :
    s.cycle idx sReady true gap = s.leave := by
  simp [Source.cycle, Source.falling, Source.rising, hwait, Source.leave]

theorem cycle_of_taken (hwait : s.wait = .offered beat rest)
    (htaken : takenAt idx sReady = true) :
    s.cycle idx sReady false gap = (s.record beat).next false gap rest := by
  simp [Source.cycle, Source.falling, Source.rising, hwait, htaken, Source.record, Source.next,
    Source.leave, Source.present]

/-- A refused beat is offered again. -/
theorem cycle_of_refused (hwait : s.wait = .offered beat rest)
    (htaken : takenAt idx sReady = false) : s.cycle idx sReady false gap = s := by
  simp only [Source.cycle, Source.falling, Source.rising, hwait, htaken, Bool.or_self,
    Bool.false_eq_true, if_false]
  rw [← hwait]

end Cycle

/-- One cycle: what is on the bus moves if it is taken, and is recorded unless
halt is raised at the edge that ends the cycle. -/
theorem Keeps.cycle (h : Keeps beats moved unhalted s) (idx : ℕ) (sReady : Option ℕ)
    (halt gap : Bool) :
    Keeps beats (moved ++ if (s.valid && takenAt idx sReady) = true then [s.word] else [])
      (unhalted ∧ ((s.valid && takenAt idx sReady) = true → halt = false))
      (s.cycle idx sReady halt gap) := by
  rw [Keeps] at h
  cases hwait : s.wait with
  | align beats => simp [hwait] at h
  | gapRise beat rest => simp [hwait] at h
  | sampled taken beat rest => simp [hwait] at h
  | returned =>
      simp only [hwait] at h
      obtain ⟨hvalid, hpre, haccepted, hlost⟩ := h
      rw [cycle_of_returned hwait, Keeps]
      simpa [hwait, hvalid, haccepted] using And.intro hpre hlost
  | gapFall beat rest =>
      simp only [hwait] at h
      obtain ⟨hvalid, hbeats, hledger, hun⟩ := h
      have hkeeps := hledger.present hbeats hvalid hun gap
      simpa [cycle_of_gapFall hwait, hvalid] using hkeeps
  | offered beat rest =>
      simp only [hwait] at h
      obtain ⟨hvalid, hword, hbeats, hledger, hun⟩ := h
      cases halt with
      | true =>
          rw [cycle_of_halted hwait]
          cases htaken : takenAt idx sReady with
          | true =>
              -- The DUT has the beat, and the loop is left without recording it.
              have hlength : moved.length = s.sent.length := by
                rw [← hledger.sent, List.length_map]
              refine ⟨rfl, ⟨_, hbeats⟩, hledger.accepted, Or.inr ⟨?_, ?_⟩⟩
              · simp [hvalid]
              · change s.sent.length < _
                simp [hvalid, hlength]
          | false => simpa using hledger.leave ⟨_, hbeats⟩ hun
      | false =>
          cases htaken : takenAt idx sReady with
          | true =>
              have hbeats' : (s.record beat).sent ++ rest = beats := by
                rw [← hbeats]
                exact List.append_assoc _ _ _
              have hkeeps := (hledger.record beat).next hbeats' rfl hun false gap
              simpa [cycle_of_taken hwait htaken, hvalid, hword] using hkeeps
          | false =>
              rw [cycle_of_refused hwait htaken, Keeps]
              simp only [hwait]
              exact ⟨hvalid, hword, hbeats, by simpa using hledger, hun, by simp⟩

theorem Keeps.offered_of_valid (h : Keeps beats moved unhalted s) (hvalid : s.valid = true) :
    ∃ beat rest, s.wait = .offered beat rest ∧ s.word = beat.word ∧
      s.sent ++ beat :: rest = beats ∧ s.Ledger moved := by
  rw [Keeps] at h
  cases hwait : s.wait with
  | offered beat rest =>
      simp only [hwait] at h
      exact ⟨beat, rest, rfl, h.2.1, h.2.2.1, h.2.2.2.1⟩
  | align _ => simp [hwait] at h
  | gapFall _ _ => simp [hwait, hvalid] at h
  | gapRise _ _ => simp [hwait] at h
  | sampled _ _ _ => simp [hwait] at h
  | returned => simp [hwait, hvalid] at h

/-- What the three cases have in common. -/
theorem Keeps.common (h : Keeps beats moved unhalted s) :
    s.sent <+: beats ∧ s.accepted = s.sent.length ∧
      (unhalted ∧ s.sent.map Beat.word = moved ∨
        ¬ unhalted ∧ s.sent.length < moved.length) := by
  rw [Keeps] at h
  cases hwait : s.wait with
  | offered beat rest =>
      simp only [hwait] at h
      obtain ⟨-, -, hbeats, hledger, hun⟩ := h
      exact ⟨⟨_, hbeats⟩, hledger.accepted, Or.inl ⟨hun, hledger.sent⟩⟩
  | gapFall beat rest =>
      simp only [hwait] at h
      obtain ⟨-, hbeats, hledger, hun⟩ := h
      exact ⟨⟨_, hbeats⟩, hledger.accepted, Or.inl ⟨hun, hledger.sent⟩⟩
  | returned =>
      simp only [hwait] at h
      exact h.2
  | align _ => simp [hwait] at h
  | gapRise _ _ => simp [hwait] at h
  | sampled _ _ _ => simp [hwait] at h

theorem Keeps.sent_eq (h : Keeps beats moved unhalted s) (hun : unhalted) :
    s.sent.map Beat.word = moved := by
  rcases h.common.2.2 with ⟨-, hsent⟩ | ⟨hnot, -⟩
  · exact hsent
  · exact absurd hun hnot

theorem Keeps.length_lt (h : Keeps beats moved unhalted s) (hun : ¬ unhalted) :
    s.sent.length < moved.length := by
  rcases h.common.2.2 with ⟨hyes, -⟩ | ⟨-, hlt⟩
  · exact absurd hyes hun
  · exact hlt

/-- The word driven is always the word of some beat, or the initial zero. -/
theorem word_lt_rising (halt gap : Bool) (h : s.word < 2 ^ reqW) :
    (s.rising halt gap).word < 2 ^ reqW := by
  have hpresent : ∀ (s : Source) (gap : Bool) (beat : Beat) (rest : List Beat),
      s.word < 2 ^ reqW → (s.present gap beat rest).word < 2 ^ reqW := by
    intro s gap beat rest hs
    cases gap with
    | true => exact hs
    | false => exact pack_lt beat.fields
  have hnext : ∀ (s : Source) (beats : List Beat),
      s.word < 2 ^ reqW → (s.next halt gap beats).word < 2 ^ reqW := by
    intro s beats hs
    cases beats with
    | nil => exact hs
    | cons beat rest =>
        cases halt with
        | true => exact hs
        | false => exact hpresent s gap beat rest hs
  rw [Source.rising]
  cases s.wait with
  | align beats => exact hnext s beats h
  | gapRise beat rest => exact hpresent s gap beat rest h
  | sampled taken beat rest =>
      change (if taken || halt then _ else _ : Source).word < _
      split
      · split
        · exact h
        · exact hnext (s.record beat) rest h
      · exact h
  | gapFall beat rest => exact h
  | offered beat rest => exact h
  | returned => exact h

theorem word_falling (s : Source) (idx : ℕ) (sReady : Option ℕ) :
    (s.falling idx sReady).word = s.word := by
  rw [Source.falling]
  cases s.wait <;> rfl

end Source

/-! ## The ledger against the bus -/

section Run

variable {nSrc : ℕ} (A : Around nSrc) (beats : List Beat)

theorem Around.word_lt_source (t : ℕ) : (A.source beats t).word < 2 ^ reqW := by
  induction t with
  | zero => exact Source.word_lt_rising _ _ (Nat.two_pow_pos _)
  | succ t ih =>
      refine Source.word_lt_rising _ _ ?_
      rw [Source.word_falling]
      exact ih

theorem Around.sValid_eq (t : ℕ) : A.sValid beats t = (A.source beats t).valid := by
  rw [Around.sValid, Lines.testBit_sValid _ A.idx_lt]
  exact Function.update_self _ _ _

theorem Around.sWord_eq (t : ℕ) : A.sWord beats t = (A.source beats t).word := by
  have hfit : ∀ s < nSrc, (A.lines beats t).words s < 2 ^ reqW := by
    intro s _
    change Function.update (A.others t).words A.idx (A.source beats t).word s < 2 ^ reqW
    by_cases hs : s = A.idx
    · subst hs
      rw [Function.update_self]
      exact A.word_lt_source beats t
    · rw [Function.update_of_ne hs]
      exact A.word_lt t s
  rw [Around.sWord, Lines.busWord_sReq hfit A.idx_lt]
  exact Function.update_self _ _ _

theorem Around.transferred_succ (T : ℕ) :
    A.transferred beats (T + 1) = A.transferred beats T ++
      if A.transfer beats T = true then [A.sWord beats T] else [] := by
  rw [Around.transferred, List.range_succ, List.filter_append, List.map_append,
    List.filter_singleton]
  by_cases h : A.transfer beats T = true <;> simp [Around.transferred, h]

/-- No transfer before cycle `T` ends with halt raised. -/
def Around.Unhalted (T : ℕ) : Prop :=
  ∀ t < T, A.transfer beats t = true → A.halt (t + 1) = false

theorem Around.unhalted_succ (T : ℕ) :
    A.Unhalted beats (T + 1) ↔
      A.Unhalted beats T ∧ (A.transfer beats T = true → A.halt (T + 1) = false) := by
  simp only [Around.Unhalted, Nat.lt_succ_iff_lt_or_eq, or_imp, forall_and, forall_eq]

/-- The run lemma. -/
theorem Around.keeps (T : ℕ) :
    (A.source beats T).Keeps beats (A.transferred beats T) (A.Unhalted beats T) := by
  induction T with
  | zero =>
      have hun : A.Unhalted beats 0 := fun t ht => absurd ht (Nat.not_lt_zero t)
      rw [eq_true hun]
      exact Source.keeps_start (A.halt 0) (A.gap 0)
  | succ T ih =>
      have hstep := ih.cycle A.idx (A.sReady T) (A.halt (T + 1)) (A.gap (T + 1))
      rw [A.transferred_succ, A.unhalted_succ, Around.transfer, A.sValid_eq, A.sWord_eq]
      exact hstep

/-- While a beat is on the bus, it is the first one that was not transferred. -/
theorem Around.offers_next {t : ℕ} (h : A.sValid beats t = true) :
    ∃ b, beats[(A.transferred beats t).length]? = some b ∧ A.sWord beats t = b.word := by
  rw [A.sValid_eq] at h
  obtain ⟨beat, rest, -, hword, hbeats, hledger⟩ := (A.keeps beats t).offered_of_valid h
  have hlength : (A.transferred beats t).length = (A.source beats t).sent.length := by
    rw [← hledger.sent, List.length_map]
  refine ⟨beat, ?_, by rw [A.sWord_eq, hword]⟩
  calc beats[(A.transferred beats t).length]?
      = ((A.source beats t).sent ++ beat :: rest)[(A.source beats t).sent.length]? := by
        rw [hlength, hbeats]
    _ = some beat := by simp

/-- Until it is taken or halt is raised, it stays there unchanged. -/
theorem Around.stays {t : ℕ} (h : A.sValid beats t = true)
    (htransfer : A.transfer beats t = false) (hhalt : A.halt (t + 1) = false) :
    A.sValid beats (t + 1) = true ∧ A.sWord beats (t + 1) = A.sWord beats t := by
  have htaken : takenAt A.idx (A.sReady t) = false := by
    rwa [Around.transfer, h, Bool.true_and] at htransfer
  rw [A.sValid_eq] at h
  obtain ⟨beat, rest, hwait, -⟩ := (A.keeps beats t).offered_of_valid h
  have hcycle : A.source beats (t + 1) = A.source beats t := by
    rw [Around.source, hhalt]
    exact Source.cycle_of_refused hwait htaken
  rw [A.sValid_eq, A.sWord_eq, A.sWord_eq, hcycle]
  exact ⟨h, rfl⟩

/-- The ledger is exactly what the DUT took, in every run and at every cycle, as
long as halt is not raised at the edge that ends a transfer. -/
theorem source_ledger_iff (T : ℕ) :
    A.LedgerExact beats T ↔
      ∀ t < T, A.transfer beats t = true → A.halt (t + 1) = false := by
  have hkeeps := A.keeps beats T
  constructor
  · intro h
    by_contra hlost
    have hlt := hkeeps.length_lt hlost
    rw [← h.sent_eq, List.length_map] at hlt
    exact Nat.lt_irrefl _ hlt
  · intro h
    exact
      { sent_prefix := hkeeps.common.1
        sent_eq := hkeeps.sent_eq h
        accepted_eq := hkeeps.common.2.1
        offers_next := fun t _ hvalid => A.offers_next beats hvalid
        stays := fun t _ hvalid htransfer hhalt => A.stays beats hvalid htransfer hhalt }

end Run

/-- One beat on a bus of its own, always ready, with halt raised at rising edge 1. -/
def haltedAround : Around 1 where
  idx := 0
  idx_lt := Nat.one_pos
  others _ := ⟨fun _ => 0, fun _ => false⟩
  word_lt _ _ := Nat.two_pow_pos _
  sReady _ := some 1
  halt t := decide (1 ≤ t)
  gap _ := false

/-- The beat is taken in cycle 0, and the ledger stays empty. -/
theorem halted_source_misses_transfer :
    ¬ haltedAround.LedgerExact [Beat.make 0 0 0x33 0xC000 0 0 reqWrite] 1 := by
  intro h
  have hlength := congrArg List.length h.sent_eq
  revert hlength
  decide

end ReqXbar
