import Mathlib.Algebra.BigOperators.Group.Finset.Piecewise
import Mathlib.Algebra.BigOperators.Group.Finset.Sigma
import Spec2Inc.Bits.Bus
import Spec2Inc.Python.Exception
import Spec2Inc.Verif.ReqXbar.Codec

/-!
# The protocol monitor

`Harness.protocol` watches every sink for rules 2 and 3 of the channel
convention: a beat that is offered stays offered, unchanged, until it is taken.
It keeps the offered words in `held`. After every cycle these are the words
offered and refused in that cycle (`protocol_spec`), so each broken promise is
reported once, in the cycle after it was made.
-/

open Bits Python Spec2incPkg

namespace ReqXbar

/-- What one falling edge reads of the sink bus: `none` where a signal contains
X or Z. -/
structure Reading where
  valid : Option ℕ
  ready : Option ℕ
  words : Option ℕ

/-- The local dictionary of `protocol`, with the fields it appends to. -/
structure Monitor where
  held : Dict ℕ ℕ
  protocolErrors : List String
  offeredWhileBlocked : Bool

def Monitor.start : Monitor := ⟨Dict.empty, [], false⟩

/-- What is done about a sink whose offer was refused before. -/
def Monitor.checkHeld (d : ℕ) (v : Bool) (word : ℕ) (m : Monitor) : Monitor :=
  match m.held.get? d with
  | none => m
  | some old =>
    if v = false then
      { m with
        protocolErrors := m.protocolErrors ++ [s!"sink {d}: m_valid dropped before m_ready"]
        held := m.held.erase d }
    else if word ≠ old then
      { m with
        protocolErrors :=
          m.protocolErrors ++ [s!"sink {d}: m_req changed while waiting for m_ready"]
        held := m.held.set d word }
    else
      m

/-- The body of the loop over the sinks. -/
def Monitor.watchSink (valid ready words : ℕ) (m : Monitor) (d : ℕ) : Monitor :=
  let v := valid.testBit d
  let word := busWord reqW words d
  let m := m.checkHeld d v word
  if v && !ready.testBit d then
    { m with offeredWhileBlocked := true, held := m.held.setDefault d word }
  else if v && ready.testBit d then
    { m with held := m.held.erase d }
  else
    m

/-- One cycle. A reading with an unreadable signal is skipped. -/
def Monitor.watch (nPorts : ℕ) (m : Monitor) (r : Reading) : Monitor :=
  match r.valid, r.ready, r.words with
  | some valid, some ready, some words =>
    (List.range nPorts).foldl (Monitor.watchSink valid ready words) m
  | _, _, _ => m

/-- The coroutine, over the readings made while it is running. -/
def protocol (nPorts : ℕ) (readings : List Reading) : Monitor :=
  readings.foldl (Monitor.watch nPorts) Monitor.start

def checkProtocol (protocolErrors : List String) : Except Exception Unit :=
  let first := protocolErrors.headD ""
  assertThat (protocolErrors = [])
    s!"{protocolErrors.length} channel-protocol violation(s), e.g. {first}"

/-! ## The rules -/

/-- The sink bus in one cycle. -/
structure Sample where
  valid : ℕ
  ready : ℕ
  words : ℕ

namespace Sample

def reading (s : Sample) : Reading := ⟨some s.valid, some s.ready, some s.words⟩

/-- The word offered at sink `d`. -/
def word (s : Sample) (d : ℕ) : ℕ := busWord reqW s.words d

/-- Sink `d` is offered a beat and does not take it. -/
def Blocked (s : Sample) (d : ℕ) : Prop :=
  s.valid.testBit d = true ∧ s.ready.testBit d = false

instance (s : Sample) (d : ℕ) : Decidable (s.Blocked d) :=
  inferInstanceAs (Decidable (_ ∧ _))

/-- The beat refused at sink `d` in one cycle is gone or changed in the next. -/
def Violates (s next : Sample) (d : ℕ) : Prop :=
  s.Blocked d ∧ (next.valid.testBit d = false ∨ next.word d ≠ s.word d)

instance (s next : Sample) (d : ℕ) : Decidable (s.Violates next d) :=
  inferInstanceAs (Decidable (_ ∧ _))

end Sample

/-- Rules 2 and 3 over the first `T` cycles of a trace, at every sink. -/
structure ChannelRules (nPorts : ℕ) (trace : ℕ → Sample) (T : ℕ) : Prop where
  rule2 : ∀ t d, t + 1 < T → d < nPorts → (trace t).Blocked d →
    (trace (t + 1)).valid.testBit d = true
  rule3 : ∀ t d, t + 1 < T → d < nPorts → (trace t).Blocked d →
    (trace (t + 1)).word d = (trace t).word d

/-- The cycles and sinks at which a rule is broken. -/
def violations (nPorts : ℕ) (trace : ℕ → Sample) (T : ℕ) : Finset (ℕ × ℕ) :=
  (Finset.range (T - 1) ×ˢ Finset.range nPorts).filter fun p =>
    (trace p.1).Violates (trace (p.1 + 1)) p.2

theorem violations_eq_empty_iff {nPorts : ℕ} {trace : ℕ → Sample} {T : ℕ} :
    violations nPorts trace T = ∅ ↔ ChannelRules nPorts trace T := by
  rw [violations, Finset.filter_eq_empty_iff]
  constructor
  · intro h
    have hkeep : ∀ t d, t + 1 < T → d < nPorts → (trace t).Blocked d →
        (trace (t + 1)).valid.testBit d = true ∧
          (trace (t + 1)).word d = (trace t).word d := by
      intro t d ht hd hblocked
      have hnot := @h (t, d) (Finset.mem_product.mpr
        ⟨Finset.mem_range.mpr (by omega), Finset.mem_range.mpr hd⟩)
      rw [Sample.Violates, not_and, not_or] at hnot
      obtain ⟨hvalid, hword⟩ := hnot hblocked
      exact ⟨by simpa using hvalid, not_not.mp hword⟩
    exact
      { rule2 := fun t d ht hd hb => (hkeep t d ht hd hb).1
        rule3 := fun t d ht hd hb => (hkeep t d ht hd hb).2 }
  · rintro h ⟨t, d⟩ hp ⟨hblocked, hbroken⟩
    obtain ⟨ht, hd⟩ := Finset.mem_product.mp hp
    rw [Finset.mem_range] at ht hd
    have ht' : t + 1 < T := by
      have : t < T - 1 := ht
      omega
    rcases hbroken with hvalid | hword
    · have hstays := h.rule2 t d ht' hd hblocked
      rw [hvalid] at hstays
      cases hstays
    · exact hword (h.rule3 t d ht' hd hblocked)

/-! ## One sink -/

/-- A held word is broken by what the sink now offers. -/
def Monitor.Breaks (m : Monitor) (d : ℕ) (v : Bool) (word : ℕ) : Prop :=
  ∃ old ∈ m.held.get? d, v = false ∨ word ≠ old

instance (m : Monitor) (d : ℕ) (v : Bool) (word : ℕ) : Decidable (m.Breaks d v word) :=
  inferInstanceAs (Decidable (∃ old ∈ _, _))

/-- What looking at the word held for sink `d` does: an error is appended exactly
when the word is broken, and a word still held is the one now offered. -/
structure Monitor.Checked (m m' : Monitor) (d : ℕ) (v : Bool) (word : ℕ) : Prop where
  length : m'.protocolErrors.length =
    m.protocolErrors.length + if m.Breaks d v word then 1 else 0
  offeredWhileBlocked : m'.offeredWhileBlocked = m.offeredWhileBlocked
  other : ∀ d', d' ≠ d → m'.held.get? d' = m.held.get? d'
  self : m'.held.get? d = if v = true then (m.held.get? d).map fun _ => word else none

theorem Monitor.checkHeld_spec (m : Monitor) (d : ℕ) (v : Bool) (word : ℕ) :
    m.Checked (m.checkHeld d v word) d v word := by
  cases hget : m.held.get? d with
  | none =>
      constructor
      · simp [Monitor.checkHeld, Monitor.Breaks, hget]
      · simp [Monitor.checkHeld, hget]
      · simp [Monitor.checkHeld, hget]
      · simp [Monitor.checkHeld, hget]
  | some old =>
      by_cases hv : v = false
      · constructor
        · simp [Monitor.checkHeld, Monitor.Breaks, hget, hv]
        · simp [Monitor.checkHeld, hget, hv]
        · intro d' hd
          simp [Monitor.checkHeld, hget, hv, Dict.get?_erase, hd]
        · simp [Monitor.checkHeld, hget, hv, Dict.get?_erase]
      · by_cases hword : word = old
        · constructor
          · simp [Monitor.checkHeld, Monitor.Breaks, hget, hv, hword]
          · simp [Monitor.checkHeld, hget, hv, hword]
          · simp [Monitor.checkHeld, hget, hv, hword]
          · simp [Monitor.checkHeld, hget, hv, hword]
        · constructor
          · simp [Monitor.checkHeld, Monitor.Breaks, hget, hv, hword]
          · simp [Monitor.checkHeld, hget, hv, hword]
          · intro d' hd
            simp [Monitor.checkHeld, hget, hv, hword, Dict.get?_set_of_ne, hd]
          · simp [Monitor.checkHeld, hget, hv, hword]

section

variable (s : Sample) (m : Monitor) (d : ℕ)

/-- The monitor after looking at sink `d`. -/
def Monitor.atSink : Monitor := m.watchSink s.valid s.ready s.words d

theorem Monitor.length_atSink :
    (m.atSink s d).protocolErrors.length = m.protocolErrors.length +
      if m.Breaks d (s.valid.testBit d) (s.word d) then 1 else 0 := by
  rw [← (m.checkHeld_spec d _ _).length, Monitor.atSink, Monitor.watchSink]
  split
  · rfl
  · split <;> rfl

theorem Monitor.offeredWhileBlocked_atSink :
    (m.atSink s d).offeredWhileBlocked = true ↔
      m.offeredWhileBlocked = true ∨ s.Blocked d := by
  have hkeep := (m.checkHeld_spec d (s.valid.testBit d) (s.word d)).offeredWhileBlocked
  rw [Monitor.atSink, Monitor.watchSink, Sample.Blocked]
  cases hv : s.valid.testBit d <;> cases hr : s.ready.testBit d <;>
    simp [hv, Sample.word] at hkeep ⊢ <;> exact hkeep

theorem Monitor.get?_atSink_of_ne {d' : ℕ} (h : d' ≠ d) :
    (m.atSink s d).held.get? d' = m.held.get? d' := by
  rw [← (m.checkHeld_spec d (s.valid.testBit d) (s.word d)).other d' h, Monitor.atSink,
    Monitor.watchSink]
  split
  · exact Dict.get?_setDefault_of_ne _ h _
  · split
    · rw [Dict.get?_erase, if_neg h]
      rfl
    · rfl

/-- Whatever was held, what is held now is the word offered and refused. -/
theorem Monitor.get?_atSink_self :
    (m.atSink s d).held.get? d = if s.Blocked d then some (s.word d) else none := by
  have hself := (m.checkHeld_spec d (s.valid.testBit d) (s.word d)).self
  rw [Monitor.atSink, Monitor.watchSink]
  cases hv : s.valid.testBit d with
  | false =>
      rw [hv] at hself
      simpa [Sample.Blocked, Sample.word, hv] using hself
  | true =>
      cases hr : s.ready.testBit d with
      | true => simp [Sample.Blocked, hv, hr, Dict.get?_erase]
      | false =>
          rw [hv, if_pos rfl] at hself
          simp only [Sample.Blocked, hv, hr, Bool.not_false, Bool.and_self, if_true, and_self,
            Dict.get?_setDefault_self]
          change some (((m.checkHeld d true (s.word d)).held.get? d).getD (s.word d)) = _
          rw [hself]
          cases m.held.get? d <;> rfl

end

/-! ## One cycle -/

/-- The held words that a reading breaks. -/
def Monitor.broken (m : Monitor) (s : Sample) (nPorts : ℕ) : Finset ℕ :=
  (Finset.range nPorts).filter fun d => m.Breaks d (s.valid.testBit d) (s.word d)

theorem Monitor.watch_reading (nPorts : ℕ) (m : Monitor) (s : Sample) :
    m.watch nPorts s.reading = (List.range nPorts).foldl (fun m d => m.atSink s d) m :=
  rfl

/-- One cycle: what is held below `nPorts` is what the reading refuses, and there
is one more error for each held word it breaks. -/
theorem Monitor.watch_spec (nPorts : ℕ) (m : Monitor) (s : Sample) :
    (∀ d, (m.watch nPorts s.reading).held.get? d =
      if d < nPorts then (if s.Blocked d then some (s.word d) else none) else m.held.get? d) ∧
    (m.watch nPorts s.reading).protocolErrors.length =
      m.protocolErrors.length + (m.broken s nPorts).card ∧
    ((m.watch nPorts s.reading).offeredWhileBlocked = true ↔
      m.offeredWhileBlocked = true ∨ ∃ d < nPorts, s.Blocked d) := by
  rw [Monitor.watch_reading]
  induction nPorts with
  | zero => simp [Monitor.broken]
  | succ n ih =>
      obtain ⟨hheld, hlen, hoffered⟩ := ih
      rw [List.range_succ, List.foldl_append, List.foldl_cons, List.foldl_nil]
      set m' := (List.range n).foldl (fun m d => m.atSink s d) m
      have hsame : m'.held.get? n = m.held.get? n := by
        rw [hheld, if_neg (Nat.lt_irrefl n)]
      refine ⟨fun d => ?_, ?_, ?_⟩
      · by_cases hd : d = n
        · subst hd
          rw [Monitor.get?_atSink_self, if_pos (Nat.lt_succ_self d)]
        · rw [Monitor.get?_atSink_of_ne s m' n hd, hheld]
          simp only [Nat.lt_succ_iff_lt_or_eq, hd, or_false]
      · have hbreaks : m'.Breaks n (s.valid.testBit n) (s.word n) ↔
            m.Breaks n (s.valid.testBit n) (s.word n) := by
          rw [Monitor.Breaks, Monitor.Breaks, hsame]
        rw [Monitor.length_atSink, hlen, Nat.add_assoc, Monitor.broken, Monitor.broken,
          Finset.range_add_one, Finset.filter_insert]
        by_cases hb : m.Breaks n (s.valid.testBit n) (s.word n)
        · rw [if_pos (hbreaks.mpr hb), if_pos hb, Finset.card_insert_of_notMem (by simp)]
        · rw [if_neg fun h => hb (hbreaks.mp h), if_neg hb, Nat.add_zero]
      · rw [Monitor.offeredWhileBlocked_atSink, hoffered, or_assoc]
        refine or_congr_right ⟨?_, ?_⟩
        · rintro (⟨d, hd, hblocked⟩ | hblocked)
          · exact ⟨d, Nat.lt_succ_of_lt hd, hblocked⟩
          · exact ⟨n, Nat.lt_succ_self n, hblocked⟩
        · rintro ⟨d, hd, hblocked⟩
          rcases Nat.lt_succ_iff_lt_or_eq.mp hd with hd | rfl
          · exact Or.inl ⟨d, hd, hblocked⟩
          · exact Or.inr hblocked

/-! ## A run -/

section

variable (nPorts : ℕ) (trace : ℕ → Sample)

/-- The monitor after the first `T` cycles of a trace. -/
def monitored (T : ℕ) : Monitor :=
  protocol nPorts ((List.range T).map fun t => (trace t).reading)

theorem monitored_succ (T : ℕ) :
    monitored nPorts trace (T + 1) =
      (monitored nPorts trace T).watch nPorts (trace T).reading := by
  simp [monitored, protocol, List.range_succ]

/-- After a cycle, `held` is what was offered and refused in it. -/
theorem get?_held_monitored (T d : ℕ) :
    (monitored nPorts trace (T + 1)).held.get? d =
      if d < nPorts ∧ (trace T).Blocked d then some ((trace T).word d) else none := by
  rw [monitored_succ, (Monitor.watch_spec nPorts _ (trace T)).1]
  by_cases hd : d < nPorts
  · simp [hd]
  · have hout : ∀ T, (monitored nPorts trace T).held.get? d = none := by
      intro T
      induction T with
      | zero => rfl
      | succ T ih => rw [monitored_succ, (Monitor.watch_spec nPorts _ _).1, if_neg hd, ih]
    simp [hd, hout]

/-- So a held word is broken exactly where a rule is. -/
theorem broken_monitored (T : ℕ) :
    (monitored nPorts trace (T + 1)).broken (trace (T + 1)) nPorts =
      (Finset.range nPorts).filter fun d => (trace T).Violates (trace (T + 1)) d := by
  refine Finset.filter_congr fun d hd => ?_
  have hd : d < nPorts := Finset.mem_range.mp hd
  rw [Monitor.Breaks, get?_held_monitored, Sample.Violates]
  by_cases hb : (trace T).Blocked d
  · simp [hd, hb]
  · simp [hb]

theorem card_violations_succ (T : ℕ) :
    (violations nPorts trace (T + 2)).card = (violations nPorts trace (T + 1)).card +
      ((Finset.range nPorts).filter fun d => (trace T).Violates (trace (T + 1)) d).card := by
  have hcard : ∀ T, (violations nPorts trace (T + 1)).card = ∑ t ∈ Finset.range T,
      ((Finset.range nPorts).filter fun d => (trace t).Violates (trace (t + 1)) d).card := by
    intro T
    simp only [violations, Finset.card_filter, Finset.sum_product, Nat.add_sub_cancel]
  rw [hcard, hcard, Finset.sum_range_succ]

theorem length_protocolErrors_monitored (T : ℕ) :
    (monitored nPorts trace T).protocolErrors.length = (violations nPorts trace T).card := by
  induction T with
  | zero => rfl
  | succ T ih =>
      rw [monitored_succ, (Monitor.watch_spec nPorts _ (trace T)).2.1, ih]
      cases T with
      | zero => simp [Monitor.broken, Monitor.Breaks, monitored, protocol, Monitor.start,
          violations]
      | succ T => rw [broken_monitored, card_violations_succ]

theorem offeredWhileBlocked_monitored (T : ℕ) :
    (monitored nPorts trace T).offeredWhileBlocked = true ↔
      ∃ t < T, ∃ d < nPorts, (trace t).Blocked d := by
  induction T with
  | zero => simp [monitored, protocol, Monitor.start]
  | succ T ih =>
      rw [monitored_succ, (Monitor.watch_spec nPorts _ (trace T)).2.2, ih]
      simp only [Nat.lt_succ_iff_lt_or_eq, or_and_right, exists_or, exists_eq_left]

/-- On a readable trace the monitor reports each broken rule once, so
`check_protocol` passes exactly when the channel rules hold throughout. -/
theorem protocol_counts_violations (T : ℕ) :
    (monitored nPorts trace T).protocolErrors.length = (violations nPorts trace T).card ∧
      (checkProtocol (monitored nPorts trace T).protocolErrors = .ok () ↔
        ChannelRules nPorts trace T) ∧
      ((monitored nPorts trace T).offeredWhileBlocked = true ↔
        ∃ t < T, ∃ d < nPorts, (trace t).Blocked d) := by
  have hlen := length_protocolErrors_monitored nPorts trace T
  refine ⟨hlen, ?_, offeredWhileBlocked_monitored nPorts trace T⟩
  rw [checkProtocol, assertThat_eq_ok_iff, ← List.length_eq_zero_iff, hlen, Finset.card_eq_zero,
    violations_eq_empty_iff]

end

end ReqXbar
