import Spec2Inc.Verif.ReqXbar.Sinks
import Spec2Inc.Verif.ReqXbar.Source

/-!
# The starvation test

`a_greedy_source_cannot_starve_another` keeps one source offering beats and asks
whether another gets its own through. Its inner coroutine calls `source` once for
each beat, and the new call waits for the next rising edge before it offers
anything, so the greedy source's valid bit is low in the whole cycle after each
transfer. The contention is continuous exactly as long as the greedy source is
never served (`applies_contention_iff`).
-/

open Python

namespace ReqXbar

abbrev victim : ℕ := 1

abbrev greedy : ℕ := 0

def victimBeats : List Beat :=
  (List.range 4).map fun i => .make victim 0 0x5A (0x7000 + i) 1 i reqWrite

def greedyBeat (i : ℕ) : Beat := .make greedy 0 0x0B (0x9000 + i) 1 0 reqWrite

/-! ## The coroutines -/

/-- `greedy_forever`: its counter, and the call of `source` it awaits. -/
structure Greedy where
  i : ℕ
  source : Source
  stopped : Bool

namespace Greedy

/-- The first call, waiting for its first edge. -/
def start : Greedy := ⟨0, Source.idle.call [greedyBeat 0], false⟩

/-- A rising edge. When the call returns, the next one is made at once, unless
the harness has stopped running. -/
def rising (running : Bool) (g : Greedy) : Greedy :=
  if g.stopped then g
  else
    let source := g.source.rising false false
    match source.wait with
    | .returned =>
      if running then ⟨g.i + 1, source.call [greedyBeat (g.i + 1)], false⟩
      else ⟨g.i, source, true⟩
    | _ => { g with source := source }

/-- From one cycle to the next. -/
def cycle (sReady : Option ℕ) (running : Bool) (g : Greedy) : Greedy :=
  { g with source := g.source.falling greedy sReady }.rising running

end Greedy

section Run

variable (running : ℕ → Bool) (sReady : ℕ → Option ℕ)

/-- The greedy coroutine in cycle `t`, which begins with rising edge `t`. -/
def greedyAt : ℕ → Greedy
  | 0 => Greedy.start.rising (running 0)
  | t + 1 => (greedyAt t).cycle (sReady t) (running (t + 1))

/-- The victim's call of `source`, made after rising edge 0. -/
def victimAt : ℕ → Source
  | 0 => Source.idle.call victimBeats
  | t + 1 => (victimAt t).cycle victim (sReady t) false false

/-- The shared lists: no other source is driven in this test. -/
def starvationLines (t : ℕ) : Lines where
  words s :=
    if s = greedy then (greedyAt running sReady t).source.word
    else if s = victim then (victimAt sReady t).word else 0
  valid s :=
    if s = greedy then (greedyAt running sReady t).source.valid
    else if s = victim then (victimAt sReady t).valid else false

/-- The bit of source `s` on `s_valid` in cycle `t`. -/
def offers (nPorts t s : ℕ) : Bool :=
  ((starvationLines running sReady t).sValid (nPorts + 2)).testBit s

/-- `delivered.done()` in cycle `t`. -/
def deliveredDone (t : ℕ) : Bool :=
  match (victimAt sReady t).wait with
  | .returned => true
  | _ => false

/-- The cycle in which the polling loop ends. -/
def stopCycle : ℕ := ((List.range 1500).find? (deliveredDone sReady)).getD 1500

/-- What the monitors read: they start with cycle 0, and read the sink bus for the
last time 80 cycles after the loop has ended. -/
def starvationReadings (reading : ℕ → Reading) : List Reading :=
  (List.range (stopCycle sReady + 81)).map reading

/-- The beats of the victim that have arrived at sink 0. -/
def fromVictim (nPorts : ℕ) (reading : ℕ → Reading) : List Fields :=
  ((Sinks.watched nPorts (starvationReadings sReady reading)).seen.getD 0 []).filter fun b =>
    b .src = victim ∧ b .tag = 0x5A

/-- The test after the loop. -/
def starvationTest (nPorts : ℕ) (reading : ℕ → Reading) : Except Exception Unit := do
  assertThat (deliveredDone sReady (stopCycle sReady) = true)
    (s!"source {victim} never got its {victimBeats.length} beats through " ++
      s!"while source {greedy} offered continuously -- it is starved")
  let arrived := fromVictim sReady nPorts reading
  assertThat (arrived.length = victimBeats.length)
    (s!"{arrived.length} of {victimBeats.length} victim beats reached the " ++
      "sink, so acceptance was not delivery")
  checkProtocol (protocol nPorts (starvationReadings sReady reading)).protocolErrors

/-- Before cycle `T`, the crossbar takes no beat of the victim in a cycle in
which the greedy source offers one too. -/
def PrefersGreedy (nPorts T : ℕ) : Prop :=
  ∀ t < T, offers running sReady nPorts t greedy = true →
    offers running sReady nPorts t victim = true → takenAt victim (sReady t) = false

/-- The harness is running up to cycle `t`. -/
def RunningUntil (t : ℕ) : Prop := ∀ u ≤ t, running u = true

/-- What the test is for: the greedy source offers a beat in every cycle while
the harness is running, so a crossbar that prefers it serves the victim nothing
and is rejected, whatever is read of the sinks. -/
structure AppliesContention (nPorts : ℕ) : Prop where
  continuous : ∀ t, RunningUntil running t → offers running sReady nPorts t greedy = true
  starves : ∀ T, RunningUntil running T → PrefersGreedy running sReady nPorts T →
    ∀ t < T, offers running sReady nPorts t victim = true → takenAt victim (sReady t) = false
  rejects : RunningUntil running 1500 → PrefersGreedy running sReady nPorts 1500 →
    ∀ reading, ∃ e, starvationTest sReady nPorts reading = .error e

end Run

/-! ## The greedy source's valid bit -/

namespace Greedy

variable {g : Greedy}

/-- A call of the greedy coroutine is about to align, or offers its one beat. -/
def Calling (g : Greedy) : Prop :=
  g.stopped = false ∧
    ((∃ beat, g.source.wait = .align [beat]) ∧ g.source.valid = false ∨
      (∃ beat, g.source.wait = .offered beat []) ∧ g.source.valid = true)

theorem calling_start (running : Bool) :
    (start.rising running).Calling ∧ (start.rising running).source.valid = true :=
  ⟨⟨rfl, Or.inr ⟨⟨greedyBeat 0, rfl⟩, rfl⟩⟩, rfl⟩

/-- While the harness is running, the bit goes low after each transfer, and for
one cycle only. -/
theorem Calling.cycle (h : g.Calling) (sReady : Option ℕ) :
    (g.cycle sReady true).Calling ∧
      (g.cycle sReady true).source.valid = !(g.source.valid && takenAt greedy sReady) := by
  obtain ⟨hstopped, ⟨⟨beat, hwait⟩, hvalid⟩ | ⟨⟨beat, hwait⟩, hvalid⟩⟩ := h
  · have hsource : (g.source.falling greedy sReady).rising false false =
        g.source.present false beat [] := Source.cycle_of_align hwait
    have hcycle : g.cycle sReady true = ⟨g.i, g.source.present false beat [], false⟩ := by
      simp [Greedy.cycle, rising, hstopped, hsource, Source.present]
    rw [hcycle, hvalid]
    exact ⟨⟨rfl, Or.inr ⟨⟨beat, rfl⟩, rfl⟩⟩, rfl⟩
  · cases htaken : takenAt greedy sReady with
    | false =>
        have hsource : (g.source.falling greedy sReady).rising false false = g.source :=
          Source.cycle_of_refused hwait htaken
        have hcycle : g.cycle sReady true = ⟨g.i, g.source, false⟩ := by
          simp [Greedy.cycle, rising, hstopped, hsource, hwait]
        rw [hcycle, hvalid]
        exact ⟨⟨rfl, Or.inr ⟨⟨beat, hwait⟩, hvalid⟩⟩, rfl⟩
    | true =>
        have hsource : (g.source.falling greedy sReady).rising false false =
            (g.source.record beat).leave := Source.cycle_of_taken hwait htaken
        have hcycle : g.cycle sReady true =
            ⟨g.i + 1, (g.source.record beat).leave.call [greedyBeat (g.i + 1)], false⟩ := by
          simp [Greedy.cycle, rising, hstopped, hsource, Source.leave]
        rw [hcycle, hvalid]
        exact ⟨⟨rfl, Or.inl ⟨⟨_, rfl⟩, rfl⟩⟩, rfl⟩

end Greedy

section Run

variable {running : ℕ → Bool} {sReady : ℕ → Option ℕ} {nPorts : ℕ}

theorem RunningUntil.of_le {t u : ℕ} (h : RunningUntil running t) (hu : u ≤ t) :
    RunningUntil running u :=
  fun v hv => h v (hv.trans hu)

theorem offers_greedy (t : ℕ) :
    offers running sReady nPorts t greedy = (greedyAt running sReady t).source.valid :=
  Lines.testBit_sValid (starvationLines running sReady t) (Nat.succ_pos (nPorts + 1))

theorem offers_victim (t : ℕ) :
    offers running sReady nPorts t victim = (victimAt sReady t).valid :=
  Lines.testBit_sValid (starvationLines running sReady t)
    (Nat.succ_lt_succ (Nat.succ_pos nPorts))

theorem calling_greedyAt {t : ℕ} (h : RunningUntil running t) :
    (greedyAt running sReady t).Calling := by
  induction t with
  | zero => exact (Greedy.calling_start (running 0)).1
  | succ t ih =>
      rw [greedyAt, h (t + 1) le_rfl]
      exact ((ih (h.of_le (Nat.le_succ t))).cycle (sReady t)).1

/-- The bit is low exactly in the cycles after a transfer. -/
theorem offers_greedy_succ {t : ℕ} (h : RunningUntil running (t + 1)) :
    offers running sReady nPorts (t + 1) greedy =
      !(offers running sReady nPorts t greedy && takenAt greedy (sReady t)) := by
  rw [offers_greedy, offers_greedy, greedyAt, h (t + 1) le_rfl]
  exact ((calling_greedyAt (h.of_le (Nat.le_succ t))).cycle (sReady t)).2

theorem offers_greedy_of_unserved
    (hunserved : ∀ t, RunningUntil running (t + 1) → takenAt greedy (sReady t) = false) {t : ℕ}
    (h : RunningUntil running t) : offers running sReady nPorts t greedy = true := by
  cases t with
  | zero =>
      rw [offers_greedy]
      exact (Greedy.calling_start (running 0)).2
  | succ t => rw [offers_greedy_succ h, hunserved t h, Bool.and_false, Bool.not_false]

/-! ## The victim -/

/-- A victim that is about to align, or offers a beat. -/
def Unserved (s : Source) : Prop :=
  s.wait = .align victimBeats ∧ s.valid = false ∨
    ∃ beat rest, s.wait = .offered beat rest ∧ s.valid = true

theorem Unserved.cycle {s : Source} (h : Unserved s) {sReady : Option ℕ}
    (hrefused : s.valid = true → takenAt victim sReady = false) :
    Unserved (s.cycle victim sReady false false) := by
  obtain ⟨hwait, hvalid⟩ | ⟨beat, rest, hwait, hvalid⟩ := h
  · obtain ⟨beat, rest, hbeats⟩ : ∃ beat rest, victimBeats = beat :: rest := ⟨_, _, rfl⟩
    rw [hbeats] at hwait
    rw [Source.cycle_of_align hwait]
    exact Or.inr ⟨beat, rest, rfl, rfl⟩
  · rw [Source.cycle_of_refused hwait (hrefused hvalid)]
    exact Or.inr ⟨beat, rest, hwait, hvalid⟩

theorem unserved_victimAt {T : ℕ}
    (hrefused : ∀ t < T, (victimAt sReady t).valid = true → takenAt victim (sReady t) = false) :
    Unserved (victimAt sReady T) := by
  induction T with
  | zero => exact Or.inl ⟨rfl, rfl⟩
  | succ T ih =>
      have hbefore := ih fun t ht => hrefused t (Nat.lt_succ_of_lt ht)
      exact hbefore.cycle (hrefused T (Nat.lt_succ_self T))

theorem Unserved.deliveredDone {t : ℕ} (h : Unserved (victimAt sReady t)) :
    deliveredDone sReady t = false := by
  rw [ReqXbar.deliveredDone]
  obtain ⟨hwait, -⟩ | ⟨beat, rest, hwait, -⟩ := h
  · rw [hwait]
  · rw [hwait]

/-- The victim is done when the loop ends if it is done within 1500 cycles. -/
theorem deliveredDone_stopCycle_iff :
    deliveredDone sReady (stopCycle sReady) = true ↔ ∃ t ≤ 1500, deliveredDone sReady t = true := by
  rw [stopCycle]
  cases hfind : (List.range 1500).find? (deliveredDone sReady) with
  | some t =>
      have hdone := List.find?_some hfind
      have hlt : t < 1500 := List.mem_range.mp (List.mem_of_find?_eq_some hfind)
      exact ⟨fun _ => ⟨t, hlt.le, hdone⟩, fun _ => hdone⟩
  | none =>
      rw [List.find?_eq_none] at hfind
      constructor
      · intro h
        exact ⟨1500, le_rfl, h⟩
      · rintro ⟨t, ht, hdone⟩
        rcases Nat.lt_or_eq_of_le ht with hlt | rfl
        · exact absurd hdone (hfind t (List.mem_range.mpr hlt))
        · exact hdone

theorem starvationTest_eq_ok_iff {reading : ℕ → Reading} :
    starvationTest sReady nPorts reading = .ok () ↔
      (∃ t ≤ 1500, deliveredDone sReady t = true) ∧
        (fromVictim sReady nPorts reading).length = victimBeats.length ∧
        (protocol nPorts (starvationReadings sReady reading)).protocolErrors = [] := by
  rw [starvationTest, seq_eq_ok_iff, seq_eq_ok_iff, assertThat_eq_ok_iff, assertThat_eq_ok_iff,
    checkProtocol, assertThat_eq_ok_iff, deliveredDone_stopCycle_iff]

theorem exists_error_of_unfinished (h : ∀ t ≤ 1500, deliveredDone sReady t = false)
    (reading : ℕ → Reading) : ∃ e, starvationTest sReady nPorts reading = .error e := by
  cases htest : starvationTest sReady nPorts reading with
  | error e => exact ⟨e, rfl⟩
  | ok u =>
      obtain ⟨⟨t, ht, hdone⟩, -, -⟩ := starvationTest_eq_ok_iff.mp htest
      rw [h t ht] at hdone
      cases hdone

/-- The test applies the contention it is meant to exactly when the crossbar
never serves the greedy source while the harness is running. -/
theorem applies_contention_iff (running : ℕ → Bool) (sReady : ℕ → Option ℕ) (nPorts : ℕ) :
    AppliesContention running sReady nPorts ↔
      ∀ t, RunningUntil running (t + 1) → takenAt greedy (sReady t) = false := by
  constructor
  · intro h t ht
    have hnext := h.continuous (t + 1) ht
    rw [offers_greedy_succ ht, h.continuous t (ht.of_le (Nat.le_succ t))] at hnext
    simpa using hnext
  · intro hunserved
    have hcontinuous : ∀ t, RunningUntil running t →
        offers running sReady nPorts t greedy = true :=
      fun t ht => offers_greedy_of_unserved hunserved ht
    have hstarved : ∀ T, RunningUntil running T → PrefersGreedy running sReady nPorts T →
        ∀ t < T, offers running sReady nPorts t victim = true →
          takenAt victim (sReady t) = false :=
      fun T hT hprefers t ht => hprefers t ht (hcontinuous t (hT.of_le ht.le))
    refine ⟨hcontinuous, hstarved, fun hT hprefers => exists_error_of_unfinished ?_⟩
    refine fun t ht => Unserved.deliveredDone ?_
    refine unserved_victimAt fun u hu hvalid => hstarved 1500 hT hprefers u (hu.trans_le ht) ?_
    rw [offers_victim]
    exact hvalid

/-! ## A fixed priority that passes -/

/-- Source 0 is served in the even cycles, and source 1 in the odd ones. -/
def alternating : ℕ → Option ℕ := fun t => some (if t % 2 = 0 then 1 else 2)

/-- The source that is served is connected to sink 0, and all sinks are ready. -/
def alternatingReading (t : ℕ) : Reading :=
  let lines := starvationLines (fun _ => true) alternating t
  ⟨some (if lines.valid (t % 2) then 1 else 0), some (1 <<< 8 - 1), some (lines.words (t % 2))⟩

theorem offers_alternating (t : ℕ) :
    offers (fun _ => true) alternating nPorts t greedy = decide (t % 2 = 0) := by
  induction t with
  | zero =>
      rw [offers_greedy]
      rfl
  | succ t ih =>
      rw [offers_greedy_succ fun _ _ => rfl, ih]
      by_cases ht : t % 2 = 0
      · have hodd : ¬ (t + 1) % 2 = 0 := by omega
        simp [alternating, takenAt, ht, hodd]
      · have heven : (t + 1) % 2 = 0 := by omega
        simp [ht, heven]

/-- The crossbar never serves the victim while the greedy source offers a beat,
delivers every beat it accepts, and passes the test. -/
theorem fixed_priority_passes :
    (∀ T, PrefersGreedy (fun _ => true) alternating 8 T) ∧
      offers (fun _ => true) alternating 8 1 greedy = false ∧
      starvationTest alternating 8 alternatingReading = .ok () ∧
      ¬ AppliesContention (fun _ => true) alternating 8 := by
  have hlow : offers (fun _ => true) alternating 8 1 greedy = false := offers_alternating 1
  refine ⟨fun T t _ hgreedy _ => ?_, hlow, ?_, fun h => ?_⟩
  · rw [offers_alternating, decide_eq_true_eq] at hgreedy
    rw [alternating, if_pos hgreedy]
    rfl
  · refine starvationTest_eq_ok_iff.mpr ⟨⟨8, by decide, by decide⟩, ?_, ?_⟩
    · decide +kernel
    · decide +kernel
  · have hhigh := h.continuous 1 fun _ _ => rfl
    rw [hlow] at hhigh
    cases hhigh

end Run

end ReqXbar
