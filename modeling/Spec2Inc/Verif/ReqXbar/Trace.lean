import Spec2Inc.Verif.ReqXbar.Testbench

/-!
# The two buses in a run of the testbench

What the design accepts from the sources and delivers at the sinks, cycle by
cycle, read off its ports. The coroutines of the testbench keep an exact account
of it: `sent` holds the words accepted (`map_word_sent`), the monitors have seen
the readings of all cycles (`sinks_worldAt`, `monitor_worldAt`), and a source that
has returned has sent its whole queue (`sent_of_returned`).
-/

open Bits Clocked Python Spec2incPkg

namespace ReqXbar

variable {D : Dut} {nPorts : ℕ} {S : Stimulus} {queues : ℕ → List Beat} {w : Wired D.σ Inputs}

/-! ## The buses -/

section Bus

variable (D) (trace : ℕ → Wired D.σ Inputs)

/-- The word of source `s` that is accepted at the end of a cycle, if any. -/
def acceptedIn (w : Wired D.σ Inputs) (s : ℕ) : List ℕ :=
  if w.pins.sValid.testBit s && takenAt s (D.sReady w.regs w.pins) then
    [busWord reqW w.pins.sReq s]
  else
    []

/-- The words accepted from source `s` in the first `T` cycles. -/
def accepted (T s : ℕ) : List ℕ := (List.range T).flatMap fun t => acceptedIn D (trace t) s

/-- The readings made in the first `T` cycles. -/
def readings (T : ℕ) : List Reading := (List.range T).map fun t => reading D (trace t)

/-- The words delivered at sink `d` in the first `T` cycles. -/
def delivered (T d : ℕ) : List ℕ := Sinks.delivered (readings D trace T) d

theorem accepted_succ (T s : ℕ) :
    accepted D trace (T + 1) s = accepted D trace T s ++ acceptedIn D (trace T) s := by
  rw [accepted, List.range_succ, List.flatMap_append, List.flatMap_singleton]
  rfl

theorem readings_succ (T : ℕ) :
    readings D trace (T + 1) = readings D trace T ++ [reading D (trace T)] := by
  rw [readings, List.range_succ, List.map_append, List.map_singleton]
  rfl

theorem delivered_succ (T d : ℕ) :
    delivered D trace (T + 1) d = delivered D trace T d ++ (reading D (trace T)).delivered d := by
  rw [delivered, readings_succ, Sinks.delivered, List.flatMap_append, List.flatMap_singleton]
  rfl

theorem accepted_lt {T s w : ℕ} (h : w ∈ accepted D trace T s) : w < 2 ^ reqW := by
  obtain ⟨t, -, hw⟩ := List.mem_flatMap.mp h
  rw [acceptedIn] at hw
  split at hw
  · rw [List.mem_singleton.mp hw]
    exact busWord_lt _ _ _
  · cases hw

theorem delivered_lt {T d w : ℕ} (h : w ∈ delivered D trace T d) : w < 2 ^ reqW := by
  obtain ⟨r, -, hw⟩ := List.mem_flatMap.mp h
  exact Reading.lt_of_mem_delivered hw

end Bus

/-! ## What a source has still to send -/

namespace Source

/-- The beats not yet recorded as sent, in the order of the queue. -/
def unsent (s : Source) : List Beat :=
  match s.wait with
  | .align beats => beats
  | .gapFall beat rest => beat :: rest
  | .gapRise beat rest => beat :: rest
  | .offered beat rest => beat :: rest
  | .sampled _ beat rest => beat :: rest
  | .returned => []

theorem sent_append_unsent_present (s : Source) (gap : Bool) (beat : Beat) (rest : List Beat) :
    (s.present gap beat rest).sent ++ (s.present gap beat rest).unsent =
      s.sent ++ beat :: rest := by
  cases gap <;> rfl

theorem sent_append_unsent_next (s : Source) (gap : Bool) (beats : List Beat) :
    (s.next false gap beats).sent ++ (s.next false gap beats).unsent = s.sent ++ beats := by
  cases beats with
  | nil => rfl
  | cons beat rest => exact s.sent_append_unsent_present gap beat rest

/-- Without a halt no beat is dropped. -/
theorem sent_append_unsent_rising (s : Source) (gap : Bool) :
    (s.rising false gap).sent ++ (s.rising false gap).unsent = s.sent ++ s.unsent := by
  cases hwait : s.wait with
  | align beats => simpa [rising, unsent, hwait] using s.sent_append_unsent_next gap beats
  | gapFall beat rest => simp [rising, unsent, hwait]
  | gapRise beat rest =>
      simpa [rising, unsent, hwait] using s.sent_append_unsent_present gap beat rest
  | offered beat rest => simp [rising, unsent, hwait]
  | sampled taken beat rest =>
      cases taken with
      | false => simp [rising, unsent, hwait]
      | true =>
          have hnext := (s.record beat).sent_append_unsent_next gap rest
          simpa [rising, unsent, hwait, record] using hnext
  | returned => simp [rising, unsent, hwait]

theorem sent_append_unsent_falling (s : Source) (idx : ℕ) (sReady : Option ℕ) :
    (s.falling idx sReady).sent ++ (s.falling idx sReady).unsent = s.sent ++ s.unsent := by
  cases hwait : s.wait <;> simp [falling, unsent, hwait]

end Source

/-! ## One cycle -/

namespace World

@[simp] theorem sources_write (W : World D) (mReady : Option ℕ) :
    (W.write mReady).sources = W.sources := by
  cases mReady <;> rfl

@[simp] theorem sinks_write (W : World D) (mReady : Option ℕ) :
    (W.write mReady).sinks = W.sinks := by
  cases mReady <;> rfl

@[simp] theorem monitor_write (W : World D) (mReady : Option ℕ) :
    (W.write mReady).monitor = W.monitor := by
  cases mReady <;> rfl

theorem returned_iff (W : World D) :
    W.returned nPorts = true ↔ ∀ s < nPorts + 2, (W.sources s).wait = .returned := by
  rw [World.returned, List.all_eq_true]
  refine forall_congr' fun s => ?_
  rw [List.mem_range]
  refine imp_congr_right fun _ => ?_
  cases (W.sources s).wait <;> simp

end World

/-! ## The run -/

section Run

variable (D nPorts S queues w)

/-- The design and its pins in cycle `t`. -/
def wiredAt (t : ℕ) : Wired D.σ Inputs := (worldAt D nPorts S queues w t).wired

/-- The source `s` in cycle `t`. -/
def sourceAt (t s : ℕ) : Source := (worldAt D nPorts S queues w t).sources s

theorem sourceAt_succ (t s : ℕ) :
    sourceAt D nPorts S queues w (t + 1) s =
      (sourceAt D nPorts S queues w t s).cycle s
        (D.sReady (wiredAt D nPorts S queues w t).regs (wiredAt D nPorts S queues w t).pins)
        false (S.gap (t + 1) s) := by
  rw [sourceAt, worldAt, World.settled, World.rise]
  simp only [World.sources_write]
  rfl

theorem word_lt_sourceAt (t s : ℕ) : (sourceAt D nPorts S queues w t s).word < 2 ^ reqW := by
  induction t with
  | zero => exact Source.word_lt_rising _ _ (Nat.two_pow_pos _)
  | succ t ih =>
      rw [sourceAt_succ]
      refine Source.word_lt_rising _ _ ?_
      rwa [Source.word_falling]

theorem pins_wiredAt (t : ℕ) :
    (wiredAt D nPorts S queues w t).pins.sReq =
        (worldAt D nPorts S queues w t).lines.sReq (nPorts + 2) ∧
      (wiredAt D nPorts S queues w t).pins.sValid =
        (worldAt D nPorts S queues w t).lines.sValid (nPorts + 2) := by
  cases t with
  | zero => exact ⟨rfl, rfl⟩
  | succ t => exact ⟨rfl, rfl⟩

theorem testBit_sValid_wiredAt (t : ℕ) {s : ℕ} (hs : s < nPorts + 2) :
    (wiredAt D nPorts S queues w t).pins.sValid.testBit s =
      (sourceAt D nPorts S queues w t s).valid := by
  rw [(pins_wiredAt D nPorts S queues w t).2, Lines.testBit_sValid _ hs]
  rfl

/-- The bus carries what the source holds. -/
theorem acceptedIn_wiredAt (t : ℕ) {s : ℕ} (hs : s < nPorts + 2) :
    acceptedIn D (wiredAt D nPorts S queues w t) s =
      if ((sourceAt D nPorts S queues w t s).valid &&
          takenAt s (D.sReady (wiredAt D nPorts S queues w t).regs
            (wiredAt D nPorts S queues w t).pins)) = true then
        [(sourceAt D nPorts S queues w t s).word]
      else [] := by
  have hword : busWord reqW (wiredAt D nPorts S queues w t).pins.sReq s =
      (sourceAt D nPorts S queues w t s).word := by
    rw [(pins_wiredAt D nPorts S queues w t).1,
      Lines.busWord_sReq (fun k _ => word_lt_sourceAt D nPorts S queues w t k) hs]
    rfl
  rw [acceptedIn, hword, testBit_sValid_wiredAt D nPorts S queues w t hs]

/-- Every source keeps its account. -/
theorem keeps_sourceAt (t : ℕ) {s : ℕ} (hs : s < nPorts + 2) :
    (sourceAt D nPorts S queues w t s).Keeps (queues s)
      (accepted D (wiredAt D nPorts S queues w) t s) True := by
  induction t with
  | zero => exact Source.keeps_start false (S.gap 0 s)
  | succ t ih =>
      have hstep := ih.cycle s
        (D.sReady (wiredAt D nPorts S queues w t).regs (wiredAt D nPorts S queues w t).pins)
        false (S.gap (t + 1) s)
      rw [sourceAt_succ, accepted_succ, acceptedIn_wiredAt D nPorts S queues w t hs]
      simpa using hstep

theorem map_word_sent (t : ℕ) {s : ℕ} (hs : s < nPorts + 2) :
    (sourceAt D nPorts S queues w t s).sent.map Beat.word =
      accepted D (wiredAt D nPorts S queues w) t s :=
  (keeps_sourceAt D nPorts S queues w t hs).sent_eq trivial

theorem sent_append_unsent_sourceAt (t s : ℕ) :
    (sourceAt D nPorts S queues w t s).sent ++ (sourceAt D nPorts S queues w t s).unsent =
      queues s := by
  induction t with
  | zero => exact Source.sent_append_unsent_rising (Source.idle.call (queues s)) (S.gap 0 s)
  | succ t ih =>
      rw [sourceAt_succ, Source.cycle, Source.sent_append_unsent_rising,
        Source.sent_append_unsent_falling, ih]

theorem sent_of_returned {t s : ℕ}
    (h : (sourceAt D nPorts S queues w t s).wait = .returned) :
    (sourceAt D nPorts S queues w t s).sent = queues s := by
  have hall := sent_append_unsent_sourceAt D nPorts S queues w t s
  rwa [Source.unsent, h, List.append_nil] at hall

/-- A source that has returned has released the bus. -/
theorem valid_of_returned {t s : ℕ} (hs : s < nPorts + 2)
    (h : (sourceAt D nPorts S queues w t s).wait = .returned) :
    (sourceAt D nPorts S queues w t s).valid = false := by
  have hkeeps := keeps_sourceAt D nPorts S queues w t hs
  rw [Source.Keeps, h] at hkeeps
  exact hkeeps.1

/-- It does nothing any more. -/
theorem sourceAt_of_returned {t s : ℕ}
    (h : (sourceAt D nPorts S queues w t s).wait = .returned) (n : ℕ) :
    sourceAt D nPorts S queues w (t + n) s = sourceAt D nPorts S queues w t s := by
  induction n with
  | zero => rfl
  | succ n ih => rw [← Nat.add_assoc, sourceAt_succ, ih, Source.cycle_of_returned h]

/-- The monitors have seen the readings of all the cycles before. -/
theorem monitors_worldAt (t : ℕ) :
    (worldAt D nPorts S queues w t).sinks =
        Sinks.watched nPorts (readings D (wiredAt D nPorts S queues w) t) ∧
      (worldAt D nPorts S queues w t).monitor =
        protocol nPorts (readings D (wiredAt D nPorts S queues w) t) := by
  induction t with
  | zero => exact ⟨rfl, rfl⟩
  | succ t ih =>
      obtain ⟨hsinks, hmonitor⟩ := ih
      rw [readings_succ, Sinks.watched, protocol, List.foldl_append, List.foldl_append]
      constructor
      · change (((worldAt D nPorts S queues w t).settled D nPorts S)).sinks = _
        rw [World.settled, World.sinks_write, World.fall, hsinks]
        rfl
      · change (((worldAt D nPorts S queues w t).settled D nPorts S)).monitor = _
        rw [World.settled, World.monitor_write, World.fall, hmonitor]
        rfl

end Run

end ReqXbar
