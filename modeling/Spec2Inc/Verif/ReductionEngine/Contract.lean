import Spec2Inc.Verif.ReductionEngine.Testbench

/-!
# Designs that implement the contract of `reduction_engine`

A design implements the contract when its registers simulate the pipeline of
`RED_LATENCY` slots and its outputs read that pipeline (`Implements`). Between
the transactions of a test such a design is idle: at most its last slot is
occupied, by a result that is being taken (`Idle`). A transaction then returns
after exactly `RED_LATENCY` cycles with the reduction of its operands
(`Idle.transact`), unless that is more than the testbench waits for.
-/

open Bits Clocked Clocked.Bench Python Spec2incPkg

namespace ReductionEngine.Testbench

variable {P : Params} {D : Dut P}

/-- What a design must do: its registers hold a pipeline of tokens, whose output
slot drives the result and whose stall drives the ready output. The data and the
id are left open while no result is valid. -/
structure Implements (D : Dut P) where
  contents : D.σ → Fin P.redLatency → Option Token
  simulates : Simulates D.machine (Pipeline.machine P.redLatency Token) contents ports
  opReady : ∀ q i, D.opReady q i = some (!Pipeline.stalled (contents q) (ports i)).toNat
  resValid : ∀ q i, D.resValid q i = some (Pipeline.out (contents q)).isSome.toNat
  resData : ∀ q i x, Pipeline.out (contents q) = some x → D.resData q i = some x.1.toNat
  resId : ∀ q i x, Pipeline.out (contents q) = some x → D.resId q i = some x.2.toNat

namespace Implements

variable {C : Implements D} {w : Wired D.σ (Inputs P)} {ready : Bool} {k : ℕ} {x : Token}

theorem contents_settle_of_high {q : D.σ} {i : Inputs P} (h : i.rstN = true) :
    C.contents (D.machine.settle q i) = C.contents q := by
  rw [C.simulates.settle, Machine.settle_of_high _ h]

theorem contents_settle_of_low {q : D.σ} {i : Inputs P} (h : i.rstN = false) :
    C.contents (D.machine.settle q i) = Pipeline.empty := by
  rw [C.simulates.settle, Machine.settle_of_low _ h, Pipeline.machine_clear]

/-- The pins outside a drive: the reset is high and no operand set is offered. -/
structure Quiet (ready : Bool) (i : Inputs P) : Prop where
  rstN : i.rstN = true
  opValid : i.opValid = false
  resReady : i.resReady = ready

variable (C) in
/-- At most the last slot is occupied, and then the consumer takes what is in it. -/
structure Idle (ready : Bool) (w : Wired D.σ (Inputs P)) : Prop where
  quiet : Quiet ready w.pins
  before : ∀ s, s ≠ Pipeline.last → C.contents w.regs s = none
  free : ready = true ∨ Pipeline.out (C.contents w.regs) = none

/-- A pipeline with the token `x` in slot `k` and nothing else. -/
def only (k : ℕ) (x : Token) : Fin P.redLatency → Option Token :=
  fun s => if s.val = k then some x else none

variable (C) in
/-- The token `x` is in slot `k`, and nothing else is inside. -/
structure Flying (ready : Bool) (k : ℕ) (x : Token) (w : Wired D.σ (Inputs P)) : Prop where
  quiet : Quiet ready w.pins
  contents : C.contents w.regs = only k x

/-! ## One token in the pipeline -/

theorem out_only (k : ℕ) (x : Token) :
    Pipeline.out (only k x : Fin P.redLatency → Option Token) =
      if k + 1 = P.redLatency then some x else none := by
  have hpos := P.redLatency_pos
  have hlast : (Pipeline.last : Fin P.redLatency).val = k ↔ k + 1 = P.redLatency := by
    simp only [Pipeline.last]
    omega
  simp only [Pipeline.out, only, hlast]

theorem shift_only (k : ℕ) (x : Token) :
    Pipeline.shift (only k x : Fin P.redLatency → Option Token) none = only (k + 1) x := by
  funext s
  rw [Pipeline.shift, only, only]
  by_cases hs : s.val = 0
  · rw [if_pos hs, if_neg (by omega)]
  · have hiff : s.val - 1 = k ↔ s.val = k + 1 := by omega
    simp only [if_neg hs, hiff]

theorem shift_of_before {q : Fin P.redLatency → Option Token}
    (h : ∀ s, s ≠ Pipeline.last → q s = none) (y : Option Token) :
    Pipeline.shift q y = fun s => if s.val = 0 then y else none := by
  funext s
  rw [Pipeline.shift]
  by_cases hs : s.val = 0
  · rw [if_pos hs, if_pos hs]
  · rw [if_neg hs, if_neg hs]
    refine h _ fun heq => ?_
    have hlt := s.isLt
    have hval := congrArg Fin.val heq
    simp only [Pipeline.last] at hval
    omega

/-! ## Cycles -/

/-- Driving the pins, with the reset left high, moves nothing. -/
theorem contents_driven {q : Fin P.redLatency → Option Token} {r : D.σ}
    (h : C.contents r = q) {i : Inputs P} (hrst : i.rstN = true) :
    C.contents (D.machine.settle r i) = q :=
  (contents_settle_of_high hrst).trans h

theorem contents_after_edge {i : Inputs P} (hrst : i.rstN = true) (q : D.σ) :
    C.contents (D.machine.settle (D.machine.edge q i) i) =
      if Pipeline.stalled (C.contents q) (ports i) then C.contents q
      else Pipeline.shift (C.contents q) (ports i).enter := by
  have hhigh : (ports i).rstN = true := hrst
  rw [contents_settle_of_high hrst, C.simulates.edge, Pipeline.machine]
  simp only [hhigh, if_true]

theorem Quiet.enter {i : Inputs P} (h : Quiet ready i) : (ports i).enter = none := by
  rw [ports, h.opValid]
  rfl

theorem stalled_eq (q : Fin P.redLatency → Option Token) (i : Inputs P) :
    Pipeline.stalled q (ports i) = ((Pipeline.out q).isSome && !i.resReady) := rfl

/-- A token that has not arrived moves on by one slot. -/
theorem Flying.moves (h : C.Flying ready k x w) (hk : k + 1 < P.redLatency) :
    wp (tick D.machine : Tb D Unit) (fun _ => C.Flying ready (k + 1) x) w := by
  have hfree : Pipeline.stalled (C.contents w.regs) (ports w.pins) = false := by
    rw [stalled_eq, h.contents, out_only, if_neg hk.ne]
    rfl
  refine wp_tick.mpr ⟨h.quiet, ?_⟩
  rw [contents_after_edge h.quiet.rstN, hfree, h.quiet.enter, h.contents, if_neg (by decide),
    shift_only]

/-- A result that is not taken stays. -/
theorem Flying.stays (h : C.Flying false k x w) (hk : k + 1 = P.redLatency) :
    wp (tick D.machine : Tb D Unit) (fun _ => C.Flying false k x) w := by
  have hstalled : Pipeline.stalled (C.contents w.regs) (ports w.pins) = true := by
    rw [stalled_eq, h.contents, out_only, if_pos hk, h.quiet.resReady]
    rfl
  refine wp_tick.mpr ⟨h.quiet, ?_⟩
  rw [contents_after_edge h.quiet.rstN, hstalled, if_pos rfl, h.contents]

theorem Idle.not_stalled (h : C.Idle ready w) {i : Inputs P} (hready : i.resReady = ready) :
    Pipeline.stalled (C.contents w.regs) (ports i) = false := by
  rw [stalled_eq, hready]
  rcases h.free with rfl | hnone
  · exact Bool.and_false _
  · rw [hnone]
    rfl

/-- A result that is taken leaves nothing behind. -/
theorem Idle.empties (h : C.Idle ready w) :
    wp (tick D.machine : Tb D Unit)
      (fun _ w' => C.Idle ready w' ∧ C.contents w'.regs = Pipeline.empty) w := by
  have hempty : C.contents (D.machine.settle (D.machine.edge w.regs w.pins) w.pins) =
      Pipeline.empty := by
    rw [contents_after_edge h.quiet.rstN, h.not_stalled h.quiet.resReady, h.quiet.enter,
      if_neg Bool.false_ne_true, shift_of_before h.before]
    funext s
    exact ite_self none
  refine wp_tick.mpr ⟨⟨h.quiet, fun s _ => ?_, Or.inr ?_⟩, hempty⟩
  · rw [hempty]
    rfl
  · rw [hempty]
    rfl

/-- The result has arrived, and is taken. -/
theorem Flying.idle (h : C.Flying true k x w) (hk : k + 1 = P.redLatency) : C.Idle true w := by
  refine ⟨h.quiet, fun s hs => ?_, Or.inl rfl⟩
  rw [h.contents, only, if_neg]
  intro heq
  refine hs (Fin.ext ?_)
  simp only [Pipeline.last]
  omega

/-! ## Transactions -/

/-- The token of an operand set. -/
def token (P : Params) (mask : ℕ) (operands : Dict ℕ (List ℕ)) (opId : ℕ) : Token :=
  (sumC (.ofNat P.nPorts mask) (.ofNat _ (packOperands operands)), .ofNat tagW opId)

theorem enter_present (mask : ℕ) (operands : Dict ℕ (List ℕ)) (opId : ℕ) (i : Inputs P) :
    (ports (present mask operands opId i)).enter = some (token P mask operands opId) := by
  simp [ports, present, operandSet, token, sumC_eq_maskedLaneSum]

/-- The values the testbench drives fit their ports. -/
structure Drivable (P : Params) (mask : ℕ) (operands : Dict ℕ (List ℕ)) (opId : ℕ) : Prop where
  mask : mask < 2 ^ P.nPorts
  operands : packOperands operands < 2 ^ (P.nPorts * dataW)
  opId : opId < 2 ^ tagW

@[simp] theorem fitPort_eq_ok_iff {width value : ℕ} :
    fitPort width value = .ok () ↔ value < 2 ^ width := by
  by_cases h : value < 2 ^ width <;> simp [fitPort, h]

variable {mask opId : ℕ} {operands : Dict ℕ (List ℕ)}

theorem wp_driveOp_iff {Q : Unit → Wired D.σ (Inputs P) → Prop} :
    wp (driveOp D mask operands opId) Q w ↔
      Drivable P mask operands opId ∧
        Q () ⟨D.machine.settle w.regs (present mask operands opId w.pins),
          present mask operands opId w.pins⟩ := by
  simp only [driveOp, wp_bind, wp_lift_unit, wp_drive, fitPort_eq_ok_iff]
  constructor
  · rintro ⟨hmask, hoperands, hopId, h⟩
    exact ⟨⟨hmask, hoperands, hopId⟩, h⟩
  · rintro ⟨hfit, h⟩
    exact ⟨hfit.mask, hfit.operands, hfit.opId, h⟩

/-- Sent from an idle design, the operands enter slot zero. -/
theorem Idle.sendOp (h : C.Idle ready w) (hfit : Drivable P mask operands opId) :
    wp (sendOp D mask operands opId)
      (fun _ => C.Flying ready 0 (token P mask operands opId)) w := by
  have hhigh : (present mask operands opId w.pins).rstN = true := h.quiet.rstN
  have hfree := h.not_stalled (i := present mask operands opId w.pins) h.quiet.resReady
  rw [Testbench.sendOp, wp_bind, wp_sample, wp_bind, wp_lift_unit, assertThat_eq_ok_iff, C.opReady,
    h.not_stalled h.quiet.resReady]
  refine ⟨rfl, wp_bind.mpr (wp_driveOp_iff.mpr ⟨hfit, ?_⟩)⟩
  rw [wp_bind, wp_tick, wp_drive]
  refine ⟨⟨h.quiet.rstN, rfl, h.quiet.resReady⟩, contents_driven ?_ h.quiet.rstN⟩
  rw [contents_after_edge hhigh, contents_driven rfl hhigh, hfree, enter_present,
    if_neg Bool.false_ne_true, shift_of_before h.before]
  rfl

/-- What the result port shows of a token in flight. -/
theorem Flying.resValid (h : C.Flying ready k x w) :
    D.resValid w.regs w.pins = some (if k + 1 = P.redLatency then 1 else 0) := by
  rw [C.resValid, h.contents, out_only]
  by_cases hk : k + 1 = P.redLatency
  · rw [if_pos hk, if_pos hk]
    rfl
  · rw [if_neg hk, if_neg hk]
    rfl

theorem Flying.out (h : C.Flying ready k x w) (hk : k + 1 = P.redLatency) :
    Pipeline.out (C.contents w.regs) = some x := by
  rw [h.contents, out_only, if_pos hk]

/-- The loop returns in the pass in which the token arrives. -/
theorem Flying.awaitResultFrom {limit fuel elapsed : ℕ} (h : C.Flying true k x w)
    (hk : k < P.redLatency) (hfuel : P.redLatency ≤ k + fuel) :
    wp (awaitResultFrom D limit fuel elapsed) (fun r w' => C.Idle true w' ∧
      r = (elapsed + (P.redLatency - 1 - k), x.1.toNat, x.2.toNat)) w := by
  induction fuel generalizing k elapsed w with
  | zero => omega
  | succ fuel ih =>
      rw [Testbench.awaitResultFrom, wp_bind, wp_sample, h.resValid]
      by_cases hlast : k + 1 = P.redLatency
      · rw [if_pos hlast, if_pos rfl]
        simp only [wp_bind, wp_sample, C.resData _ _ _ (h.out hlast), C.resId _ _ _ (h.out hlast),
          intValue, wp_lift, Except.ok.injEq, exists_eq_left', wp_pure]
        refine ⟨h.idle hlast, ?_⟩
        have hzero : P.redLatency - 1 - k = 0 := by omega
        rw [hzero, Nat.add_zero]
      · rw [if_neg hlast, if_neg (by decide)]
        refine wp_bind_of (h.moves (by omega)) fun _ w h => ?_
        have hcount : elapsed + (P.redLatency - 1 - k) =
            elapsed + 1 + (P.redLatency - 1 - (k + 1)) := by omega
        rw [hcount]
        exact ih h (by omega) (by omega)

/-- It raises when the token is too far away. -/
theorem Flying.not_passes_awaitResultFrom {limit fuel elapsed : ℕ} (h : C.Flying true k x w)
    (hfuel : k + fuel < P.redLatency) :
    ¬ Passes (Testbench.awaitResultFrom D limit fuel elapsed) w := by
  induction fuel generalizing k elapsed w with
  | zero =>
      rw [Testbench.awaitResultFrom, Passes, wp_lift]
      rintro ⟨r, hr, -⟩
      cases hr
  | succ fuel ih =>
      have hlast : ¬ k + 1 = P.redLatency := by omega
      rw [Testbench.awaitResultFrom, Passes, wp_bind, wp_sample, h.resValid, if_neg hlast,
        if_neg (by decide)]
      exact not_wp_bind (h.moves (by omega)) fun _ w h => ih h (by omega)

/-- A transaction takes exactly `RED_LATENCY` cycles and gives the reduction of
the operands with their id. -/
theorem Idle.transact (h : C.Idle true w) (hfit : Drivable P mask operands opId)
    (hlimit : P.redLatency ≤ awaitLimit) :
    wp (transact D mask operands opId) (fun r w' => C.Idle true w' ∧
      r = (P.redLatency, (token P mask operands opId).1.toNat, opId)) w := by
  have hpos := P.redLatency_pos
  rw [Testbench.transact]
  refine wp_bind_of (h.sendOp hfit) fun _ w h => ?_
  refine wp_mono (h.awaitResultFrom hpos (by omega)) ?_
  rintro r w' ⟨hidle, rfl⟩
  have hid : (token P mask operands opId).2.toNat = opId := by
    rw [token, BitVec.toNat_ofNat, Nat.mod_eq_of_lt hfit.opId]
  have hlatency : 1 + (P.redLatency - 1 - 0) = P.redLatency := by omega
  rw [hid, hlatency]
  exact ⟨hidle, rfl⟩

/-- What is sent was drivable. -/
theorem drivable_of_passes_sendOp (h : Passes (Testbench.sendOp D mask operands opId) w) :
    Drivable P mask operands opId := by
  rw [Testbench.sendOp, Passes, wp_bind, wp_sample, wp_bind, wp_lift_unit, wp_bind] at h
  exact (wp_driveOp_iff.mp h.2).1

/-- It raises when a value does not fit, or the latency is beyond the limit. -/
theorem Idle.not_passes_transact (h : C.Idle true w)
    (hbad : ¬ mask < 2 ^ P.nPorts ∨ awaitLimit < P.redLatency) :
    ¬ Passes (Testbench.transact D mask operands opId) w := by
  by_cases hfit : Drivable P mask operands opId
  · have hlimit := hbad.resolve_left (not_not_intro hfit.mask)
    refine not_wp_bind (h.sendOp hfit) fun _ w h => ?_
    exact h.not_passes_awaitResultFrom (by omega)
  · exact not_wp_bind_of_not_passes fun hsend => hfit (drivable_of_passes_sendOp hsend)

/-! ## A consumer that is not ready -/

theorem Flying.stalled (h : C.Flying false k x w) (hk : k + 1 = P.redLatency) :
    D.resValid w.regs w.pins = some 1 ∧ D.opReady w.regs w.pins = some 0 ∧
      D.resData w.regs w.pins = some x.1.toNat ∧ D.resId w.regs w.pins = some x.2.toNat := by
  have hout := h.out hk
  refine ⟨?_, ?_, C.resData _ _ _ hout, C.resId _ _ _ hout⟩
  · rw [h.resValid, if_pos hk]
  · rw [C.opReady, stalled_eq, hout, h.quiet.resReady]
    rfl

/-- A result runs up to the output and is held there. -/
theorem Flying.wp_ticks (h : C.Flying false k x w) (hk : k < P.redLatency) {n : ℕ}
    (hn : P.redLatency ≤ k + n + 1) :
    wp (ticks D.machine n : Tb D Unit)
      (fun _ w' => ∃ k', k' + 1 = P.redLatency ∧ C.Flying false k' x w') w := by
  refine wp_mono (Bench.wp_ticks (I := fun n w => ∃ k, k < P.redLatency ∧
    P.redLatency ≤ k + n + 1 ∧ C.Flying false k x w) ?_ ⟨k, hk, hn, h⟩) ?_
  · rintro n w ⟨k, hk, hn, h⟩
    by_cases hlast : k + 1 = P.redLatency
    · exact ⟨k, hk, by omega, wp_tick.mp (h.stays hlast)⟩
    · exact ⟨k + 1, by omega, by omega, wp_tick.mp (h.moves (by omega))⟩
  · rintro - w ⟨k, hk, hn, h⟩
    exact ⟨k, by omega, h⟩

/-- The consumer stops being ready while nothing is inside. -/
theorem Idle.block (h : C.Idle true w) (hempty : C.contents w.regs = Pipeline.empty) :
    C.Idle false ⟨D.machine.settle w.regs { w.pins with resReady := false },
      { w.pins with resReady := false }⟩ := by
  have hquiet : Quiet false { w.pins with resReady := false } :=
    ⟨h.quiet.rstN, h.quiet.opValid, rfl⟩
  have hdriven := contents_driven hempty hquiet.rstN
  refine ⟨hquiet, fun s _ => ?_, Or.inr ?_⟩
  · rw [hdriven]
    rfl
  · rw [hdriven]
    rfl

/-- The consumer becomes ready, and takes the result that was held. -/
theorem Flying.release (h : C.Flying false k x w) (hk : k + 1 = P.redLatency) :
    C.Idle true ⟨D.machine.settle w.regs { w.pins with resReady := true },
      { w.pins with resReady := true }⟩ := by
  have hquiet : Quiet true { w.pins with resReady := true } :=
    ⟨h.quiet.rstN, h.quiet.opValid, rfl⟩
  exact Flying.idle ⟨hquiet, contents_driven h.contents hquiet.rstN⟩ hk

theorem Idle.opReady (h : C.Idle ready w) : D.opReady w.regs w.pins = some 1 := by
  rw [C.opReady, h.not_stalled h.quiet.resReady]
  rfl

/-! ## The start -/

theorem idle_after_start (w : Wired D.σ (Inputs P)) :
    wp (start D) (fun _ w' => C.Idle true w' ∧ C.contents w'.regs = Pipeline.empty) w := by
  rw [start, wp_bind, wp_drive]
  refine wp_bind_of (wp_ticks (I := fun _ w' => w'.pins = ⟨false, false, 0, 0, 0, true⟩ ∧
    C.contents w'.regs = Pipeline.empty) ?_ ⟨rfl, contents_settle_of_low rfl⟩) ?_
  · rintro - w ⟨hpins, -⟩
    refine ⟨hpins, contents_settle_of_low ?_⟩
    rw [hpins]
  · rintro - w ⟨hpins, hempty⟩
    have hquiet : Quiet true { w.pins with rstN := true } := by
      rw [hpins]
      exact ⟨rfl, rfl, rfl⟩
    have hdriven := contents_driven hempty hquiet.rstN
    rw [wp_bind, wp_drive]
    refine Idle.empties ⟨hquiet, fun s _ => ?_, Or.inl rfl⟩
    rw [hdriven]
    rfl

end Implements

end ReductionEngine.Testbench
