import Spec2Inc.Rtl.ReductionEngine.Registers

/-!
# The latency of `reduction_engine`

A result is at the output exactly when `RED_LATENCY` cycles without a stall
have passed since its operand set was accepted. The run is arbitrary up to a
reset in cycle `r`, registers included, and has no reset from then up to the
cycle looked at.
-/

open Clocked Spec2incPkg

namespace ReductionEngine

variable {P : Params} (q₀ : Regs P) (inp : ℕ → Inputs P)

/-- Cycle `t` accepts an operand set. -/
def acceptsAt (t : ℕ) : Bool :=
  (inp t).opValid && opReady ((engine P).at' q₀ inp t) (inp t)

/-- Cycle `t` is stalled. -/
def stallAt (t : ℕ) : Bool :=
  stall ((engine P).at' q₀ inp t) (inp t)

/-- The number of cycles in `[t, u)` that are not stalled. -/
def movingCycles (t u : ℕ) : ℕ :=
  Pipeline.progress (fun k => !stallAt q₀ inp k) t u

/-- The number of stalled cycles in `[t, u)`. -/
def stalledCycles (t u : ℕ) : ℕ :=
  Pipeline.progress (stallAt q₀ inp) t u

/-- The operand set accepted in cycle `t` has moved through all stages by
cycle `u`. -/
def finishesAt (t u : ℕ) : Prop :=
  acceptsAt q₀ inp t = true ∧ movingCycles q₀ inp t u = P.redLatency

/-- The outputs offer the token `x` in cycle `u`. -/
def offersAt (u : ℕ) (x : Token) : Prop :=
  resValid ((engine P).at' q₀ inp u) = true ∧
    (resData ((engine P).at' q₀ inp u), resId ((engine P).at' q₀ inp u)) = x

theorem free_ports :
    Pipeline.free (slots q₀) (fun k => ports (inp k)) =
      fun k => !stallAt q₀ inp k := by
  funext k
  rw [Pipeline.free, ← (simulates_pipeline P).at', stalled_slots]
  rfl

/-- The token at the output is the operand set that finishes there. -/
theorem out_eq_some_iff {r u : ℕ} (hru : r ≤ u) (hr : (inp r).rstN = false)
    (hrun : ∀ k, r < k → k ≤ u → (inp k).rstN = true) (x : Token) :
    Pipeline.out (slots ((engine P).at' q₀ inp u)) = some x ↔
      ∃ t, r < t ∧ t < u ∧ finishesAt q₀ inp t u ∧ operandSet (inp t) = x := by
  have hlast : (Pipeline.last : Fin P.redLatency).val + 1 = P.redLatency :=
    Nat.sub_add_cancel P.redLatency_pos
  rw [(simulates_pipeline P).at', Pipeline.out,
    Pipeline.slot_eq_some_iff (slots q₀) (fun k => ports (inp k)) hru hr hrun,
    Pipeline.Admitted, free_ports, hlast]
  refine exists_congr fun t => and_congr_right fun _ => and_congr_right fun _ => ?_
  simp only [finishesAt, acceptsAt, movingCycles, opReady]
  cases hv : (inp t).opValid <;> simp [ports, hv, stallAt, and_comm, and_left_comm]

theorem finishesAt_unique {t t' u : ℕ} (htu : t < u) (htu' : t' < u)
    (h : finishesAt q₀ inp t u) (h' : finishesAt q₀ inp t' u) : t = t' := by
  have hfree : ∀ {k}, acceptsAt q₀ inp k = true → (!stallAt q₀ inp k) = true := by
    intro k hk
    simp only [acceptsAt, opReady, Bool.and_eq_true] at hk
    exact hk.2
  exact Pipeline.progress_injective _ (hfree h.1) (hfree h'.1) htu htu'
    (h.2.trans h'.2.symm)

theorem resValid_iff {r u : ℕ} (hru : r ≤ u) (hr : (inp r).rstN = false)
    (hrun : ∀ k, r < k → k ≤ u → (inp k).rstN = true) :
    resValid ((engine P).at' q₀ inp u) = true ↔
      ∃ t, r < t ∧ t < u ∧ finishesAt q₀ inp t u := by
  rw [← out_slots_isSome, Option.isSome_iff_exists]
  constructor
  · rintro ⟨x, hx⟩
    obtain ⟨t, hrt, htu, hf, -⟩ := (out_eq_some_iff q₀ inp hru hr hrun x).mp hx
    exact ⟨t, hrt, htu, hf⟩
  · rintro ⟨t, hrt, htu, hf⟩
    exact ⟨_, (out_eq_some_iff q₀ inp hru hr hrun _).mpr ⟨t, hrt, htu, hf, rfl⟩⟩

/-- The outputs show the operand set that finishes in this cycle. -/
theorem offersAt_of_finishesAt {r t u : ℕ} (hru : r ≤ u) (hr : (inp r).rstN = false)
    (hrun : ∀ k, r < k → k ≤ u → (inp k).rstN = true)
    (hrt : r < t) (htu : t < u) (hf : finishesAt q₀ inp t u) :
    offersAt q₀ inp u (operandSet (inp t)) := by
  have hout := (out_eq_some_iff q₀ inp hru hr hrun _).mpr ⟨t, hrt, htu, hf, rfl⟩
  rw [out_slots] at hout
  cases hv : resValid ((engine P).at' q₀ inp u) with
  | false => simp [hv] at hout
  | true => exact ⟨hv, by simpa [hv] using hout⟩

/-- A result not taken freezes the registers. -/
theorem at'_succ_of_stall {u : ℕ} (hu : (inp u).rstN = true)
    (hu' : (inp (u + 1)).rstN = true) (hs : stallAt q₀ inp u = true) :
    (engine P).at' q₀ inp (u + 1) = (engine P).at' q₀ inp u := by
  rw [Machine.at'_succ_of_high _ hu']
  change alwaysFf _ _ = _
  rw [stallAt] at hs
  simp [alwaysFf, hu, hs]

/-- Moving and stalled cycles together fill the window. -/
theorem movingCycles_add_stalledCycles {t u : ℕ} (h : t ≤ u) :
    movingCycles q₀ inp t u + stalledCycles q₀ inp t u = u - t := by
  have hsum := Pipeline.progress_add_progress_not (fun k => !stallAt q₀ inp k) h
  simp only [Bool.not_not] at hsum
  exact hsum

theorem movingCycles_eq_iff {t u n : ℕ} (h : t ≤ u) :
    movingCycles q₀ inp t u = n ↔ u = t + n + stalledCycles q₀ inp t u := by
  have := movingCycles_add_stalledCycles q₀ inp h
  omega

theorem stalledCycles_eq_zero {t u : ℕ}
    (h : ∀ k, t ≤ k → k < u → stallAt q₀ inp k = false) :
    stalledCycles q₀ inp t u = 0 := by
  rw [stalledCycles, Pipeline.progress, Finset.card_eq_zero, Finset.filter_eq_empty_iff]
  intro k hk
  rw [Finset.mem_Ico] at hk
  simp [h k hk.1 hk.2]

/-- Exact latency and channel stability, in any run from a reset on. The result
of the operand set accepted in cycle `t` is at the output in cycle `u` exactly
when the window `[t, u)` has `RED_LATENCY` cycles that are not stalled, that is
when `u` is `RED_LATENCY` cycles later plus the stalled ones. Cycles in which
`res_ready` is high or nothing waits at the output delay nothing. -/
theorem reductionEngine_exact_latency (P : Params) (q₀ : Regs P) (inp : ℕ → Inputs P)
    {r u : ℕ} (hru : r ≤ u) (hr : (inp r).rstN = false)
    (hrun : ∀ k, r < k → k ≤ u → (inp k).rstN = true) :
    (resValid ((engine P).at' q₀ inp u) = true ↔
        ∃ t, r < t ∧ t < u ∧ finishesAt q₀ inp t u) ∧
      (∀ t t', t < u → t' < u → finishesAt q₀ inp t u → finishesAt q₀ inp t' u →
        t = t') ∧
      (∀ t, r < t → t < u → acceptsAt q₀ inp t = true →
        (finishesAt q₀ inp t u ↔ u = t + P.redLatency + stalledCycles q₀ inp t u) ∧
          (finishesAt q₀ inp t u → offersAt q₀ inp u (operandSet (inp t)))) ∧
      (∀ t, r < t → acceptsAt q₀ inp t = true → u = t + P.redLatency →
        (∀ k, t ≤ k → k < u →
          (inp k).resReady = true ∨ resValid ((engine P).at' q₀ inp k) = false) →
        offersAt q₀ inp u (operandSet (inp t))) ∧
      (r < u → (inp (u + 1)).rstN = true →
        resValid ((engine P).at' q₀ inp u) = true → (inp u).resReady = false →
        opReady ((engine P).at' q₀ inp u) (inp u) = false ∧
          resValid ((engine P).at' q₀ inp (u + 1)) = true ∧
          resData ((engine P).at' q₀ inp (u + 1)) = resData ((engine P).at' q₀ inp u) ∧
          resId ((engine P).at' q₀ inp (u + 1)) = resId ((engine P).at' q₀ inp u)) := by
  refine ⟨resValid_iff q₀ inp hru hr hrun, ?_, ?_, ?_, ?_⟩
  · intro t t' htu htu'
    exact finishesAt_unique q₀ inp htu htu'
  · intro t hrt htu ha
    constructor
    · rw [finishesAt, ha, movingCycles_eq_iff q₀ inp htu.le]
      exact and_iff_right rfl
    · exact offersAt_of_finishesAt q₀ inp hru hr hrun hrt htu
  · intro t hrt ha hu hready
    have htu : t < u := by have := P.redLatency_pos; omega
    have hzero : stalledCycles q₀ inp t u = 0 := by
      refine stalledCycles_eq_zero q₀ inp fun k htk hku => ?_
      rcases hready k htk hku with h | h <;> simp [stallAt, stall, h]
    have hmoved := (movingCycles_eq_iff q₀ inp htu.le (n := P.redLatency)).mpr (by omega)
    exact offersAt_of_finishesAt q₀ inp hru hr hrun hrt htu ⟨ha, hmoved⟩
  · intro hlt hu' hv hready
    have hs : stallAt q₀ inp u = true := by simp [stallAt, stall, hv, hready]
    rw [at'_succ_of_stall q₀ inp (hrun u hlt le_rfl) hu' hs]
    exact ⟨by simpa [stallAt, opReady] using hs, hv, rfl, rfl⟩

/-! Two ports and depth three. The registers hold three stale results up to the
reset in cycle zero, operand sets are offered in the cycles 1 and 2, and the
consumer does not take the first result in cycle 4. -/

def threeDeep : Params := ⟨2, 3, by decide, by decide⟩

def staleRegs : Regs threeDeep where
  vldQ := Vector.replicate 3 true
  dataQ := Vector.replicate 3 5
  idQ := Vector.replicate 3 1

def stalledOnce : ℕ → Inputs threeDeep := fun k =>
  { rstN := k != 0
    opValid := k == 1 || k == 2
    opMask := if k = 1 then 0b11 else 0b10
    opData := BitVec.ofNat _ (30 * 2 ^ dataW + 7 + k)
    opId := BitVec.ofNat _ k
    resReady := k != 4 }

/-- The first result is at the output three cycles later, in cycle 4, and held
over the stall; the second one is a cycle late. -/
theorem reductionEngine_exact_latency_stalledOnce :
    offersAt staleRegs stalledOnce 4 (38, 1) ∧
      opReady ((engine threeDeep).at' staleRegs stalledOnce 4) (stalledOnce 4) = false ∧
      offersAt staleRegs stalledOnce 5 (38, 1) ∧
      stalledCycles staleRegs stalledOnce 2 6 = 1 ∧
      offersAt staleRegs stalledOnce 6 (30, 2) := by
  have hrun : ∀ k, 0 < k → (stalledOnce k).rstN = true := by
    intro k hk
    simp [stalledOnce]
    omega
  have hsets : operandSet (stalledOnce 1) = (38, 1) ∧ operandSet (stalledOnce 2) = (30, 2) := by
    decide +kernel
  have hstalls : stalledCycles staleRegs stalledOnce 2 6 = 1 := by decide +kernel
  obtain ⟨-, -, -, hfirst, hheld⟩ := reductionEngine_exact_latency threeDeep staleRegs
    stalledOnce (Nat.zero_le 4) rfl fun k hk _ => hrun k hk
  obtain ⟨-, -, hsecond, -, -⟩ := reductionEngine_exact_latency threeDeep staleRegs
    stalledOnce (Nat.zero_le 6) rfl fun k hk _ => hrun k hk
  have h4 := hfirst 1 Nat.one_pos (by decide +kernel) rfl (by decide +kernel)
  obtain ⟨hready, hvalid, hdata, hid⟩ := hheld (by decide) rfl h4.1 rfl
  obtain ⟨hlate, hoffer⟩ := hsecond 2 Nat.two_pos (by decide) (by decide +kernel)
  have h6 := hoffer (hlate.mpr (by rw [hstalls]; rfl))
  rw [hsets.1] at h4
  rw [hsets.2] at h6
  refine ⟨h4, hready, ⟨hvalid, ?_⟩, hstalls, h6⟩
  rw [hdata, hid]
  exact h4.2

end ReductionEngine
