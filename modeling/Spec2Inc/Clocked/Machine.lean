import Mathlib.Data.List.Basic
import Mathlib.Tactic.TypeStar

/-!
# Clocked machines with an asynchronous reset

A `Machine σ ι` has registers `σ` and per-cycle inputs `ι`. Within a cycle the
registers are first settled: a low reset input clears them at once, before the
clock edge that ends the cycle. `run` iterates the edge, and `at'` reads the
settled registers, which is what the outputs of a cycle are computed from.

Events are logged since the last reset: `sinceReset` forgets everything as soon
as the reset input is low. Two rules reason about whole runs: `Simulates.at'`
transports a run along a map of registers, and `conservation` says that what
came out, followed by what is still inside, is what went in.
-/

namespace Clocked

/-- A register machine with an active-low asynchronous reset. -/
structure Machine (σ ι : Type*) where
  rstN : ι → Bool
  clear : σ → σ
  edge : σ → ι → σ

namespace Machine

variable {σ ι : Type*} (M : Machine σ ι)

/-- The registers as seen inside a cycle with input `i`. -/
def settle (s : σ) (i : ι) : σ :=
  if M.rstN i then s else M.clear s

/-- The registers at the start of cycle `t`. -/
def run (s₀ : σ) (inp : ℕ → ι) : ℕ → σ
  | 0 => s₀
  | t + 1 => M.edge (M.settle (run s₀ inp t) (inp t)) (inp t)

/-- The settled registers of cycle `t`. -/
def at' (s₀ : σ) (inp : ℕ → ι) (t : ℕ) : σ :=
  M.settle (M.run s₀ inp t) (inp t)

theorem settle_of_high {s : σ} {i : ι} (h : M.rstN i = true) :
    M.settle s i = s := by
  simp [settle, h]

theorem settle_of_low {s : σ} {i : ι} (h : M.rstN i = false) :
    M.settle s i = M.clear s := by
  simp [settle, h]

@[simp] theorem run_zero (s₀ : σ) (inp : ℕ → ι) : M.run s₀ inp 0 = s₀ := rfl

theorem run_succ (s₀ : σ) (inp : ℕ → ι) (t : ℕ) :
    M.run s₀ inp (t + 1) = M.edge (M.at' s₀ inp t) (inp t) := rfl

theorem at'_succ_of_high {s₀ : σ} {inp : ℕ → ι} {t : ℕ}
    (h : M.rstN (inp (t + 1)) = true) :
    M.at' s₀ inp (t + 1) = M.edge (M.at' s₀ inp t) (inp t) := by
  rw [at', settle_of_high M h, run_succ]

theorem at'_of_low {s₀ : σ} {inp : ℕ → ι} {t : ℕ}
    (h : M.rstN (inp t) = false) :
    M.at' s₀ inp t = M.clear (M.run s₀ inp t) := by
  rw [at', settle_of_low M h]

end Machine

section Simulation

variable {σ ι τ κ : Type*} {M : Machine σ ι} {N : Machine τ κ}

/-- `f` carries the registers of `M` to those of `N`, and `g` the inputs, so
that resets, clears and clock edges agree. -/
structure Simulates (M : Machine σ ι) (N : Machine τ κ)
    (f : σ → τ) (g : ι → κ) : Prop where
  rstN : ∀ i, N.rstN (g i) = M.rstN i
  clear : ∀ s, f (M.clear s) = N.clear (f s)
  edge : ∀ s i, f (M.edge s i) = N.edge (f s) (g i)

theorem Simulates.settle {f : σ → τ} {g : ι → κ} (h : Simulates M N f g)
    (s : σ) (i : ι) : f (M.settle s i) = N.settle (f s) (g i) := by
  cases hi : M.rstN i with
  | false =>
      rw [M.settle_of_low hi, N.settle_of_low ((h.rstN i).trans hi), h.clear]
  | true =>
      rw [M.settle_of_high hi, N.settle_of_high ((h.rstN i).trans hi)]

theorem Simulates.run {f : σ → τ} {g : ι → κ} (h : Simulates M N f g)
    (s₀ : σ) (inp : ℕ → ι) (t : ℕ) :
    f (M.run s₀ inp t) = N.run (f s₀) (fun k => g (inp k)) t := by
  induction t with
  | zero => rfl
  | succ t ih =>
      rw [M.run_succ, N.run_succ, h.edge, Machine.at', h.settle, ih]
      rfl

theorem Simulates.at' {f : σ → τ} {g : ι → κ} (h : Simulates M N f g)
    (s₀ : σ) (inp : ℕ → ι) (t : ℕ) :
    f (M.at' s₀ inp t) = N.at' (f s₀) (fun k => g (inp k)) t := by
  rw [Machine.at', h.settle, h.run s₀ inp t]
  rfl

end Simulation

section Log

variable {α : Type*}

/-- The events of the cycles before `t` since the last reset, oldest first.
Cycle `t` itself already counts as a reset when `rstN t` is low. -/
def sinceReset (rstN : ℕ → Bool) (ev : ℕ → List α) : ℕ → List α
  | 0 => []
  | t + 1 => if rstN (t + 1) then
      sinceReset rstN ev t ++ (if rstN t then ev t else []) else []

variable (rstN : ℕ → Bool) (ev : ℕ → List α)

@[simp] theorem sinceReset_zero : sinceReset rstN ev 0 = [] := rfl

theorem sinceReset_of_low {t : ℕ} (h : rstN t = false) :
    sinceReset rstN ev t = [] := by
  cases t with
  | zero => rfl
  | succ t => simp [sinceReset, h]

theorem sinceReset_succ {t : ℕ} (h : rstN t = true) (h' : rstN (t + 1) = true) :
    sinceReset rstN ev (t + 1) = sinceReset rstN ev t ++ ev t := by
  simp [sinceReset, h, h']

theorem sinceReset_succ_of_low {t : ℕ} (h : rstN t = false) :
    sinceReset rstN ev (t + 1) = [] := by
  simp [sinceReset, h, sinceReset_of_low rstN ev h]

theorem sinceReset_filterMap {β : Type*} (f : α → Option β) (t : ℕ) :
    sinceReset rstN (fun k => (ev k).filterMap f) t =
      (sinceReset rstN ev t).filterMap f := by
  induction t with
  | zero => rfl
  | succ t ih =>
      cases h' : rstN (t + 1) <;> cases h : rstN t <;>
        simp [sinceReset, h, h', ih]

end Log

/-- The conservation rule: when each cycle with the reset high moves `took`
into the machine and `gave` out of it, and clearing empties it, everything
given since the last reset, followed by the contents, is everything taken. -/
theorem conservation {σ ι α : Type*} {M : Machine σ ι}
    {contents : σ → List α} {took gave : σ → ι → List α}
    (hclear : ∀ s, contents (M.clear s) = [])
    (hlow : ∀ s i, M.rstN i = false → contents s = [] → contents (M.edge s i) = [])
    (hedge : ∀ s i, M.rstN i = true →
      gave s i ++ contents (M.edge s i) = contents s ++ took s i)
    {s₀ : σ} (h₀ : contents s₀ = []) (inp : ℕ → ι) (t : ℕ) :
    sinceReset (fun k => M.rstN (inp k)) (fun k => gave (M.at' s₀ inp k) (inp k)) t ++
        contents (M.at' s₀ inp t) =
      sinceReset (fun k => M.rstN (inp k)) (fun k => took (M.at' s₀ inp k) (inp k)) t := by
  induction t with
  | zero =>
      cases h : M.rstN (inp 0) with
      | false => simp [M.at'_of_low h, hclear]
      | true => simp [Machine.at', M.settle_of_high h, h₀]
  | succ t ih =>
      cases h' : M.rstN (inp (t + 1)) with
      | false =>
          rw [sinceReset_of_low _ _ h', sinceReset_of_low _ _ h', M.at'_of_low h', hclear]
          rfl
      | true =>
          rw [M.at'_succ_of_high h']
          cases h : M.rstN (inp t) with
          | false =>
              rw [sinceReset_succ_of_low _ _ h, sinceReset_succ_of_low _ _ h]
              exact hlow _ _ h (by rw [M.at'_of_low h, hclear])
          | true =>
              rw [sinceReset_succ _ _ h h', sinceReset_succ _ _ h h', ← ih,
                List.append_assoc, List.append_assoc, hedge _ _ h]

end Clocked
