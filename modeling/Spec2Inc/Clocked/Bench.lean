import Mathlib.Data.List.Basic
import Spec2Inc.Clocked.Machine

/-!
# Testbenches over a clocked machine

A testbench drives the input pins of a machine, lets clock edges pass, reads the
outputs, and may raise. `Bench` is the monad of such programs. Its state is the
registers with the values on the pins; the registers are always settled, so an
asynchronous reset acts as soon as it is driven.

`wp x Q w` says that from `w` the program returns, with `Q` of what it returns
and of what it leaves. It is computed along the program: the rules for `bind`
and for the primitives are equivalences, so they decide which programs return as
well as what those leave. `wp_forM` and `wp_foldlM` carry an invariant through a
loop.
-/

namespace Clocked

/-- The settled registers, and what the testbench has put on the pins. -/
structure Wired (σ ι : Type) where
  regs : σ
  pins : ι

/-- A program that drives and watches a machine, or raises. -/
abbrev Bench (ε σ ι : Type) : Type → Type := StateT (Wired σ ι) (Except ε)

namespace Bench

variable {ε σ ι α β : Type}

/-- Put values on the pins. A reset lowered by this clears the registers at once. -/
def drive (M : Machine σ ι) (f : ι → ι) : Bench ε σ ι Unit :=
  fun w => .ok ((), ⟨M.settle w.regs (f w.pins), f w.pins⟩)

/-- Let the rising edge pass, and the registers settle after it. -/
def tick (M : Machine σ ι) : Bench ε σ ι Unit :=
  fun w => .ok ((), ⟨M.settle (M.edge w.regs w.pins) w.pins, w.pins⟩)

/-- Let `n` rising edges pass. -/
def ticks (M : Machine σ ι) : ℕ → Bench ε σ ι Unit
  | 0 => pure ()
  | n + 1 => do
    tick M
    ticks M n

/-- Read an output. -/
def sample (g : σ → ι → α) : Bench ε σ ι α := fun w => .ok (g w.regs w.pins, w)

/-- Do what may raise without touching the machine. -/
def lift (x : Except ε α) : Bench ε σ ι α := fun w => x.map fun a => (a, w)

/-- From `w` the program returns, with `Q` of the outcome. -/
def wp (x : Bench ε σ ι α) (Q : α → Wired σ ι → Prop) (w : Wired σ ι) : Prop :=
  ∃ a w', x w = .ok (a, w') ∧ Q a w'

/-- From `w` the program returns. -/
def Passes (x : Bench ε σ ι α) (w : Wired σ ι) : Prop := wp x (fun _ _ => True) w

/-! ## One step at a time -/

section Rules

variable {M : Machine σ ι} {w : Wired σ ι} {x : Bench ε σ ι α} {f : α → Bench ε σ ι β}
  {Q Q' : α → Wired σ ι → Prop} {R : β → Wired σ ι → Prop} {U : Unit → Wired σ ι → Prop}

theorem wp_of_eq_ok {a : α} {w' : Wired σ ι} (h : x w = .ok (a, w')) : wp x Q w ↔ Q a w' := by
  constructor
  · rintro ⟨b, w₁, hx, hb⟩
    obtain ⟨rfl, rfl⟩ := Prod.mk.inj (Except.ok.inj (h.symm.trans hx))
    exact hb
  · intro ha
    exact ⟨a, w', h, ha⟩

@[simp] theorem wp_pure {a : α} : wp (pure a : Bench ε σ ι α) Q w ↔ Q a w :=
  wp_of_eq_ok rfl

@[simp] theorem wp_drive {g : ι → ι} :
    wp (drive M g : Bench ε σ ι Unit) U w ↔ U () ⟨M.settle w.regs (g w.pins), g w.pins⟩ :=
  wp_of_eq_ok rfl

@[simp] theorem wp_tick :
    wp (tick M : Bench ε σ ι Unit) U w ↔
      U () ⟨M.settle (M.edge w.regs w.pins) w.pins, w.pins⟩ :=
  wp_of_eq_ok rfl

@[simp] theorem wp_sample {g : σ → ι → α} :
    wp (sample g : Bench ε σ ι α) Q w ↔ Q (g w.regs w.pins) w :=
  wp_of_eq_ok rfl

@[simp] theorem wp_lift {y : Except ε α} :
    wp (lift y : Bench ε σ ι α) Q w ↔ ∃ a, y = .ok a ∧ Q a w := by
  cases y with
  | ok a =>
      have hrun : (lift (.ok a) : Bench ε σ ι α) w = .ok (a, w) := rfl
      rw [wp_of_eq_ok hrun]
      simp
  | error e =>
      constructor
      · rintro ⟨a, w', hx, -⟩
        cases hx
      · rintro ⟨a, hy, -⟩
        cases hy

theorem wp_lift_unit {y : Except ε Unit} :
    wp (lift y : Bench ε σ ι Unit) U w ↔ y = .ok () ∧ U () w := by
  rw [wp_lift]
  exact ⟨fun ⟨_, hy, hU⟩ => ⟨hy, hU⟩, fun ⟨hy, hU⟩ => ⟨(), hy, hU⟩⟩

@[simp] theorem wp_bind : wp (x >>= f) R w ↔ wp x (fun a => wp (f a) R) w := by
  have hrun : (x >>= f) w = (x w >>= fun p => f p.1 p.2) := rfl
  cases hx : x w with
  | ok p =>
      rw [hx] at hrun
      rw [wp_of_eq_ok hx, wp, hrun]
      rfl
  | error e =>
      rw [hx] at hrun
      constructor
      · rintro ⟨b, w', h, -⟩
        cases hrun.symm.trans h
      · rintro ⟨a, w', h, -⟩
        cases hx.symm.trans h

/-- What did not raise is over. -/
theorem wp_bind_lift_of_eq_ok {y : Except ε α} {a : α} (hy : y = .ok a) :
    wp (lift y >>= f) R w ↔ wp (f a) R w := by
  subst hy
  rfl

theorem wp_mono (h : wp x Q w) (hQ : ∀ a w', Q a w' → Q' a w') : wp x Q' w := by
  obtain ⟨a, w', hx, ha⟩ := h
  exact ⟨a, w', hx, hQ a w' ha⟩

/-- What follows a program is judged by what the program leaves. -/
theorem wp_bind_iff {C : Prop} (h : wp x Q w) (hf : ∀ a w', Q a w' → (wp (f a) R w' ↔ C)) :
    wp (x >>= f) R w ↔ C := by
  obtain ⟨a, w', hx, ha⟩ := h
  rw [wp_bind, wp_of_eq_ok hx, hf a w' ha]

theorem wp_bind_of (h : wp x Q w) (hf : ∀ a w', Q a w' → wp (f a) R w') :
    wp (x >>= f) R w :=
  wp_bind.mpr (wp_mono h hf)

theorem not_wp_bind (h : wp x Q w) (hf : ∀ a w', Q a w' → ¬ wp (f a) R w') :
    ¬ wp (x >>= f) R w := by
  obtain ⟨a, w', hx, ha⟩ := h
  rw [wp_bind, wp_of_eq_ok hx]
  exact hf a w' ha

/-- A program that cannot return does not return with more behind it. -/
theorem not_wp_bind_of_not_passes (h : ¬ Passes x w) : ¬ wp (x >>= f) R w := by
  rw [wp_bind]
  exact fun hx => h (wp_mono hx fun _ _ _ => trivial)

end Rules

/-! ## Loops -/

section Loops

variable {w : Wired σ ι} {M : Machine σ ι}

/-- `I n` before `n` edges gives `I 0` after them. -/
theorem wp_ticks {I : ℕ → Wired σ ι → Prop}
    (hstep : ∀ n w, I (n + 1) w → I n ⟨M.settle (M.edge w.regs w.pins) w.pins, w.pins⟩)
    {n : ℕ} (h : I n w) : wp (ticks M n : Bench ε σ ι Unit) (fun _ => I 0) w := by
  induction n generalizing w with
  | zero => exact wp_pure.mpr h
  | succ n ih => exact wp_bind.mpr (wp_tick.mpr (ih (hstep n w h)))

/-- An invariant of the elements visited so far and of the accumulator. -/
theorem wp_foldlM {f : β → α → Bench ε σ ι β} {I : List α → β → Wired σ ι → Prop} {l : List α}
    (hstep : ∀ done x rest b w, l = done ++ x :: rest → I done b w →
      wp (f b x) (fun b' w' => I (done ++ [x]) b' w') w) {b : β} (h : I [] b w) :
    wp (l.foldlM f b) (I l) w := by
  suffices hgen : ∀ rest done : List α, l = done ++ rest → ∀ b w, I done b w →
      wp (rest.foldlM f b) (I l) w from hgen l [] rfl b w h
  intro rest
  induction rest with
  | nil =>
      intro done hl b w hI
      rw [List.append_nil] at hl
      subst hl
      exact wp_pure.mpr hI
  | cons x rest ih =>
      intro done hl b w hI
      rw [List.foldlM_cons]
      refine wp_bind_of (hstep done x rest b w hl hI) fun b' w' hI' => ?_
      exact ih (done ++ [x]) (by rw [hl, List.append_assoc]; rfl) b' w' hI'

/-- The same without an accumulator. -/
theorem wp_forM {f : α → Bench ε σ ι Unit} {I : List α → Wired σ ι → Prop} {l : List α}
    (hstep : ∀ done x rest w, l = done ++ x :: rest → I done w →
      wp (f x) (fun _ w' => I (done ++ [x]) w') w) (h : I [] w) :
    wp (forM l f) (fun _ => I l) w := by
  suffices hgen : ∀ rest done : List α, l = done ++ rest → ∀ w, I done w →
      wp (forM rest f) (fun _ => I l) w from hgen l [] rfl w h
  intro rest
  induction rest with
  | nil =>
      intro done hl w hI
      rw [List.append_nil] at hl
      subst hl
      exact wp_pure.mpr hI
  | cons x rest ih =>
      intro done hl w hI
      rw [List.forM_cons]
      refine wp_bind_of (hstep done x rest w hl hI) fun _ w' hI' => ?_
      exact ih (done ++ [x]) (by rw [hl, List.append_assoc]; rfl) w' hI'

/-- An invariant that every pass keeps. -/
theorem wp_forM_of_mem {f : α → Bench ε σ ι Unit} {I : Wired σ ι → Prop} {l : List α}
    (hstep : ∀ x ∈ l, ∀ w, I w → wp (f x) (fun _ => I) w) (h : I w) :
    wp (forM l f) (fun _ => I) w := by
  refine wp_forM (I := fun _ => I) (fun done x rest w hl => hstep x ?_ w) h
  rw [hl]
  exact List.mem_append_cons_self

end Loops

end Bench

end Clocked
