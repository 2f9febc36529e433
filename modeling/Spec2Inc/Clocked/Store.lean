import Mathlib.Data.List.Induction
import Mathlib.Logic.Function.Basic
import Spec2Inc.Clocked.Machine

/-!
# A resettable store with one write port

A store maps indices to optional values. A write replaces the value at one
index, or erases it, at the clock edge; a reset erases everything. Its contents
are a function of the writes since the last reset alone: what an index holds is
what the most recent write to that index put there.
-/

namespace Clocked

namespace Store

variable {ι β : Type*} [DecidableEq ι]

/-- The inputs of one cycle: the reset, and the write presented. -/
structure Input (ι β : Type*) where
  rstN : Bool
  write : Option (ι × Option β)

/-- The store with nothing in it. -/
def empty : ι → Option β := fun _ => none

/-- One write: index `w.1` now holds `w.2`. -/
def put (m : ι → Option β) (w : ι × Option β) : ι → Option β :=
  Function.update m w.1 w.2

/-- The store as a clocked machine. -/
def machine (ι β : Type*) [DecidableEq ι] : Machine (ι → Option β) (Input ι β) where
  rstN := Input.rstN
  clear _ := empty
  edge m i := if i.rstN then i.write.elim m (put m) else empty

/-- The store after the writes of `h`, oldest first. -/
def replay (h : List (ι × Option β)) : ι → Option β :=
  h.foldl put empty

/-- The most recent write of `h` to index `i`. -/
def lastWrite (h : List (ι × Option β)) (i : ι) : Option (ι × Option β) :=
  (h.filter fun w => w.1 = i).getLast?

theorem replay_append_toList (h : List (ι × Option β)) (w : Option (ι × Option β)) :
    replay (h ++ w.toList) = w.elim (replay h) (put (replay h)) := by
  cases w <;> simp [replay]

/-- What an index holds is what the last write to it put there. -/
theorem replay_apply (h : List (ι × Option β)) (i : ι) :
    replay h i = (lastWrite h i).bind Prod.snd := by
  induction h using List.reverseRecOn with
  | nil => rfl
  | append_singleton h w ih =>
      have hreplay : replay (h ++ [w]) = put (replay h) w := by simp [replay]
      rw [hreplay, put, lastWrite, List.filter_append]
      by_cases hw : w.1 = i
      · subst hw
        simp
      · rw [Function.update_of_ne (Ne.symm hw), ih]
        simp [hw, lastWrite]

/-- From the first reset on, the contents are the replayed writes since the
last reset, whatever the store held before. -/
theorem at'_eq_replay (m₀ : ι → Option β) (inp : ℕ → Input ι β) :
    ∀ {t : ℕ}, (∃ r ≤ t, (inp r).rstN = false) →
      (machine ι β).at' m₀ inp t =
        replay (sinceReset (fun k => (inp k).rstN) (fun k => (inp k).write.toList) t)
  | t, ⟨r, hrt, hr⟩ => by
    induction t with
    | zero =>
        obtain rfl : r = 0 := by omega
        rw [Machine.at'_of_low _ hr]
        rfl
    | succ t ih =>
        cases h' : (inp (t + 1)).rstN with
        | false =>
            rw [Machine.at'_of_low _ h', sinceReset_of_low _ _ h']
            rfl
        | true =>
            rw [Machine.at'_succ_of_high _ h']
            cases h : (inp t).rstN with
            | false =>
                rw [sinceReset_succ_of_low _ _ h]
                simp [machine, h, replay]
            | true =>
                have hne : r ≠ t + 1 := by
                  rintro rfl
                  rw [hr] at h'
                  cases h'
                rw [sinceReset_succ _ _ h h', replay_append_toList, ih (by omega)]
                simp [machine, h]

end Store

end Clocked
