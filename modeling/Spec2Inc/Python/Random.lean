import Mathlib.Algebra.GroupWithZero.Nat
import Mathlib.Data.List.Nodup

/-!
# Random numbers

A generator is a stream of draws, and a call takes its outcome from one or more
of them. For every sequence of outcomes that the library can give there is a
stream that gives it.
-/

namespace Python

/-- `rng.getrandbits(k)`. -/
def getrandbits (k draw : ℕ) : ℕ := draw % 2 ^ k

theorem getrandbits_lt (k draw : ℕ) : getrandbits k draw < 2 ^ k :=
  Nat.mod_lt _ (Nat.two_pow_pos k)

/-- `rng.sample(pool, k)`: `k` elements, each drawn from those not yet taken. -/
def sampleOf {α : Type*} (draws : ℕ → ℕ) : ℕ → List α → List α
  | 0, _ => []
  | k + 1, pool =>
    let i := draws k % pool.length
    match pool[i]? with
    | some x => x :: sampleOf draws k (pool.eraseIdx i)
    | none => []

variable {α : Type*} {draws : ℕ → ℕ} {k : ℕ} {pool : List α}

theorem mem_of_mem_sampleOf {x : α} (h : x ∈ sampleOf draws k pool) : x ∈ pool := by
  induction k generalizing pool with
  | zero => cases h
  | succ k ih =>
      rw [sampleOf] at h
      cases hget : pool[draws k % pool.length]? with
      | none => simp [hget] at h
      | some y =>
          simp only [hget] at h
          rcases List.mem_cons.mp h with rfl | h
          · exact List.mem_of_getElem? hget
          · exact List.mem_of_mem_eraseIdx (ih h)

theorem nodup_sampleOf (h : pool.Nodup) : (sampleOf draws k pool).Nodup := by
  induction k generalizing pool with
  | zero => exact List.nodup_nil
  | succ k ih =>
      rw [sampleOf]
      cases hget : pool[draws k % pool.length]? with
      | none => exact List.nodup_nil
      | some y =>
          have hlt := (List.getElem?_eq_some_iff.mp hget).1
          refine List.nodup_cons.mpr ⟨fun hmem => ?_, ih (h.sublist (List.eraseIdx_sublist _ _))⟩
          obtain ⟨j, hj, hagain⟩ := List.mem_eraseIdx_iff_getElem?.mp (mem_of_mem_sampleOf hmem)
          exact hj ((List.getElem?_inj hlt h).mp (hget.trans hagain.symm)).symm

/-- A sample of a positive size from a non-empty pool has an element. -/
theorem sampleOf_ne_nil (hk : k ≠ 0) (hpool : pool ≠ []) : sampleOf draws k pool ≠ [] := by
  obtain ⟨k, rfl⟩ := Nat.exists_eq_succ_of_ne_zero hk
  have hlt := Nat.mod_lt (draws k) (List.length_pos_iff.mpr hpool)
  rw [sampleOf, List.getElem?_eq_getElem hlt]
  exact List.cons_ne_nil _ _

end Python
