import Mathlib.Data.BitVec
import Mathlib.Tactic.TypeStar

/-!
# Part selects and lanes of a bit vector

`slice v s w` reads the `w` bits of `v` from bit `s` up, and `assign v s x`
replaces them by `x`. A vector of `L * w` bits is also read as `L` lanes of
width `w`: lane `l` occupies the bits from `l * w` up. Assigning one lane
leaves the others alone, so a loop that updates the lanes in place one after
another updates each of them once (`lane_foldl_assign`), and two vectors with
the same lanes are equal (`eq_of_lanes`).
-/

namespace Bits

/-- The bits `[start +: w]` of `v`. -/
def slice {n : ℕ} (v : BitVec n) (start w : ℕ) : BitVec w :=
  v.extractLsb' start w

/-- `v` with the bits `[start +: w]` replaced by `x`. -/
def assign {n w : ℕ} (v : BitVec n) (start : ℕ) (x : BitVec w) : BitVec n :=
  (v &&& ~~~((BitVec.allOnes w).setWidth n <<< start)) ||| (x.setWidth n <<< start)

theorem getLsbD_slice {n : ℕ} (v : BitVec n) (start w i : ℕ) :
    (slice v start w).getLsbD i = (decide (i < w) && v.getLsbD (start + i)) :=
  BitVec.getLsbD_extractLsb' start w v i

theorem getLsbD_assign {n w : ℕ} (v : BitVec n) (start : ℕ) (x : BitVec w)
    {i : ℕ} (hi : i < n) :
    (assign v start x).getLsbD i =
      if start ≤ i ∧ i < start + w then x.getLsbD (i - start) else v.getLsbD i := by
  rw [assign]
  simp only [BitVec.getLsbD_or, BitVec.getLsbD_and, BitVec.getLsbD_not,
    BitVec.getLsbD_shiftLeft, BitVec.getLsbD_setWidth, BitVec.getLsbD_allOnes, hi,
    decide_true, Bool.true_and, show i - start < n by omega]
  by_cases hlow : i < start
  · simp [hlow, show ¬ start ≤ i by omega]
  · by_cases hhigh : i < start + w
    · simp [hlow, show start ≤ i by omega, hhigh, show i - start < w by omega]
    · have hout : x.getLsbD (i - start) = false := BitVec.getLsbD_of_ge _ _ (by omega)
      simp [hlow, hhigh, hout, show ¬ i - start < w by omega]

/-- Lane `l` of width `w`. -/
def lane {n : ℕ} (w : ℕ) (v : BitVec n) (l : ℕ) : BitVec w :=
  slice v (l * w) w

theorem lane_assign_self {n w : ℕ} (v : BitVec n) (l : ℕ) (x : BitVec w)
    (h : (l + 1) * w ≤ n) : lane w (assign v (l * w) x) l = x := by
  apply BitVec.eq_of_getLsbD_eq
  intro i hi
  rw [Nat.succ_mul] at h
  rw [lane, getLsbD_slice, getLsbD_assign _ _ _ (by omega)]
  simp [hi]

theorem lane_assign_of_ne {n w : ℕ} (v : BitVec n) {k l : ℕ} (x : BitVec w)
    (hne : l ≠ k) (h : (l + 1) * w ≤ n) :
    lane w (assign v (k * w) x) l = lane w v l := by
  apply BitVec.eq_of_getLsbD_eq
  intro i hi
  have hout : ¬ (k * w ≤ l * w + i ∧ l * w + i < k * w + w) := by
    rintro ⟨h₁, h₂⟩
    rcases Nat.lt_or_gt_of_ne hne with hlt | hgt
    · have := Nat.mul_le_mul_right w (Nat.succ_le_of_lt hlt)
      rw [Nat.succ_mul] at this
      omega
    · have := Nat.mul_le_mul_right w (Nat.succ_le_of_lt hgt)
      rw [Nat.succ_mul] at this
      omega
  rw [Nat.succ_mul] at h
  rw [lane, lane, getLsbD_slice, getLsbD_slice, getLsbD_assign _ _ _ (by omega), if_neg hout]

/-- Two vectors with the same lanes are equal. -/
theorem eq_of_lanes {L w : ℕ} {v v' : BitVec (L * w)}
    (h : ∀ l < L, lane w v l = lane w v' l) : v = v' := by
  apply BitVec.eq_of_getLsbD_eq
  intro i hi
  have hw : 0 < w := Nat.pos_of_ne_zero (by rintro rfl; simp at hi)
  have hl : i / w < L := Nat.div_lt_of_lt_mul (by rwa [Nat.mul_comm])
  have hbit := congrArg (fun x : BitVec w => x.getLsbD (i % w)) (h (i / w) hl)
  have hi' : i / w * w + i % w = i := Nat.div_add_mod' i w
  simp only [lane, getLsbD_slice, Nat.mod_lt i hw, hi', decide_true, Bool.true_and] at hbit
  exact hbit

/-- A loop that rewrites the first `L` lanes in place, lane `l` from its own
old value by `g l`, rewrites each of them once. -/
theorem lane_foldl_assign {n w : ℕ} (g : ℕ → BitVec w → BitVec w) (v : BitVec n)
    {L : ℕ} (hL : L * w ≤ n) {k : ℕ} (hk : (k + 1) * w ≤ n) :
    lane w ((List.range L).foldl
        (fun acc l => assign acc (l * w) (g l (lane w acc l))) v) k =
      if k < L then g k (lane w v k) else lane w v k := by
  induction L with
  | zero => simp
  | succ L ih =>
      have ih := ih ((Nat.mul_le_mul_right w (Nat.le_succ L)).trans hL)
      rw [List.range_succ, List.foldl_append, List.foldl_cons, List.foldl_nil]
      by_cases hkL : k = L
      · subst hkL
        rw [lane_assign_self _ _ _ hk, ih]
        simp
      · rw [lane_assign_of_ne _ _ hkL hk, ih]
        simp only [Nat.lt_succ_iff_lt_or_eq, hkL, or_false]

/-- Assigning some lanes one after another leaves the others alone. -/
theorem lane_foldl_assign_of_notMem {n w : ℕ} (items : List (ℕ × BitVec w)) (v : BitVec n)
    {k : ℕ} (hk : k ∉ items.map Prod.fst) (hbound : (k + 1) * w ≤ n) :
    lane w (items.foldl (fun acc p => assign acc (p.1 * w) p.2) v) k = lane w v k := by
  induction items generalizing v with
  | nil => rfl
  | cons p items ih =>
      rw [List.map_cons, List.mem_cons, not_or] at hk
      rw [List.foldl_cons, ih _ hk.2, lane_assign_of_ne _ _ hk.1 hbound]

/-- Each lane assigned once holds what was assigned to it. -/
theorem lane_foldl_assign_of_mem {n w : ℕ} {items : List (ℕ × BitVec w)} (v : BitVec n)
    (hnodup : (items.map Prod.fst).Nodup) {k : ℕ} {x : BitVec w} (hmem : (k, x) ∈ items)
    (hbound : (k + 1) * w ≤ n) :
    lane w (items.foldl (fun acc p => assign acc (p.1 * w) p.2) v) k = x := by
  induction items generalizing v with
  | nil => cases hmem
  | cons p items ih =>
      rw [List.map_cons, List.nodup_cons] at hnodup
      rw [List.foldl_cons]
      rcases List.mem_cons.mp hmem with rfl | hmem
      · rw [lane_foldl_assign_of_notMem items _ hnodup.1 hbound, lane_assign_self _ _ _ hbound]
      · exact ih _ hnodup.2 hmem

/-- The vector with lanes `f 0`, `f 1`, ... -/
def ofLanes {w : ℕ} (L : ℕ) (f : ℕ → BitVec w) : BitVec (L * w) :=
  (List.range L).foldl (fun acc l => assign acc (l * w) (f l)) 0

theorem lane_ofLanes {w L : ℕ} (f : ℕ → BitVec w) {l : ℕ} (hl : l < L) :
    lane w (ofLanes L f) l = f l := by
  have h := lane_foldl_assign (fun l _ => f l) (0 : BitVec (L * w)) le_rfl
    (Nat.mul_le_mul_right w (Nat.succ_le_of_lt hl))
  rwa [if_pos hl] at h

end Bits
