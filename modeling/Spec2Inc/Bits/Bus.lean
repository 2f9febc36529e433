import Mathlib.Data.List.Nodup
import Mathlib.Data.Nat.Bitwise
import Mathlib.Algebra.Order.Ring.Int
import Spec2Inc.Bits.Slice

/-!
# Words side by side on a bus

`bus w items` puts the words of `items` side by side, the word `x` of an item
`(k, x)` from bit `k * w` up, by shifting each in place and taking the
disjunction. `busWord w b k` reads the word at position `k` back. Words that
fit their slots do not disturb one another: reading gives the word that was put
there (`busWord_bus_of_mem`), and zero where none was (`busWord_bus_of_notMem`).
A bus built by adding the shifted words is the same (`sum_shiftLeft_eq_bus`).
-/

namespace Bits

/-- `bus |= x << (k * w)`, over the items `(k, x)` in turn. -/
def bus (w : ℕ) (items : List (ℕ × ℕ)) : ℕ :=
  items.foldl (fun b p => b ||| p.2 <<< (p.1 * w)) 0

/-- `(b >> (k * w)) & ((1 << w) - 1)`. -/
def busWord (w b k : ℕ) : ℕ := (b >>> (k * w)) &&& (1 <<< w - 1)

variable {w k x : ℕ} {items : List (ℕ × ℕ)}

theorem busWord_eq (w b k : ℕ) : busWord w b k = b / 2 ^ (k * w) % 2 ^ w := by
  rw [busWord, Nat.one_shiftLeft, Nat.and_two_pow_sub_one_eq_mod, Nat.shiftRight_eq_div_pow]

theorem busWord_lt (w b k : ℕ) : busWord w b k < 2 ^ w := by
  rw [busWord_eq]
  exact Nat.mod_lt _ (Nat.two_pow_pos w)

theorem testBit_busWord (w b k i : ℕ) :
    (busWord w b k).testBit i = (decide (i < w) && b.testBit (k * w + i)) := by
  rw [busWord, Nat.testBit_and, Nat.testBit_shiftRight, Nat.one_shiftLeft,
    Nat.testBit_two_pow_sub_one, Bool.and_comm]

/-- A bit of the bus comes from one of its items. -/
theorem testBit_bus (w : ℕ) (items : List (ℕ × ℕ)) (j : ℕ) :
    (bus w items).testBit j =
      items.any fun p => decide (p.1 * w ≤ j) && p.2.testBit (j - p.1 * w) := by
  have key : ∀ (items : List (ℕ × ℕ)) (b : ℕ),
      (items.foldl (fun b p => b ||| p.2 <<< (p.1 * w)) b).testBit j =
        (b.testBit j || items.any fun p =>
          decide (p.1 * w ≤ j) && p.2.testBit (j - p.1 * w)) := by
    intro items
    induction items with
    | nil => simp
    | cons p items ih =>
        intro b
        rw [List.foldl_cons, ih, Nat.testBit_or, Nat.testBit_shiftLeft, List.any_cons,
          Bool.or_assoc]
  rw [bus, key, Nat.zero_testBit, Bool.false_or]

/-- A word that fits its slot has no bit in another. -/
theorem testBit_slot {p : ℕ × ℕ} (hp : p.2 < 2 ^ w) {i : ℕ} (hi : i < w) :
    (p.1 * w ≤ k * w + i ∧ p.2.testBit (k * w + i - p.1 * w) = true) ↔
      p.1 = k ∧ p.2.testBit i = true := by
  constructor
  · rintro ⟨hle, hbit⟩
    have hlow : k * w + i - p.1 * w < w := by
      by_contra hge
      rw [Nat.testBit_lt_two_pow (hp.trans_le (Nat.pow_le_pow_right (by decide)
        (Nat.le_of_not_lt hge)))] at hbit
      cases hbit
    have hk : p.1 = k := by
      rcases Nat.lt_trichotomy p.1 k with hlt | heq | hgt
      · have := Nat.mul_le_mul_right w (Nat.succ_le_of_lt hlt)
        rw [Nat.succ_mul] at this
        omega
      · exact heq
      · have := Nat.mul_le_mul_right w (Nat.succ_le_of_lt hgt)
        rw [Nat.succ_mul] at this
        omega
    subst hk
    exact ⟨rfl, by simpa using hbit⟩
  · rintro ⟨rfl, hbit⟩
    exact ⟨Nat.le_add_right _ _, by simpa using hbit⟩

theorem testBit_busWord_bus (hfit : ∀ p ∈ items, p.2 < 2 ^ w) {i : ℕ} (hi : i < w) :
    (busWord w (bus w items) k).testBit i = true ↔
      ∃ p ∈ items, p.1 = k ∧ p.2.testBit i = true := by
  simp only [testBit_busWord, hi, decide_true, Bool.true_and, testBit_bus, List.any_eq_true,
    Bool.and_eq_true, decide_eq_true_eq]
  constructor
  · rintro ⟨p, hp, hbit⟩
    exact ⟨p, hp, (testBit_slot (hfit p hp) hi).mp hbit⟩
  · rintro ⟨p, hp, hbit⟩
    exact ⟨p, hp, (testBit_slot (hfit p hp) hi).mpr hbit⟩

/-- Two numbers below `2 ^ w` with the same low `w` bits are equal. -/
theorem eq_of_testBit_lt {x y : ℕ} (hx : x < 2 ^ w) (hy : y < 2 ^ w)
    (h : ∀ i < w, x.testBit i = true ↔ y.testBit i = true) : x = y := by
  apply Nat.eq_of_testBit_eq
  intro i
  by_cases hi : i < w
  · exact Bool.eq_iff_iff.mpr (h i hi)
  · have hle : 2 ^ w ≤ 2 ^ i := Nat.pow_le_pow_right (by decide) (Nat.le_of_not_lt hi)
    rw [Nat.testBit_lt_two_pow (hx.trans_le hle), Nat.testBit_lt_two_pow (hy.trans_le hle)]

/-- Reading a slot gives the word that was put there. -/
theorem busWord_bus_of_mem (hfit : ∀ p ∈ items, p.2 < 2 ^ w)
    (hnodup : (items.map Prod.fst).Nodup) (hmem : (k, x) ∈ items) :
    busWord w (bus w items) k = x := by
  refine eq_of_testBit_lt (busWord_lt w _ k) (hfit _ hmem) fun i hi => ?_
  rw [testBit_busWord_bus hfit hi]
  constructor
  · rintro ⟨p, hp, hk, hbit⟩
    have hpx : p = (k, x) := List.inj_on_of_nodup_map hnodup hp hmem hk
    rwa [hpx] at hbit
  · intro hbit
    exact ⟨(k, x), hmem, rfl, hbit⟩

/-- Reading a slot where nothing was put gives zero. -/
theorem busWord_bus_of_notMem (hfit : ∀ p ∈ items, p.2 < 2 ^ w)
    (hk : k ∉ items.map Prod.fst) : busWord w (bus w items) k = 0 := by
  refine eq_of_testBit_lt (busWord_lt w _ k) (Nat.two_pow_pos w) fun i hi => ?_
  rw [testBit_busWord_bus hfit hi, Nat.zero_testBit]
  constructor
  · rintro ⟨p, hp, rfl, -⟩
    exact absurd (List.mem_map_of_mem hp) hk
  · intro h
    cases h

/-- Words in the slots below `n` stay below bit `n * w`. -/
theorem bus_lt {n : ℕ} (hfit : ∀ p ∈ items, p.2 < 2 ^ w) (hslot : ∀ p ∈ items, p.1 < n) :
    bus w items < 2 ^ (n * w) := by
  apply Nat.lt_pow_two_of_testBit
  intro j hj
  rw [testBit_bus, List.any_eq_false]
  intro p hp
  have hle := Nat.mul_le_mul_right w (Nat.succ_le_of_lt (hslot p hp))
  rw [Nat.succ_mul] at hle
  have hhigh : p.2.testBit (j - p.1 * w) = false :=
    Nat.testBit_lt_two_pow ((hfit p hp).trans_le (Nat.pow_le_pow_right (by decide) (by omega)))
  simp [hhigh]

/-- The bus of the words `f 0`, ..., `f (n - 1)`. -/
def busOf (w n : ℕ) (f : ℕ → ℕ) : ℕ := bus w ((List.range n).map fun k => (k, f k))

theorem busWord_busOf {n : ℕ} {f : ℕ → ℕ} (hfit : ∀ k < n, f k < 2 ^ w) (hk : k < n) :
    busWord w (busOf w n f) k = f k := by
  refine busWord_bus_of_mem ?_ ?_ ?_
  · simpa using hfit
  · simpa [Function.comp_def] using List.nodup_range
  · simpa using hk

theorem busOf_lt {n : ℕ} {f : ℕ → ℕ} (hfit : ∀ k < n, f k < 2 ^ w) :
    busOf w n f < 2 ^ (n * w) :=
  bus_lt (by simpa using hfit) (by simp)

theorem busOf_succ (w n : ℕ) (f : ℕ → ℕ) :
    busOf w (n + 1) f = busOf w n f ||| f n <<< (n * w) := by
  simp [busOf, bus, List.range_succ]

/-- Adding the shifted words makes the same bus as their disjunction. -/
theorem sum_shiftLeft_eq_busOf {n : ℕ} {f : ℕ → ℕ} (hfit : ∀ k < n, f k < 2 ^ w) :
    ((List.range n).map fun k => f k <<< (k * w)).sum = busOf w n f := by
  induction n with
  | zero => rfl
  | succ n ih =>
      have hfit' : ∀ k < n, f k < 2 ^ w := fun k hk => hfit k (Nat.lt_succ_of_lt hk)
      rw [List.range_succ, List.map_append, List.sum_append, ih hfit', List.map_singleton,
        List.sum_singleton, busOf_succ, Nat.shiftLeft_eq, Nat.add_comm, Nat.mul_comm,
        Nat.two_pow_add_eq_or_of_lt (busOf_lt hfit'), Nat.lor_comm]

/-! ## The lanes of a vector as words of its bus -/

theorem toNat_lane {n : ℕ} (w : ℕ) (v : BitVec n) (l : ℕ) :
    (lane w v l).toNat = busWord w v.toNat l := by
  rw [lane, slice, BitVec.extractLsb'_toNat, busWord_eq, Nat.shiftRight_eq_div_pow]

theorem lane_ofNat {n w l : ℕ} (x : ℕ) (h : (l + 1) * w ≤ n) :
    lane w (BitVec.ofNat n x) l = BitVec.ofNat w (busWord w x l) := by
  rw [Nat.succ_mul] at h
  apply BitVec.eq_of_getLsbD_eq
  intro i hi
  have hbit : l * w + i < n := by omega
  rw [lane, getLsbD_slice, BitVec.getLsbD_ofNat, BitVec.getLsbD_ofNat, testBit_busWord]
  simp [hi, hbit]

end Bits
