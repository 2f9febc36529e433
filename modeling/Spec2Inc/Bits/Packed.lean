import Mathlib.Data.List.Induction
import Mathlib.Data.List.Nodup
import Mathlib.Data.Nat.Bitwise
import Mathlib.Algebra.Order.Ring.Int

/-!
# Packed records

A layout lists the fields of a record with their widths, the most significant
first. `pack` shifts the fields in one after the other, each cut to its width;
`unpack` reads them back from the least significant end. A field sits right
above the fields after it (`low_pack_shiftRight`). Reading back what was packed
gives every field modulo its width (`unpack_pack`), so that round trip is the
identity exactly on the values that fit; packing what was read gives back the
bits of the layout (`pack_unpack`).
-/

namespace Packed

variable {κ : Type*}

/-- `x & ((1 << w) - 1)` on an unbounded integer: the residue modulo `2 ^ w`. -/
def low (w : ℕ) (x : ℤ) : ℕ := (x % 2 ^ w).toNat

theorem low_lt (w : ℕ) (x : ℤ) : low w x < 2 ^ w := by
  have hpos : (0 : ℤ) < 2 ^ w := Int.pow_pos (by decide)
  have hlt := Int.emod_lt_of_pos x hpos
  rw [low, Int.toNat_lt (Int.emod_nonneg x (Int.ne_of_gt hpos))]
  exact_mod_cast hlt

@[simp] theorem low_natCast (w n : ℕ) : low w n = n % 2 ^ w := by
  rw [low]
  exact_mod_cast Int.toNat_natCast (n % 2 ^ w)

theorem cast_low (w : ℕ) (x : ℤ) : (low w x : ℤ) = x % 2 ^ w :=
  Int.toNat_of_nonneg (Int.emod_nonneg x (pow_ne_zero w (by decide)))

/-- Shift one field in at the least significant end. -/
def packStep (kw : κ → ℤ) (v : ℕ) (p : κ × ℕ) : ℕ :=
  v <<< p.2 ||| low p.2 (kw p.1)

def pack (layout : List (κ × ℕ)) (kw : κ → ℤ) : ℕ :=
  layout.foldl (packStep kw) 0

theorem packStep_eq (kw : κ → ℤ) (v : ℕ) (p : κ × ℕ) :
    packStep kw v p = 2 ^ p.2 * v + low p.2 (kw p.1) := by
  rw [packStep, Nat.shiftLeft_eq, mul_comm,
    Nat.two_pow_add_eq_or_of_lt (low_lt p.2 (kw p.1))]

theorem packStep_shiftRight (kw : κ → ℤ) (v : ℕ) (p : κ × ℕ) :
    packStep kw v p >>> p.2 = v := by
  rw [packStep_eq, Nat.shiftRight_eq_div_pow,
    Nat.mul_add_div (Nat.two_pow_pos _), Nat.div_eq_of_lt (low_lt _ _), add_zero]

theorem low_packStep (kw : κ → ℤ) (v : ℕ) (p : κ × ℕ) :
    low p.2 (packStep kw v p : ℕ) = low p.2 (kw p.1) := by
  rw [low_natCast, packStep_eq, Nat.mul_add_mod, Nat.mod_eq_of_lt (low_lt _ _)]

theorem pack_concat (layout : List (κ × ℕ)) (p : κ × ℕ) (kw : κ → ℤ) :
    pack (layout ++ [p]) kw = packStep kw (pack layout kw) p := by
  rw [pack, List.foldl_append]
  rfl

/-- A packed record is below `2 ^ w`, for `w` the sum of the widths. -/
theorem pack_lt (layout : List (κ × ℕ)) (kw : κ → ℤ) :
    pack layout kw < 2 ^ (layout.map Prod.snd).sum := by
  induction layout using List.reverseRecOn with
  | nil => exact Nat.one_pos
  | append_singleton layout p ih =>
      have hlow := low_lt p.2 (kw p.1)
      rw [pack_concat, packStep_eq, List.map_append, List.sum_append, List.map_singleton,
        List.sum_singleton, Nat.pow_add, Nat.mul_comm (2 ^ (layout.map Prod.snd).sum)]
      calc 2 ^ p.2 * pack layout kw + low p.2 (kw p.1)
          < 2 ^ p.2 * pack layout kw + 2 ^ p.2 := Nat.add_lt_add_left hlow _
        _ = 2 ^ p.2 * (pack layout kw + 1) := (Nat.mul_succ _ _).symm
        _ ≤ 2 ^ p.2 * 2 ^ (layout.map Prod.snd).sum := Nat.mul_le_mul_left _ ih

/-- Shifting the last fields out leaves the others. -/
theorem pack_append_shiftRight (before after : List (κ × ℕ)) (kw : κ → ℤ) :
    pack (before ++ after) kw >>> (after.map Prod.snd).sum = pack before kw := by
  induction after using List.reverseRecOn with
  | nil => simp
  | append_singleton after p ih =>
      rw [← List.append_assoc, pack_concat, List.map_append, List.sum_append, List.map_singleton,
        List.sum_singleton, Nat.add_comm, Nat.shiftRight_add, packStep_shiftRight, ih]

/-- A field sits right above the fields after it. -/
theorem low_pack_shiftRight (before after : List (κ × ℕ)) (p : κ × ℕ) (kw : κ → ℤ) :
    low p.2 (pack (before ++ p :: after) kw >>> (after.map Prod.snd).sum : ℕ) =
      low p.2 (kw p.1) := by
  rw [List.append_cons, pack_append_shiftRight, pack_concat, low_packStep]

variable [DecidableEq κ]

/-- Read one field off the least significant end. -/
def unpackStep (s : (κ → ℤ) × ℕ) (p : κ × ℕ) : (κ → ℤ) × ℕ :=
  (Function.update s.1 p.1 (low p.2 s.2), s.2 >>> p.2)

def unpack (layout : List (κ × ℕ)) (v : ℕ) : κ → ℤ :=
  (layout.reverse.foldl unpackStep (fun _ => 0, v)).1

theorem foldl_unpackStep_of_notMem {k : κ} {fields : List (κ × ℕ)}
    (hk : k ∉ fields.map Prod.fst) (s : (κ → ℤ) × ℕ) :
    (fields.foldl unpackStep s).1 k = s.1 k := by
  induction fields generalizing s with
  | nil => rfl
  | cons p fields ih =>
      rw [List.map_cons, List.mem_cons, not_or] at hk
      rw [List.foldl_cons, ih hk.2]
      exact Function.update_of_ne hk.1 _ _

/-- Whatever word is read, a field comes out within its width. -/
theorem foldl_unpackStep_mem {k : κ} {w : ℕ} {fields : List (κ × ℕ)}
    (hnodup : (fields.map Prod.fst).Nodup) (hmem : (k, w) ∈ fields) (s : (κ → ℤ) × ℕ) :
    ∃ u : ℕ, (fields.foldl unpackStep s).1 k = low w u := by
  induction fields generalizing s with
  | nil => cases hmem
  | cons p fields ih =>
      rw [List.map_cons, List.nodup_cons] at hnodup
      rw [List.foldl_cons]
      rcases List.mem_cons.mp hmem with rfl | hmem
      · refine ⟨s.2, ?_⟩
        rw [foldl_unpackStep_of_notMem hnodup.1]
        exact Function.update_self _ _ _
      · exact ih hnodup.2 hmem _

theorem unpack_lt {layout : List (κ × ℕ)} (hnodup : (layout.map Prod.fst).Nodup)
    {k : κ} {w : ℕ} (hmem : (k, w) ∈ layout) (v : ℕ) :
    0 ≤ unpack layout v k ∧ unpack layout v k < 2 ^ w := by
  have hnodup' : (layout.reverse.map Prod.fst).Nodup := by
    rw [List.map_reverse, List.nodup_reverse]
    exact hnodup
  obtain ⟨u, hu⟩ := foldl_unpackStep_mem hnodup' (List.mem_reverse.mpr hmem) (fun _ => 0, v)
  rw [unpack, hu]
  exact ⟨Int.natCast_nonneg _, by exact_mod_cast low_lt w u⟩

omit [DecidableEq κ] in
theorem nodup_of_nodup_concat {layout : List (κ × ℕ)} {p : κ × ℕ}
    (h : ((layout ++ [p]).map Prod.fst).Nodup) :
    (layout.map Prod.fst).Nodup ∧ p.1 ∉ layout.reverse.map Prod.fst := by
  rw [List.map_append, List.nodup_append] at h
  obtain ⟨hnodup, -, hne⟩ := h
  refine ⟨hnodup, ?_⟩
  rw [List.map_reverse, List.mem_reverse]
  exact fun hk => hne p.1 hk p.1 (by simp) rfl

/-- Reading a packed record back, field by field from the last. The induction
takes the last field off both folds. -/
theorem foldl_unpackStep_pack {layout : List (κ × ℕ)}
    (hnodup : (layout.map Prod.fst).Nodup) {k : κ} {w : ℕ} (hmem : (k, w) ∈ layout)
    (kw : κ → ℤ) (out : κ → ℤ) :
    (layout.reverse.foldl unpackStep (out, pack layout kw)).1 k = kw k % 2 ^ w := by
  induction layout using List.reverseRecOn generalizing out with
  | nil => cases hmem
  | append_singleton layout p ih =>
      obtain ⟨hnodup, hk⟩ := nodup_of_nodup_concat hnodup
      rw [pack_concat, List.reverse_append, List.reverse_singleton, List.singleton_append,
        List.foldl_cons, unpackStep, packStep_shiftRight, low_packStep]
      rcases List.mem_append.mp hmem with hmem | hmem
      · exact ih hnodup hmem _
      · obtain rfl : (k, w) = p := List.mem_singleton.mp hmem
        rw [foldl_unpackStep_of_notMem hk, ← cast_low]
        exact Function.update_self _ _ _

/-- The round trip, at every field of the layout. -/
theorem unpack_pack {layout : List (κ × ℕ)} (hnodup : (layout.map Prod.fst).Nodup)
    {k : κ} {w : ℕ} (hmem : (k, w) ∈ layout) (kw : κ → ℤ) :
    unpack layout (pack layout kw) k = kw k % 2 ^ w :=
  foldl_unpackStep_pack hnodup hmem kw _

/-- Packing what was read gives back the bits of the layout. The induction takes
the last field off both folds, whatever the fields held before. -/
theorem pack_foldl_unpackStep {layout : List (κ × ℕ)} (hnodup : (layout.map Prod.fst).Nodup)
    (v : ℕ) (out : κ → ℤ) :
    pack layout (layout.reverse.foldl unpackStep (out, v)).1 =
      v % 2 ^ (layout.map Prod.snd).sum := by
  induction layout using List.reverseRecOn generalizing v out with
  | nil => exact (Nat.mod_one v).symm
  | append_singleton layout p ih =>
      obtain ⟨hnodup, hk⟩ := nodup_of_nodup_concat hnodup
      have hread : low p.2 ((layout.reverse.foldl unpackStep (unpackStep (out, v) p)).1 p.1) =
          v % 2 ^ p.2 := by
        rw [foldl_unpackStep_of_notMem hk]
        simp only [unpackStep, Function.update_self, low_natCast, Nat.mod_mod]
      rw [List.reverse_append, List.reverse_singleton, List.singleton_append, List.foldl_cons,
        pack_concat, packStep_eq, hread, unpackStep, ih hnodup, List.map_append, List.sum_append,
        List.map_singleton, List.sum_singleton]
      calc 2 ^ p.2 * (v >>> p.2 % 2 ^ (layout.map Prod.snd).sum) + v % 2 ^ p.2
          = v % 2 ^ p.2 + 2 ^ p.2 * (v / 2 ^ p.2 % 2 ^ (layout.map Prod.snd).sum) := by
            rw [Nat.shiftRight_eq_div_pow, Nat.add_comm]
        _ = v % (2 ^ p.2 * 2 ^ (layout.map Prod.snd).sum) := Nat.mod_mul.symm
        _ = v % 2 ^ ((layout.map Prod.snd).sum + p.2) := by
            rw [← Nat.pow_add, Nat.add_comm]

/-- The round trip from the word. -/
theorem pack_unpack {layout : List (κ × ℕ)} (hnodup : (layout.map Prod.fst).Nodup) (v : ℕ) :
    pack layout (unpack layout v) = v % 2 ^ (layout.map Prod.snd).sum :=
  pack_foldl_unpackStep hnodup v _

end Packed
