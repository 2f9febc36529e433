import Mathlib.Algebra.Group.Nat.Defs
import Mathlib.Data.List.Infix
import Spec2Inc.Python.Exception

/-!
# Characters of a text, and numbers in it

The classes `\d` and `\s` of a pattern on text, which are Unicode's decimal
digits and white space, and `int` on a run of decimal digits with its limit on
the length. A number that was printed reads back (`int_toDigits`). Also the few
text functions the agent loop uses.
-/

namespace Python

/-- The code points of the digits zero in Unicode 15, which Python 3.12 and 3.13
use; each is followed by one to nine. -/
def decimalZeros : List ℕ :=
  [0x30, 0x660, 0x6f0, 0x7c0, 0x966, 0x9e6, 0xa66, 0xae6, 0xb66, 0xbe6, 0xc66, 0xce6, 0xd66,
    0xde6, 0xe50, 0xed0, 0xf20, 0x1040, 0x1090, 0x17e0, 0x1810, 0x1946, 0x19d0, 0x1a80, 0x1a90,
    0x1b50, 0x1bb0, 0x1c40, 0x1c50, 0xa620, 0xa8d0, 0xa900, 0xa9d0, 0xa9f0, 0xaa50, 0xabf0,
    0xff10, 0x104a0, 0x10d30, 0x11066, 0x110f0, 0x11136, 0x111d0, 0x112f0, 0x11450, 0x114d0,
    0x11650, 0x116c0, 0x11730, 0x118e0, 0x11950, 0x11c50, 0x11d50, 0x11da0, 0x11f50, 0x16a60,
    0x16ac0, 0x16b50, 0x1d7ce, 0x1d7d8, 0x1d7e2, 0x1d7ec, 0x1d7f6, 0x1e140, 0x1e2f0, 0x1e4f0,
    0x1e950, 0x1fbf0]

/-- `unicodedata.decimal(c)`. -/
def decimal? (c : Char) : Option ℕ :=
  (decimalZeros.find? fun z => z ≤ c.toNat && c.toNat < z + 10).map fun z => c.toNat - z

/-- `\d`. -/
def isDecimal (c : Char) : Bool := (decimal? c).isSome

/-- The code points of white space, as ranges. -/
def spaceRanges : List (ℕ × ℕ) :=
  [(0x9, 0xd), (0x1c, 0x20), (0x85, 0x85), (0xa0, 0xa0), (0x1680, 0x1680),
    (0x2000, 0x200a), (0x2028, 0x2029), (0x202f, 0x202f), (0x205f, 0x205f),
    (0x3000, 0x3000)]

/-- `\s`. -/
def isSpace (c : Char) : Bool :=
  spaceRanges.any fun r => r.1 ≤ c.toNat && c.toNat ≤ r.2

/-- `f"{n:#x}"`. -/
def hex (n : ℕ) : String := "0x" ++ String.ofList (Nat.toDigits 16 n)

/-- `f"{n:#018x}"`. -/
def hex018 (n : ℕ) : String :=
  let digits := Nat.toDigits 16 n
  "0x" ++ String.ofList (List.replicate (16 - digits.length) '0' ++ digits)

/-- `str(t)` of a tuple. -/
def tupleText {α : Type*} [ToString α] : List α → String
  | [x] => s!"({x},)"
  | xs => "(" ++ ", ".intercalate (xs.map toString) ++ ")"

/-- `sys.get_int_max_str_digits()`. -/
abbrev intMaxStrDigits : ℕ := 4300

/-- `int(s)` on a run of decimal digits. -/
def int (s : List Char) : Except Exception ℕ :=
  if intMaxStrDigits < s.length then
    .error (.valueError (s!"Exceeds the limit ({intMaxStrDigits} digits) for integer " ++
      s!"string conversion: value has {s.length} digits; " ++
      "use sys.set_int_max_str_digits() to increase the limit"))
  else
    match s.mapM decimal? with
    | some digits => .ok (digits.foldl (fun n d => 10 * n + d) 0)
    | none => .error (.valueError
        s!"invalid literal for int() with base 10: '{String.ofList s}'")

/-- `sub in s`. -/
def contains (s sub : String) : Bool := sub.toList <:+: s.toList

theorem contains_append_right {s sub : String} (h : contains s sub = true) (t : String) :
    contains (s ++ t) sub = true := by
  rw [contains, decide_eq_true_eq] at h ⊢
  rw [String.toList_append]
  exact h.trans (List.prefix_append _ _).isInfix

theorem contains_append_left (s : String) {t sub : String} (h : contains t sub = true) :
    contains (s ++ t) sub = true := by
  rw [contains, decide_eq_true_eq] at h ⊢
  rw [String.toList_append]
  exact h.trans (List.suffix_append _ _).isInfix

/-- A text without one of the characters of another does not contain it. -/
theorem contains_eq_false_of_notMem {s sub : String} {c : Char} (hc : c ∈ sub.toList)
    (h : c ∉ s.toList) : contains s sub = false := by
  rw [contains, decide_eq_false_iff_not]
  exact fun hsub => h (hsub.subset hc)

/-- The characters `splitlines` splits at. -/
def isLineBreak (c : Char) : Bool :=
  c.toNat ∈ [0xa, 0xb, 0xc, 0xd, 0x1c, 0x1d, 0x1e, 0x85, 0x2028, 0x2029]

/-- The lines of a text, `line` being the part of the first already read. -/
def splitLinesFrom (line : List Char) : List Char → List (List Char)
  | [] => if line = [] then [] else [line]
  | '\r' :: '\n' :: s => line :: splitLinesFrom [] s
  | c :: s =>
      if isLineBreak c then line :: splitLinesFrom [] s
      else splitLinesFrom (line ++ [c]) s

/-- `s.strip().splitlines()`. -/
def stripSplitLines (s : String) : List String :=
  let stripped := ((s.toList.dropWhile isSpace).reverse.dropWhile isSpace).reverse
  (splitLinesFrom [] stripped).map String.ofList

/-- `"\n".join(s.strip().splitlines()[-n:])`. -/
def lastLines (n : ℕ) (s : String) : String :=
  let lines := stripSplitLines s
  "\n".intercalate (lines.drop (lines.length - n))

theorem decimal?_of_isDigit {c : Char} (h : c.isDigit = true) :
    decimal? c = some (c.toNat - '0'.toNat) := by
  have hrange : 48 ≤ c.toNat ∧ c.toNat ≤ 57 := Char.isDigit_iff_toNat.mp h
  rw [decimal?, decimalZeros, List.find?_cons_of_pos]
  · rfl
  · simp
    omega

theorem isDecimal_of_isDigit {c : Char} (h : c.isDigit = true) : isDecimal c = true := by
  rw [isDecimal, decimal?_of_isDigit h]
  rfl

theorem mapM_decimal? {s : List Char} (h : ∀ c ∈ s, c.isDigit = true) :
    s.mapM decimal? = some (s.map fun c => c.toNat - '0'.toNat) := by
  induction s with
  | nil => rfl
  | cons c s ih =>
      rw [List.mapM_cons, decimal?_of_isDigit (h c List.mem_cons_self),
        ih fun c' hc' => h c' (List.mem_cons_of_mem _ hc')]
      rfl

theorem isDigit_of_mem_toString {n : ℕ} {c : Char} (h : c ∈ (toString n).toList) :
    c.isDigit = true := by
  have htoList : (toString n).toList = Nat.toDigits 10 n := by
    simp
  exact Nat.isDigit_of_mem_toDigits (by decide) (Nat.le_refl 10) (htoList ▸ h)

/-- A printed number reads back. -/
theorem int_toDigits {n : ℕ} (hn : n < 10 ^ intMaxStrDigits) :
    int (Nat.toDigits 10 n) = .ok n := by
  have hlen : (Nat.toDigits 10 n).length ≤ intMaxStrDigits :=
    (Nat.length_toDigits_le_iff (by decide) (by decide)).mpr hn
  have hdigits : ∀ c ∈ Nat.toDigits 10 n, c.isDigit = true := fun c hc =>
    Nat.isDigit_of_mem_toDigits (by decide) (Nat.le_refl 10) hc
  rw [int, if_neg (Nat.not_lt.mpr hlen), mapM_decimal? hdigits]
  simp only [List.foldl_map]
  rw [← Nat.ofDigitChars_eq_foldl, Nat.ofDigitChars_ten_toDigits]

/-- A printed number ends where its digits do. -/
theorem toDigits_append_inj {m n : ℕ} {c : Char} {s t : List Char} (hc : c.isDigit = false)
    (h : Nat.toDigits 10 m ++ c :: s = Nat.toDigits 10 n ++ c :: t) : m = n := by
  have hread : ∀ (k : ℕ) (u : List Char),
      (Nat.toDigits 10 k ++ c :: u).takeWhile Char.isDigit = Nat.toDigits 10 k := by
    intro k u
    rw [List.takeWhile_append_of_pos fun c hc =>
      Nat.isDigit_of_mem_toDigits (by decide) (Nat.le_refl 10) hc]
    simp [hc]
  have hdigits : Nat.toDigits 10 m = Nat.toDigits 10 n := by
    rw [← hread m s, h, hread]
  calc m = Nat.ofDigitChars 10 (Nat.toDigits 10 m) 0 := Nat.ofDigitChars_ten_toDigits.symm
    _ = Nat.ofDigitChars 10 (Nat.toDigits 10 n) 0 := by rw [hdigits]
    _ = n := Nat.ofDigitChars_ten_toDigits

end Python
