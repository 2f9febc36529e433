import Spec2Inc.Bits.Packed
import Spec2Inc.Rtl.Package

/-!
# The request word

The eight fields of a `req_t` as the testbench of `req_xbar` packs and unpacks
them. Reading a packed word back gives every field modulo its width, so a beat
survives the round trip exactly when all its fields fit.
-/

open Spec2incPkg

namespace ReqXbar

inductive Field
  | op
  | src
  | dst
  | tag
  | addr
  | len
  | data
  | last
  deriving DecidableEq, Repr

/-- The key of the field. -/
def Field.name : Field → String
  | op => "op"
  | src => "src"
  | dst => "dst"
  | tag => "tag"
  | addr => "addr"
  | len => "len"
  | data => "data"
  | last => "last"

abbrev opW : ℕ := 3

/-- `_FIELDS`, the most significant first. -/
def fields : List (Field × ℕ) :=
  [(.op, opW), (.src, idW), (.dst, idW), (.tag, tagW),
    (.addr, addrW), (.len, lenW), (.data, dataW), (.last, 1)]

abbrev reqW : ℕ := opW + 2 * idW + tagW + addrW + lenW + dataW + 1

/-- `_COMPARED`. -/
def compared : List Field := fields.map Prod.fst

/-- A dictionary with all eight keys. -/
abbrev Fields : Type := Field → ℤ

def pack (kw : Fields) : ℕ := Packed.pack fields kw

def unpack (v : ℕ) : Fields := Packed.unpack fields v

/-- The width of a field in the word. -/
def Field.width : Field → ℕ
  | op => opW
  | src => idW
  | dst => idW
  | tag => tagW
  | addr => addrW
  | len => lenW
  | data => dataW
  | last => 1

theorem pack_lt (kw : Fields) : pack kw < 2 ^ reqW :=
  lt_of_lt_of_eq (Packed.pack_lt fields kw) (congrArg (2 ^ ·) (by decide))

theorem nodup_fields : (fields.map Prod.fst).Nodup := by decide

theorem mem_fields (f : Field) : (f, f.width) ∈ fields := by
  cases f <;> decide

theorem mem_compared (f : Field) : f ∈ compared :=
  List.mem_map_of_mem (mem_fields f)

theorem unpack_pack (kw : Fields) (f : Field) : unpack (pack kw) f = kw f % 2 ^ f.width :=
  Packed.unpack_pack nodup_fields (mem_fields f) kw

theorem sum_fields : (fields.map Prod.snd).sum = reqW := by decide

theorem pack_unpack (v : ℕ) : pack (unpack v) = v % 2 ^ reqW := by
  rw [← sum_fields]
  exact Packed.pack_unpack nodup_fields v

/-- All fields are within their widths. -/
def Fits (kw : Fields) : Prop := ∀ f, 0 ≤ kw f ∧ kw f < 2 ^ f.width

instance (kw : Fields) : Decidable (Fits kw) :=
  decidable_of_iff (∀ p ∈ fields, 0 ≤ kw p.1 ∧ kw p.1 < 2 ^ p.2)
    ⟨fun h f => h _ (mem_fields f), fun h p hp => by
      have hwidth : ∀ p ∈ fields, p.2 = p.1.width := by decide
      rw [hwidth p hp]
      exact h p.1⟩

theorem fits_unpack (v : ℕ) : Fits (unpack v) := fun f =>
  Packed.unpack_lt nodup_fields (mem_fields f) v

/-- The round trip is lossless exactly on the fields that fit. -/
theorem unpack_pack_eq_iff (kw : Fields) : unpack (pack kw) = kw ↔ Fits kw := by
  constructor
  · intro h
    rw [← h]
    exact fits_unpack _
  · intro h
    funext f
    rw [unpack_pack]
    exact Int.emod_eq_of_lt (h f).1 (h f).2

end ReqXbar
