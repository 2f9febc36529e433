import Spec2Inc.Verif.ReqXbar.Source

/-!
# The request word in the RTL and on the bus

The testbench packs a request by its own list of fields, the RTL declares a
packed struct. Both put every field in the same bits (`pack_eq_packed`,
`slice_packed`): a packed word is the struct whose members are the low bits of
the fields. Reading a word back loses nothing, and neither does the bus on which
the words of all sources lie side by side (`request_word_lossless`).
-/

open Bits Spec2incPkg

namespace ReqXbar

/-- The lowest bit of the member of `req_t`: the members declared after it lie
below. -/
def Field.lsb : Field → ℕ
  | op => 2 * idW + tagW + addrW + lenW + dataW + 1
  | src => idW + tagW + addrW + lenW + dataW + 1
  | dst => tagW + addrW + lenW + dataW + 1
  | tag => addrW + lenW + dataW + 1
  | addr => lenW + dataW + 1
  | len => dataW + 1
  | data => 1
  | last => 0

/-- The members of a `req_t` under the names of the fields. -/
def member (r : ReqT) : (f : Field) → BitVec f.width
  | .op => r.op
  | .src => r.src
  | .dst => r.dst
  | .tag => r.tag
  | .addr => r.addr
  | .len => r.len
  | .data => r.data
  | .last => r.last

/-- The request whose members are the low bits of the fields. -/
def reqT (kw : Fields) : ReqT where
  op := BitVec.ofInt _ (kw .op)
  src := BitVec.ofInt _ (kw .src)
  dst := BitVec.ofInt _ (kw .dst)
  tag := BitVec.ofInt _ (kw .tag)
  addr := BitVec.ofInt _ (kw .addr)
  len := BitVec.ofInt _ (kw .len)
  data := BitVec.ofInt _ (kw .data)
  last := BitVec.ofInt _ (kw .last)

theorem toNat_ofInt_eq_low (w : ℕ) (x : ℤ) : (BitVec.ofInt w x).toNat = Packed.low w x := by
  rw [BitVec.toNat_ofInt, Packed.low]
  exact_mod_cast rfl

/-- The packed word is the packed struct. -/
theorem pack_eq_packed (kw : Fields) : pack kw = (reqT kw).packed.toNat := by
  simp only [pack, Packed.pack, Packed.packStep, fields, List.foldl_cons, List.foldl_nil,
    Nat.zero_shiftLeft, Nat.zero_or, ReqT.packed, reqT, BitVec.toNat_append, toNat_ofInt_eq_low]

/-- The list of fields has below each field what the declaration has. -/
theorem fields_eq_append (f : Field) :
    ∃ before after, fields = before ++ (f, f.width) :: after ∧
      (after.map Prod.snd).sum = f.lsb := by
  cases f with
  | op => exact ⟨[], _, rfl, rfl⟩
  | src => exact ⟨[_], _, rfl, rfl⟩
  | dst => exact ⟨[_, _], _, rfl, rfl⟩
  | tag => exact ⟨[_, _, _], _, rfl, rfl⟩
  | addr => exact ⟨[_, _, _, _], _, rfl, rfl⟩
  | len => exact ⟨[_, _, _, _, _], _, rfl, rfl⟩
  | data => exact ⟨[_, _, _, _, _, _], _, rfl, rfl⟩
  | last => exact ⟨[_, _, _, _, _, _, _], _, rfl, rfl⟩

theorem pack_shiftRight_mod (kw : Fields) (f : Field) :
    (pack kw >>> f.lsb) % 2 ^ f.width = Packed.low f.width (kw f) := by
  obtain ⟨before, after, hfields, hlsb⟩ := fields_eq_append f
  have hlow := Packed.low_pack_shiftRight before after (f, f.width) kw
  rw [← hfields, hlsb, Packed.low_natCast] at hlow
  exact hlow

/-- The members of a request as integers. -/
def fieldsOf (r : ReqT) : Fields := fun f => (member r f).toNat

theorem reqT_fieldsOf (r : ReqT) : reqT (fieldsOf r) = r := by
  have hread : ∀ {w : ℕ} (x : BitVec w), BitVec.ofInt w x.toNat = x := by
    intro w x
    rw [BitVec.ofInt_natCast, BitVec.ofNat_toNat, BitVec.setWidth_eq]
  apply ReqT.ext <;> exact hread _

/-- Every member of the packed struct lies where the declaration puts it. -/
theorem slice_packed (r : ReqT) (f : Field) :
    slice r.packed f.lsb f.width = member r f := by
  have hpack := pack_eq_packed (fieldsOf r)
  rw [reqT_fieldsOf] at hpack
  apply BitVec.eq_of_toNat_eq
  rw [slice, BitVec.extractLsb'_toNat, ← hpack, pack_shiftRight_mod, fieldsOf,
    Packed.low_natCast, Nat.mod_eq_of_lt (member r f).isLt]

/-- The codec and the bus lose nothing, and a word is laid out as the RTL
declares it. -/
theorem request_word_lossless (kw : Fields) (r : ReqT) (v : ℕ) (hv : v < 2 ^ reqW) (nSrc : ℕ)
    (l : Lines) (hwords : ∀ s < nSrc, l.words s < 2 ^ reqW) :
    reqW = 344 ∧
      pack (unpack v) = v ∧
      (∀ f, unpack (pack kw) f = kw f % 2 ^ f.width) ∧
      pack kw = (reqT kw).packed.toNat ∧
      (∀ f, ((pack kw >>> f.lsb % 2 ^ f.width : ℕ) : ℤ) = kw f % 2 ^ f.width ∧
        slice r.packed f.lsb f.width = member r f) ∧
      ∀ s < nSrc, busWord reqW (l.sReq nSrc) s = l.words s ∧
        (l.sValid nSrc).testBit s = l.valid s := by
  refine ⟨rfl, ?_, unpack_pack kw, pack_eq_packed kw, fun f => ⟨?_, slice_packed r f⟩,
    fun s hs => ⟨Lines.busWord_sReq hwords hs, Lines.testBit_sValid l hs⟩⟩
  · rw [pack_unpack, Nat.mod_eq_of_lt hv]
  · rw [pack_shiftRight_mod, Packed.cast_low]

/-- A beat of port 0, and one whose source index does not fit its six bits. -/
def lineFields : ℕ → Fields
  | 0 => (Beat.make 0 3 7 1 1 0 reqWrite).fields
  | _ => (Beat.make 65 2 9 4 0 1 reqRead).fields

/-- Two sources with a word each, the second of which offers it. -/
def twoLines : Lines where
  words s := pack (lineFields s)
  valid s := s = 1

theorem request_word_lossless_distinct :
    pack (unpack (twoLines.words 1)) = twoLines.words 1 ∧
      unpack (twoLines.words 1) .src = 1 ∧ unpack (twoLines.words 1) .dst = 2 ∧
      busWord reqW (twoLines.sReq 2) 0 = twoLines.words 0 ∧
      busWord reqW (twoLines.sReq 2) 1 = twoLines.words 1 ∧
      twoLines.words 0 ≠ twoLines.words 1 ∧
      (twoLines.sValid 2).testBit 0 = false ∧ (twoLines.sValid 2).testBit 1 = true := by
  obtain ⟨-, hword, hfields, -, -, hbus⟩ := request_word_lossless (lineFields 1)
    (reqT (lineFields 0)) (twoLines.words 1) (pack_lt _) 2 twoLines fun _ _ => pack_lt _
  obtain ⟨hword0, hvalid0⟩ := hbus 0 (by decide)
  obtain ⟨hword1, hvalid1⟩ := hbus 1 (by decide)
  exact ⟨hword, hfields .src, hfields .dst, hword0, hword1, by decide +kernel, hvalid0, hvalid1⟩

end ReqXbar
