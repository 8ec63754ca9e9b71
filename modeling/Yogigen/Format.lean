import Yogigen.Tables
import Mathlib.Data.Nat.Digits.Lemmas

/-!
# The Data Word of a Format

A `Format_String` describes its substitutions in the bytes of a 64-bit word, the first
one in the lowest byte. Within a byte, bit 0 is the expression mode, bits 1 and 2 are the
expression type, bits 3 and 4 the type index and bits 5 to 7 the flag. The word is stored
as a signed `bigint` and comes back as decimal text.

`decodeByte` takes a byte apart with the masks and shifts of `process_formats`;
`encodeByte` and `pack` put descriptors together by the documented layout.

## Main results

* `decodeByte_encodeByte`, `encodeByte_decodeByte`: a byte and its descriptor.
* `toNat_pack`, `toNat_byteOf`: words are little-endian numerals in base 256.
* `format_round_trip`: storing and decoding, decoding and packing.
-/

namespace Yogigen

/-- The flags of a substitution. -/
inductive FstrFlag
  | noFlags
  | unique
  | postposCept
  | postposAll
  | postposObj
  | indefArt
  | flag6
  | flag7
  deriving DecidableEq

/-- One substitution of a format. -/
structure Descriptor where
  mode : Bool
  type : ExprType
  typeIdx : Fin 4
  flag : FstrFlag
  deriving DecidableEq

/-- A field of the first slot of a type. -/
def Descriptor.first (mode : Bool) (type : ExprType) (flag : FstrFlag) : Descriptor :=
  ⟨mode, type, ⟨0, Nat.zero_lt_succ 3⟩, flag⟩

/-! ### Bytes -/

/-- The expression type of a two-bit code. -/
def ExprType.ofBits (code : UInt8) : ExprType :=
  if code = 0 then .verb
  else if code = 1 then .adjective
  else if code = 2 then .concept
  else .object

/-- The bits of a type, as in the constants of the source. -/
def ExprType.bits : ExprType → UInt8
  | .verb => 0
  | .adjective => 1
  | .concept => 2
  | .object => 3

/-- The flag of a three-bit code. -/
def FstrFlag.ofBits (code : UInt8) : FstrFlag :=
  if code = 0 then .noFlags
  else if code = 1 then .unique
  else if code = 2 then .postposCept
  else if code = 3 then .postposAll
  else if code = 4 then .postposObj
  else if code = 5 then .indefArt
  else if code = 6 then .flag6
  else .flag7

/-- The bits of a flag, as in the constants of the source. -/
def FstrFlag.bits : FstrFlag → UInt8
  | .noFlags => 0
  | .unique => 1
  | .postposCept => 2
  | .postposAll => 3
  | .postposObj => 4
  | .indefArt => 5
  | .flag6 => 6
  | .flag7 => 7

/-- The masks and shifts of `process_formats`. -/
def decodeByte (datum : UInt8) : Descriptor where
  mode := datum &&& 0x1 == 1
  type := .ofBits ((datum &&& 0x6) >>> 1)
  typeIdx := Fin.ofNat 4 ((datum &&& 0x18) >>> 3).toNat
  flag := .ofBits ((datum &&& 0xE0) >>> 5)

/-- The documented layout of a byte. -/
def encodeByte (d : Descriptor) : UInt8 :=
  (if d.mode then (1 : UInt8) else 0) ||| d.type.bits <<< 1 |||
    UInt8.ofNat d.typeIdx.val <<< 3 ||| d.flag.bits <<< 5

/-- A packed descriptor is read back. -/
theorem decodeByte_encodeByte (d : Descriptor) : decodeByte (encodeByte d) = d := by
  obtain ⟨mode, type, typeIdx, flag⟩ := d
  revert mode typeIdx
  cases type <;> cases flag <;> decide +kernel

/-- Every byte is that of the descriptor it is read as. -/
theorem encodeByte_decodeByte (datum : UInt8) : encodeByte (decodeByte datum) = datum := by
  have hall : ∀ n : Fin 256,
      encodeByte (decodeByte (UInt8.ofNat n.val)) = UInt8.ofNat n.val := by
    decide +kernel
  have hdatum := hall ⟨datum.toNat, datum.toNat_lt⟩
  rwa [UInt8.ofNat_toNat] at hdatum

/-! ### Words -/

/-- `byte_of (&data, i)` on a little-endian host. -/
def byteOf (data : UInt64) (i : ℕ) : UInt8 :=
  (data >>> UInt64.ofNat (8 * i)).toUInt8

/-- The descriptors of the first `n` bytes of a word. -/
def decodeWord (data : UInt64) (n : ℕ) : List Descriptor :=
  (List.range n).map fun i => decodeByte (byteOf data i)

/-- A word with the descriptors in its bytes, the first one lowest. -/
def pack (ds : List Descriptor) : UInt64 :=
  ds.foldr (fun d word => word <<< 8 ||| (encodeByte d).toUInt64) 0

/-- A byte of the data is a digit in base 256. -/
theorem toNat_byteOf (data : UInt64) {i : ℕ} (hi : i < 8) :
    (byteOf data i).toNat = data.toNat / 256 ^ i % 256 := by
  have hshift : (UInt64.ofNat (8 * i)).toNat % 64 = 8 * i := by
    rw [UInt64.toNat_ofNat', Nat.mod_eq_of_lt (by omega : 8 * i < 2 ^ 64),
      Nat.mod_eq_of_lt (by omega)]
  rw [byteOf, UInt64.toNat_toUInt8, UInt64.toNat_shiftRight, hshift, Nat.shiftRight_eq_div_pow,
    Nat.pow_mul]

/-- Adding a byte below a word that has room for it. -/
theorem toNat_shift_or (word : UInt64) (b : UInt8) (h : word.toNat < 2 ^ 56) :
    (word <<< 8 ||| b.toUInt64).toNat = b.toNat + 256 * word.toNat := by
  have hb : b.toUInt64.toNat < 2 ^ 8 := by
    rw [UInt8.toNat_toUInt64]
    exact b.toNat_lt
  have hshift : (word <<< 8).toNat = word.toNat <<< 8 := by
    rw [UInt64.toNat_shiftLeft, show (8 : UInt64).toNat % 64 = 8 from rfl, Nat.shiftLeft_eq,
      Nat.mod_eq_of_lt (by omega)]
  rw [UInt64.toNat_or, hshift, ← Nat.shiftLeft_add_eq_or_of_lt hb, UInt8.toNat_toUInt64,
    Nat.shiftLeft_eq]
  omega

/-- **A packed word is the numeral of its bytes.** -/
theorem toNat_pack {ds : List Descriptor} (h : ds.length ≤ 8) :
    (pack ds).toNat = Nat.ofDigits 256 (ds.map fun d => (encodeByte d).toNat) := by
  induction ds with
  | nil => rfl
  | cons d ds ih =>
      rw [List.length_cons] at h
      have ih := ih (by omega)
      have hlt : Nat.ofDigits 256 (ds.map fun d => (encodeByte d).toNat) <
          256 ^ (ds.map fun d => (encodeByte d).toNat).length := by
        refine Nat.ofDigits_lt_base_pow_length (by omega) fun x hx => ?_
        obtain ⟨e, -, rfl⟩ := List.mem_map.mp hx
        exact (encodeByte e).toNat_lt
      have hroom : (pack ds).toNat < 2 ^ 56 := by
        rw [List.length_map] at hlt
        have hpow : 256 ^ ds.length ≤ 256 ^ 7 := Nat.pow_le_pow_right (by omega) (by omega)
        omega
      rw [List.map_cons, Nat.ofDigits_cons, ← ih]
      exact toNat_shift_or (pack ds) (encodeByte d) hroom

/-- The digits of a numeral can be read off it. -/
theorem ofDigits_div_mod {b : ℕ} (hb : 0 < b) :
    ∀ (L : List ℕ) (i : ℕ) (hi : i < L.length), (∀ d ∈ L, d < b) →
      Nat.ofDigits b L / b ^ i % b = L[i]
  | [], i, hi, _ => absurd hi (by simp)
  | d :: L, 0, _, hL => by
      rw [Nat.ofDigits_cons, pow_zero, Nat.div_one, Nat.add_mul_mod_self_left]
      exact Nat.mod_eq_of_lt (hL d List.mem_cons_self)
  | d :: L, i + 1, hi, hL => by
      obtain ⟨hd, hL⟩ := List.forall_mem_cons.mp hL
      have ih := ofDigits_div_mod hb L i (by simpa using hi) hL
      have hdiv : Nat.ofDigits b (d :: L) / b ^ (i + 1) = Nat.ofDigits b L / b ^ i := by
        rw [Nat.ofDigits_cons, Nat.pow_succ', ← Nat.div_div_eq_div_mul,
          Nat.add_mul_div_left _ _ hb, Nat.div_eq_of_lt hd, Nat.zero_add]
      rw [hdiv, ih, List.getElem_cons_succ]

/-- The low bytes of a number. -/
theorem ofDigits_bytes (w n : ℕ) :
    Nat.ofDigits 256 ((List.range n).map fun i => w / 256 ^ i % 256) = w % 256 ^ n := by
  induction n with
  | zero => simp [Nat.mod_one]
  | succ n ih =>
      rw [List.range_succ, List.map_append, Nat.ofDigits_append, ih, List.length_map,
        List.length_range, Nat.mod_pow_succ]
      simp

/-- **Packed descriptors are decoded in their order.** -/
theorem decodeWord_pack {ds : List Descriptor} (h : ds.length ≤ 8) :
    decodeWord (pack ds) ds.length = ds := by
  refine List.ext_getElem (by simp [decodeWord]) fun i hi hi' => ?_
  have hbyte : byteOf (pack ds) i = encodeByte ds[i] := by
    rw [← UInt8.toNat_inj, toNat_byteOf _ (by omega), toNat_pack h,
      ofDigits_div_mod (by omega) _ i (by simpa using hi'), List.getElem_map]
    intro x hx
    obtain ⟨e, -, rfl⟩ := List.mem_map.mp hx
    exact (encodeByte e).toNat_lt
  simp only [decodeWord, List.getElem_map, List.getElem_range, hbyte, decodeByte_encodeByte]

/-- **Decoded descriptors pack to the low bytes of the word.** -/
theorem toNat_pack_decodeWord (data : UInt64) {n : ℕ} (hn : n ≤ 8) :
    (pack (decodeWord data n)).toNat = data.toNat % 2 ^ (8 * n) := by
  have hlen : (decodeWord data n).length ≤ 8 := by simpa [decodeWord] using hn
  have hbytes : (decodeWord data n).map (fun d => (encodeByte d).toNat) =
      (List.range n).map fun i => data.toNat / 256 ^ i % 256 := by
    rw [decodeWord, List.map_map]
    refine List.map_congr_left fun i hi => ?_
    have hi8 : i < 8 := by
      have := List.mem_range.mp hi
      omega
    simp only [Function.comp_apply, encodeByte_decodeByte, toNat_byteOf data hi8]
  rw [toNat_pack hlen, hbytes, ofDigits_bytes, Nat.pow_mul]

/-! ### Rows -/

/-- The descriptors `process_formats` decodes from a format. -/
def decodeFormat (f : FormatString) : List Descriptor :=
  decodeWord f.data f.count.toNat

/-- The row that stores up to eight descriptors. -/
def formatRow (str : Bytes) (ds : List Descriptor) : FormatRow where
  str := str
  data := (pack ds).toInt64
  count := Int32.ofNat ds.length

/-- **Descriptors survive storage.** Up to eight descriptors, packed into a word that is
stored as a signed number and read back from its decimal text, are decoded in the same
order; and packing what is decoded from any word gives back its low bytes. -/
theorem format_round_trip :
    (∀ (str : Bytes) (ds : List Descriptor), ds.length ≤ 8 →
      decodeFormat (readFrmt (formatRow str ds)) = ds) ∧
    ∀ f : FormatString, f.count.toNat ≤ 8 →
      (pack (decodeFormat f)).toNat = f.data.toNat % 2 ^ (8 * f.count.toNat) := by
  refine ⟨fun str ds h => ?_, fun f h => toNat_pack_decodeWord f.data h⟩
  have hcount : ∀ n ≤ 8, (UInt8.ofInt (Int32.ofNat n).toInt).toNat = n := by
    decide
  rw [readFrmt_eq, decodeFormat]
  simp only [formatRow, UInt64.toUInt64_toInt64, hcount ds.length h]
  exact decodeWord_pack h

end Yogigen
