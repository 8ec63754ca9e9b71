import Mathlib.Data.List.TakeWhile
import Mathlib.Data.Nat.Digits.Lemmas

/-!
# Numbers as Text

Positional numerals over ASCII bytes, as formatted output writes them and as the number
readers of a C library, or a database reading a literal, take them back: lower-case
digits, no padding, `0` for zero, a leading `-` for a negative number.

## Main results

* `value_text`: reading back a numeral of any base from 2 to 16 gives the number.
* `length_text_le`: a number below `b ^ k` has at most `k` digits.
* `readInt_intText`: the signed decimal text of an integer reads back as that integer.
-/

namespace Numeral

/-- The ASCII digit of value `d`, lower case above nine. -/
def digit (d : ℕ) : UInt8 :=
  UInt8.ofNat (if d < 10 then 48 + d else 87 + d)

/-- The value of an ASCII digit of base at most 16, of either case. -/
def digitValue (c : UInt8) : Option ℕ :=
  if 48 ≤ c ∧ c ≤ 57 then some (c.toNat - 48)
  else if 97 ≤ c ∧ c ≤ 102 then some (c.toNat - 87)
  else if 65 ≤ c ∧ c ≤ 70 then some (c.toNat - 55)
  else none

/-- An ASCII hexadecimal digit of either case. -/
def isHexDigit (c : UInt8) : Bool :=
  (digitValue c).isSome

/-- An ASCII decimal digit. -/
def isDecDigit (c : UInt8) : Bool :=
  decide (48 ≤ c ∧ c ≤ 57)

/-- The numeral of `n` in base `b`. -/
def text (b n : ℕ) : List UInt8 :=
  if n = 0 then [48] else ((Nat.digits b n).map digit).reverse

/-- The number a numeral in base `b` denotes. -/
def value (b : ℕ) (cs : List UInt8) : ℕ :=
  cs.foldl (fun n c => n * b + (digitValue c).getD 0) 0

/-- The signed decimal text of an integer. -/
def intText (z : ℤ) : List UInt8 :=
  if z < 0 then 45 :: text 10 z.natAbs else text 10 z.natAbs

/-- The value of the longest run of decimal digits at the front. -/
def readNat (cs : List UInt8) : ℕ :=
  value 10 (cs.takeWhile isDecDigit)

/-- Reading an integer: an optional sign, then as many decimal digits as there are. -/
def readInt : List UInt8 → ℤ
  | 45 :: cs => -(readNat cs : ℤ)
  | 43 :: cs => readNat cs
  | cs => readNat cs

/-- The value of a digit. -/
theorem digitValue_digit {d : ℕ} (h : d < 16) : digitValue (digit d) = some d := by
  interval_cases d <;> decide

/-- The digits below 16 are hexadecimal ones. -/
theorem isHexDigit_digit {d : ℕ} (h : d < 16) : isHexDigit (digit d) = true := by
  rw [isHexDigit, digitValue_digit h, Option.isSome_some]

/-- Those below 10 are decimal ones. -/
theorem isDecDigit_digit {d : ℕ} (h : d < 10) : isDecDigit (digit d) = true := by
  interval_cases d <;> decide

/-- Every character of a numeral is a digit of its base. -/
theorem exists_digit_of_mem_text {b n : ℕ} (hb : 2 ≤ b) {c : UInt8} (h : c ∈ text b n) :
    ∃ d < b, c = digit d := by
  rw [text] at h
  split_ifs at h with h0
  · exact ⟨0, by omega, by rw [List.mem_singleton.mp h]; rfl⟩
  · rw [List.mem_reverse, List.mem_map] at h
    obtain ⟨d, hd, rfl⟩ := h
    exact ⟨d, Nat.digits_lt_base (by omega) hd, rfl⟩

/-- Every number has a digit. -/
theorem text_ne_nil (b n : ℕ) : text b n ≠ [] := by
  rw [text]
  split_ifs with h0
  · exact List.cons_ne_nil _ _
  · simpa [Nat.digits_eq_nil_iff_eq_zero] using h0

/-- A number below `b ^ k` has `k` digits at most. -/
theorem length_text_le {b n k : ℕ} (hb : 2 ≤ b) (hk : 0 < k) (h : n < b ^ k) :
    (text b n).length ≤ k := by
  rw [text]
  split_ifs with h0
  · exact hk
  · rw [List.length_reverse, List.length_map]
    exact (Nat.digits_length_le_iff (by omega) n).mpr h

/-- Reading the digits of a number, most significant first, evaluates them. -/
theorem value_map_digit_reverse {b : ℕ} (L : List ℕ) (h : ∀ d ∈ L, d < 16) :
    value b (L.map digit).reverse = Nat.ofDigits b L := by
  rw [value, List.foldl_reverse, List.foldr_map]
  induction L with
  | nil => rfl
  | cons d L ih =>
      obtain ⟨hd, hL⟩ := List.forall_mem_cons.mp h
      rw [List.foldr_cons, ih hL, digitValue_digit hd, Nat.ofDigits_cons, Option.getD_some,
        Nat.mul_comm b, Nat.add_comm]

/-- **Numerals read back.** -/
theorem value_text {b : ℕ} (hb : 2 ≤ b) (hb' : b ≤ 16) (n : ℕ) : value b (text b n) = n := by
  rw [text]
  split_ifs with h0
  · simp [value, digitValue, h0]
  · have hlt : ∀ d ∈ Nat.digits b n, d < 16 :=
      fun d hd => (Nat.digits_lt_base (by omega) hd).trans_le hb'
    rw [value_map_digit_reverse _ hlt, Nat.ofDigits_digits]

/-- In base 16 all of them are hexadecimal. -/
theorem isHexDigit_of_mem_text {n : ℕ} {c : UInt8} (h : c ∈ text 16 n) :
    isHexDigit c = true := by
  obtain ⟨d, hd, rfl⟩ := exists_digit_of_mem_text (by omega) h
  exact isHexDigit_digit hd

/-- A number is read back. -/
theorem readNat_text (n : ℕ) : readNat (text 10 n) = n := by
  have hall : ∀ c ∈ text 10 n, isDecDigit c = true := by
    intro c hc
    obtain ⟨d, hd, rfl⟩ := exists_digit_of_mem_text (by omega) hc
    exact isDecDigit_digit hd
  rw [readNat, List.takeWhile_eq_self_iff.mpr hall, value_text (by omega) (by omega)]

/-- Without a sign it is read as a natural number. -/
theorem readInt_of_no_sign {c : UInt8} (hm : c ≠ 45) (hp : c ≠ 43) (cs : List UInt8) :
    readInt (c :: cs) = readNat (c :: cs) := by
  rw [readInt]
  · exact fun _ h => hm (List.cons.inj h).1
  · exact fun _ h => hp (List.cons.inj h).1

/-- So a number is read back as an integer. -/
theorem readInt_text (n : ℕ) : readInt (text 10 n) = n := by
  obtain ⟨c, cs, hcs⟩ := List.exists_cons_of_ne_nil (text_ne_nil 10 n)
  obtain ⟨d, hd, rfl⟩ := exists_digit_of_mem_text (by omega) (hcs ▸ List.mem_cons_self)
  have hsign : digit d ≠ 45 ∧ digit d ≠ 43 := by
    interval_cases d <;> decide
  rw [hcs, readInt_of_no_sign hsign.1 hsign.2, ← hcs, readNat_text]

/-- **Signed decimal text reads back.** -/
theorem readInt_intText (z : ℤ) : readInt (intText z) = z := by
  rw [intText]
  split_ifs with h
  · rw [readInt, readNat_text]
    omega
  · rw [readInt_text]
    omega

end Numeral
