import Yogigen.Numeral

/-!
# Reading Attribute Values

Two of the rules by which HTML reads an attribute value: a double-quoted value ends at the
first double quote, and decimal references are read. A `&#` with a digit after it begins one,
which takes the longest run of digits and a semicolon after them if there is one, and is read
as the character with that number, in UTF-8. Every other byte is read as itself, so references
with a name or with hexadecimal digits are not decoded here.

## Main results

* `decode_reference`, `decode_text`: what one reference, and one other byte, is read as.
* `length_character_le`: a reference is not longer read than written.
* `character_ne_written`, `character_ne_long`: texts that no reference is read as.
-/

namespace HtmlAttribute

/-- The value whose opening quote has been read. -/
def quoted (s : List UInt8) : List UInt8 :=
  s.takeWhile (· ≠ 34)

/-! ### Characters -/

/-- What the numbers from 128 to 159 are taken for. -/
def windows1252 : List ℕ :=
  [0x20AC, 0x81, 0x201A, 0x192, 0x201E, 0x2026, 0x2020, 0x2021,
    0x2C6, 0x2030, 0x160, 0x2039, 0x152, 0x8D, 0x17D, 0x8F,
    0x90, 0x2018, 0x2019, 0x201C, 0x201D, 0x2022, 0x2013, 0x2014,
    0x2DC, 0x2122, 0x161, 0x203A, 0x153, 0x9D, 0x17E, 0x178]

/-- The code point of a number: no character has the numbers outside Unicode, those of
surrogates, and zero. -/
def codePoint (n : ℕ) : ℕ :=
  if n = 0 ∨ 0xD800 ≤ n ∧ n ≤ 0xDFFF ∨ 0x10FFFF < n then 0xFFFD
  else if 128 ≤ n ∧ n < 160 then windows1252.getD (n - 128) n
  else n

/-- The character with a number, in UTF-8. -/
def character (n : ℕ) : List UInt8 :=
  String.utf8EncodeChar (Char.ofNat (codePoint n))

/-! ### Reading -/

/-- A reference starts here. -/
def startsReference : List UInt8 → Bool
  | 38 :: 35 :: d :: _ => Numeral.isDecDigit d
  | _ => false

/-- The number of bytes a reference takes after `&#`. -/
def takenLength : List UInt8 → ℕ
  | [] => 0
  | c :: s => if Numeral.isDecDigit c then takenLength s + 1 else if c = 59 then 1 else 0

/-- What a value is read as. The bytes of a reference are skipped. -/
def decode : ℕ → List UInt8 → List UInt8
  | _, [] => []
  | skip + 1, _ :: s => decode skip s
  | 0, c :: s =>
      if startsReference (c :: s) then
        character (Numeral.readNat (s.drop 1)) ++ decode (1 + takenLength (s.drop 1)) s
      else c :: decode 0 s

/-- Bytes that belong to a reference are skipped. -/
theorem decode_skip (n : ℕ) (s : List UInt8) : decode n s = decode 0 (s.drop n) := by
  induction n generalizing s with
  | zero => rfl
  | succ n ih =>
      cases s with
      | nil => rfl
      | cons c s => exact ih s

/-- **A reference** is read as its character. -/
theorem decode_reference {d : UInt8} (hd : Numeral.isDecDigit d = true) (s : List UInt8) :
    decode 0 (38 :: 35 :: d :: s) =
      character (Numeral.readNat (d :: s)) ++
        decode 0 ((d :: s).drop (takenLength (d :: s))) := by
  rw [decode, startsReference, if_pos hd, decode_skip, List.drop_succ_cons, List.drop_zero,
    Nat.add_comm, List.drop_succ_cons]

/-- **Any other byte** is read as itself. -/
theorem decode_text {c : UInt8} {s : List UInt8} (h : startsReference (c :: s) = false) :
    decode 0 (c :: s) = c :: decode 0 s := by
  rw [decode, if_neg (by rw [h]; exact Bool.false_ne_true)]

/-! ### What references are read as -/

/-- The first byte of a character in UTF-8. -/
theorem utf8EncodeChar_cases (c : Char) :
    (∃ a, String.utf8EncodeChar c = [a]) ∨
      (∃ a t, String.utf8EncodeChar c = a :: t ∧ 0xC0 ≤ a ∧ t.length ≤ 2) ∨
      ∃ a t, String.utf8EncodeChar c = a :: t ∧ 0xF0 ≤ a := by
  rw [String.utf8EncodeChar]
  split_ifs
  · exact .inl ⟨_, rfl⟩
  · refine .inr (.inl ⟨_, _, rfl, ?_, by simp⟩)
    rw [UInt8.le_iff_toNat_le, UInt8.toNat_ofNat']
    simp only [UInt8.reduceToNat]
    omega
  · refine .inr (.inl ⟨_, _, rfl, ?_, by simp⟩)
    rw [UInt8.le_iff_toNat_le, UInt8.toNat_ofNat']
    simp only [UInt8.reduceToNat]
    omega
  · refine .inr (.inr ⟨_, _, rfl, ?_⟩)
    rw [UInt8.le_iff_toNat_le, UInt8.toNat_ofNat']
    simp only [UInt8.reduceToNat]
    omega

/-- The numbers of characters are those of characters other than NUL. -/
theorem codePoint_valid (n : ℕ) : (codePoint n).isValidChar ∧ codePoint n ≠ 0 := by
  have hwindows : ∀ m ∈ windows1252, m.isValidChar ∧ m ≠ 0 := by decide
  rw [codePoint]
  split_ifs with hnone hwindow
  · decide
  · rw [List.getD_eq_getElem?_getD, List.getElem?_eq_getElem (by simp [windows1252]; omega)]
    exact hwindows _ (List.getElem_mem _)
  · have hvalid : n < 0xD800 ∨ 0xDFFF < n ∧ n < 0x110000 := by omega
    exact ⟨hvalid, fun h0 => hnone (.inl h0)⟩

/-- No reference is read as NUL. -/
theorem zero_notMem_character (n : ℕ) : 0 ∉ character n := by
  obtain ⟨hvalid, hne⟩ := codePoint_valid n
  have hval : (Char.ofNat (codePoint n)).val.toNat = codePoint n := by
    rw [Char.ofNat, dif_pos hvalid]
    rfl
  have hbyte : ∀ m, 0 < m → m < 256 → (0 : UInt8) ≠ UInt8.ofNat m := by
    intro m hpos hlt heq
    have hm := congrArg UInt8.toNat heq
    rw [UInt8.toNat_ofNat', Nat.mod_eq_of_lt hlt] at hm
    exact hpos.ne hm
  rw [character, String.utf8EncodeChar, hval]
  split_ifs
  · exact List.not_mem_cons_of_ne_of_not_mem (hbyte _ (by omega) (by omega)) List.not_mem_nil
  · simp only [List.mem_cons, List.not_mem_nil, or_false, not_or]
    exact ⟨hbyte _ (by omega) (by omega), hbyte _ (by omega) (by omega)⟩
  · simp only [List.mem_cons, List.not_mem_nil, or_false, not_or]
    exact ⟨hbyte _ (by omega) (by omega), hbyte _ (by omega) (by omega),
      hbyte _ (by omega) (by omega)⟩
  · simp only [List.mem_cons, List.not_mem_nil, or_false, not_or]
    exact ⟨hbyte _ (by omega) (by omega), hbyte _ (by omega) (by omega),
      hbyte _ (by omega) (by omega), hbyte _ (by omega) (by omega)⟩

/-- What is read from bytes other than NUL has no NUL. -/
theorem zero_notMem_decode (k : ℕ) {s : List UInt8} (h0 : 0 ∉ s) : 0 ∉ decode k s := by
  induction s generalizing k with
  | nil =>
      cases k with
      | zero => exact List.not_mem_nil
      | succ k => exact List.not_mem_nil
  | cons c s ih =>
      obtain ⟨hc, hs⟩ := not_or.mp (List.mem_cons.not.mp h0)
      cases k with
      | succ k => exact ih k hs
      | zero =>
          rw [decode]
          split_ifs
          · rw [List.mem_append, not_or]
            exact ⟨zero_notMem_character _, ih _ hs⟩
          · exact List.mem_cons.not.mpr (not_or.mpr ⟨hc, ih 0 hs⟩)

/-- No reference is read as text that starts like a reference. -/
theorem character_ne_written (n : ℕ) (d : UInt8) (t : List UInt8) :
    character n ≠ 38 :: d :: t := by
  intro h
  rcases utf8EncodeChar_cases (Char.ofNat (codePoint n)) with
    ⟨a, ha⟩ | ⟨a, u, ha, hfirst, -⟩ | ⟨a, u, ha, hfirst⟩
  · exact absurd (ha.symm.trans h) (by simp)
  · obtain ⟨rfl, -⟩ := List.cons.inj (ha.symm.trans h)
    exact absurd hfirst (by decide)
  · obtain ⟨rfl, -⟩ := List.cons.inj (ha.symm.trans h)
    exact absurd hfirst (by decide)

/-- No reference is read as a longer text that starts with U+2019. -/
theorem character_ne_long (n : ℕ) {t : List UInt8} (ht : 3 ≤ t.length) :
    character n ≠ 0xE2 :: t := by
  intro h
  rcases utf8EncodeChar_cases (Char.ofNat (codePoint n)) with
    ⟨a, ha⟩ | ⟨a, u, ha, -, hlen⟩ | ⟨a, u, ha, hfirst⟩
  · obtain ⟨-, rfl⟩ := List.cons.inj (ha.symm.trans h)
    exact absurd ht (by simp)
  · obtain ⟨-, rfl⟩ := List.cons.inj (ha.symm.trans h)
    omega
  · obtain ⟨rfl, -⟩ := List.cons.inj (ha.symm.trans h)
    exact absurd hfirst (by decide)

/-- A character has four bytes at most. -/
theorem length_character_le_four (n : ℕ) : (character n).length ≤ 4 := by
  rw [character, String.length_utf8EncodeChar]
  exact Char.utf8Size_le_four _

/-- A digit is taken. -/
theorem takenLength_pos {d : UInt8} (hd : Numeral.isDecDigit d = true) (s : List UInt8) :
    0 < takenLength (d :: s) := by
  rw [takenLength, if_pos hd]
  exact Nat.succ_pos _

/-- No more is taken than there is. -/
theorem takenLength_le (s : List UInt8) : takenLength s ≤ s.length := by
  induction s with
  | nil => exact le_rfl
  | cons c s ih =>
      rw [takenLength, List.length_cons]
      split_ifs <;> omega

/-- When nothing is taken there is no digit. -/
theorem takeWhile_of_takenLength {s : List UInt8} (h : takenLength s = 0) :
    s.takeWhile Numeral.isDecDigit = [] := by
  cases s with
  | nil => rfl
  | cons c s =>
      refine List.takeWhile_cons_of_neg fun hc => ?_
      have hpos := takenLength_pos hc s
      omega

/-- Digits that take no further byte denote one digit. -/
theorem readNat_lt_ten {d : UInt8} (hd : Numeral.isDecDigit d = true) {s : List UInt8}
    (h : takenLength (d :: s) = 1) : Numeral.readNat (d :: s) < 10 := by
  rw [takenLength, if_pos hd, Nat.add_eq_right] at h
  have hdigit : (48 : UInt8) ≤ d ∧ d ≤ 57 := of_decide_eq_true hd
  have hle := UInt8.le_iff_toNat_le.mp hdigit.2
  rw [Numeral.readNat, List.takeWhile_cons_of_pos hd, takeWhile_of_takenLength h, Numeral.value,
    List.foldl_cons, List.foldl_nil, Numeral.digitValue, if_pos hdigit]
  simp only [UInt8.reduceToNat, Option.getD_some] at hle ⊢
  omega

/-- **A reference is not longer read than written.** -/
theorem length_character_le {d : UInt8} (hd : Numeral.isDecDigit d = true) (s : List UInt8) :
    (character (Numeral.readNat (d :: s))).length ≤ 2 + takenLength (d :: s) := by
  have hpos := takenLength_pos hd s
  by_cases hone : takenLength (d :: s) = 1
  · have hsmall : ∀ n < 10, (character n).length ≤ 3 := by decide
    rw [hone]
    exact hsmall _ (readNat_lt_ten hd hone)
  · have hfour := length_character_le_four (Numeral.readNat (d :: s))
    omega

end HtmlAttribute
