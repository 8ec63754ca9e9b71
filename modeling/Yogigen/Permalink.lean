import Yogigen.Queries

/-!
# From the Query String to the Statement

`permalink_request_handler` cuts the query string after its first `=`, decodes it into a
copy whose buffer it has enlarged, and hands the result to `YogiGen_insert_into_db` as a
C string. Every byte string without NUL is the phrase of some query string
(`exists_query`), so the statement has to be right for all of them; it is right for those
without a single quote.

## Main results

* `mgUrlDecode_percentEncode`: decoding undoes percent encoding while there is room.
* `insertQuery_exact_iff`: which phrases are stored exactly as they were decoded.
-/

open Printf SqlText

namespace Yogigen

/-! ### Decoding -/

/-- `HEXTOI`. -/
def hextoi (c : UInt8) : UInt8 :=
  if isdigit c then c - 48 else c - 87

/-- `mg_url_decode` for form data, with room for `dst_len - 1 - j` more bytes. -/
def mgUrlDecode : Bytes → ℕ → Bytes
  | [], _ => []
  | _ :: _, 0 => []
  | 37 :: a :: b :: src, room + 1 =>
      if isxdigit a && isxdigit b then
        (hextoi (tolower a) <<< 4 ||| hextoi (tolower b)) :: mgUrlDecode src room
      else 37 :: mgUrlDecode (a :: b :: src) room
  | c :: src, room + 1 => (if c = 43 then 32 else c) :: mgUrlDecode src room

/-- The capacity of `query_dec` once `balloc` has enlarged it. -/
def queryDecMlen (slen : ℕ) : ℕ :=
  ballocMlen (bstrcpyMlen slen) (slen * 3 / 2)

/-- The C string `permalink_request_handler` makes of a query string. -/
def permalinkPhrase (queryString : Bytes) : Bytes :=
  let query := bfromcstr queryString
  let pos := bstrchr query 61
  let query := bdelete query 0 (pos + 1)
  cstr (mgUrlDecode query (queryDecMlen query.length - 1))

/-- The buffer is larger than the query. -/
theorem lt_queryDecMlen (slen : ℕ) : slen < queryDecMlen slen := by
  have hcopy := le_snapUpSize (slen + 1)
  have halloc := le_ballocMlen (bstrcpyMlen slen) (slen * 3 / 2)
  rw [bstrcpyMlen] at halloc
  rw [queryDecMlen, bstrcpyMlen]
  omega

/-- The phrase is a C string. -/
theorem zero_notMem_permalinkPhrase (queryString : Bytes) :
    0 ∉ permalinkPhrase queryString :=
  zero_notMem_cstr _

/-! ### Every phrase has a query string -/

/-- Every byte as a percent sign and two digits. -/
def percentEncode (phrase : Bytes) : Bytes :=
  phrase.flatMap fun c => [37, Numeral.digit (c.toNat / 16), Numeral.digit (c.toNat % 16)]

/-- The two digits of a byte are read back as that byte. -/
theorem hextoi_digits (c : UInt8) :
    isxdigit (Numeral.digit (c.toNat / 16)) = true ∧
      isxdigit (Numeral.digit (c.toNat % 16)) = true ∧
      (hextoi (tolower (Numeral.digit (c.toNat / 16))) <<< 4 |||
        hextoi (tolower (Numeral.digit (c.toNat % 16)))) = c := by
  have hall : ∀ n : Fin 256,
      (hextoi (tolower (Numeral.digit (n.val / 16))) <<< 4 |||
        hextoi (tolower (Numeral.digit (n.val % 16)))) = UInt8.ofNat n.val := by
    decide +kernel
  have hlt := c.toNat_lt
  have hc := hall ⟨c.toNat, hlt⟩
  rw [UInt8.ofNat_toNat] at hc
  exact ⟨Numeral.isHexDigit_digit (by omega), Numeral.isHexDigit_digit (by omega), hc⟩

/-- **Decoding undoes percent encoding** while there is room. -/
theorem mgUrlDecode_percentEncode {phrase : Bytes} {room : ℕ} (h : phrase.length ≤ room) :
    mgUrlDecode (percentEncode phrase) room = phrase := by
  induction phrase generalizing room with
  | nil => rfl
  | cons c phrase ih =>
      cases room with
      | zero => exact absurd h (by simp)
      | succ room =>
          obtain ⟨hhi, hlo, hc⟩ := hextoi_digits c
          have htail : mgUrlDecode (percentEncode phrase) room = phrase := ih (by simpa using h)
          rw [percentEncode] at htail
          rw [percentEncode, List.flatMap_cons]
          simp only [List.cons_append, List.nil_append, mgUrlDecode, hhi, hlo, Bool.and_self,
            if_true, hc, htail]

/-- An encoded phrase has no NUL. -/
theorem zero_notMem_percentEncode (phrase : Bytes) : 0 ∉ percentEncode phrase := by
  intro h
  obtain ⟨c, -, hc⟩ := List.mem_flatMap.mp h
  obtain ⟨hhi, hlo, -⟩ := hextoi_digits c
  simp only [List.mem_cons, List.not_mem_nil, or_false] at hc
  rcases hc with h37 | hd | hd
  · exact absurd h37 (by decide)
  · rw [← hd] at hhi
    exact absurd hhi (by decide)
  · rw [← hd] at hlo
    exact absurd hlo (by decide)

/-- Each byte takes three. -/
theorem length_percentEncode (phrase : Bytes) :
    (percentEncode phrase).length = phrase.length * 3 := by
  simp [percentEncode, List.length_flatMap]

/-- **Every byte string without NUL is decoded from some query string.** -/
theorem exists_query {phrase : Bytes} (h0 : 0 ∉ phrase) :
    permalinkPhrase (ascii "linkfor=" ++ percentEncode phrase) = phrase := by
  have hkey : (61 : UInt8) ∉ ascii "linkfor" := by decide
  have hq0 : (0 : UInt8) ∉ ascii "linkfor=" ++ percentEncode phrase := by
    intro h
    rcases List.mem_append.mp h with h | h
    · exact absurd h (by decide)
    · exact zero_notMem_percentEncode phrase h
  have hpos : bstrchr (ascii "linkfor=" ++ percentEncode phrase) 61 = 7 :=
    bstrchr_append (t := ascii "linkfor") (u := percentEncode phrase) hkey
  have hcut : bdelete (ascii "linkfor=" ++ percentEncode phrase) 0 (7 + 1) =
      percentEncode phrase :=
    bdelete_append [] (ascii "linkfor=") (percentEncode phrase) (by decide)
  have hroom := lt_queryDecMlen (percentEncode phrase).length
  have hlen := length_percentEncode phrase
  rw [permalinkPhrase]
  simp only [bfromcstr, cstr_eq_self hq0, hpos, hcut]
  rw [mgUrlDecode_percentEncode (by omega), cstr_eq_self h0]

/-! ### What is stored -/

/-- **Stored exactly.** Every byte string without NUL can be decoded from a query string,
and the statement built for it, under any id, is one `INSERT` of exactly that phrase if
and only if the phrase contains no single quote. -/
theorem insertQuery_exact_iff (id : UInt64) {phrase : Bytes} (h0 : 0 ∉ phrase) :
    (∃ queryString, permalinkPhrase queryString = phrase) ∧
      (InsertsExactly (insertQuery id phrase) phrase ↔ 39 ∉ phrase) :=
  ⟨⟨_, exists_query h0⟩, insertsExactly_iff id h0⟩

/-- A phrase the generator could have produced. -/
theorem insertQuery_exact_iff_plain :
    InsertsExactly (insertQuery 7 (ascii "Be calm & kind.")) (ascii "Be calm & kind.") :=
  (insertQuery_exact_iff 7 (by decide)).2.mpr (by decide)

/-- The query string `linkfor=%27` is decoded to a single quote, and the statement built
for it has no tokens at all: its literal is never closed. -/
theorem not_insertsExactly_quote :
    permalinkPhrase (ascii "linkfor=%27") = [39] ∧
      ¬ InsertsExactly (insertQuery 7 [39]) [39] := by
  refine ⟨by decide +kernel, ?_⟩
  rintro ⟨value, -, hlex⟩
  have hnone : lex (insertQuery 7 [39]) = none := by decide +kernel
  rw [hnone] at hlex
  exact absurd hlex (by simp)

end Yogigen
