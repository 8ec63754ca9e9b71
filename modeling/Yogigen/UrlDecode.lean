import Yogigen.Permalink

/-!
# The Decode Buffer

`permalink_request_handler` decodes the query string into a copy of itself: the buffer holds
the encoded text when decoding starts, behind it there is whatever the allocator has left,
and the length of the copy stays that of the encoded text. What `YogiGen_insert_into_db`
reads is the buffer as a C string.

## Main results

* `mgUrlDecodeInto_fst`: what decoding leaves in a buffer.
* `permalinkPhrase_eq`: the phrase is what the buffer holds as a C string.
* `permalink_passes`: every form encoding of a phrase is passed on as the phrase.
-/

open Printf

namespace Yogigen

/-! ### Writing into a buffer -/

/-- A buffer with some bytes written from position `j` on. -/
def overwrite (dst : Bytes) (j : ℕ) (bs : Bytes) : Bytes :=
  dst.take j ++ (bs ++ dst.drop (j + bs.length))

/-- A byte is written over another. -/
theorem set_eq_overwrite {dst : Bytes} {j : ℕ} (h : j < dst.length) (c : UInt8) :
    dst.set j c = overwrite dst j [c] := by
  rw [overwrite, List.set_eq_take_append_cons_drop, if_pos h]
  rfl

/-- Bytes can be written one after another. -/
theorem overwrite_set {dst : Bytes} {j : ℕ} (h : j < dst.length) (c : UInt8) (bs : Bytes) :
    overwrite (dst.set j c) (j + 1) bs = overwrite dst j (c :: bs) := by
  have htake : (dst.set j c).take (j + 1) = dst.take j ++ [c] := by
    rw [List.take_add_one, List.take_set_of_le le_rfl, List.getElem?_set_self h]
    rfl
  have hdrop : (dst.set j c).drop (j + 1 + bs.length) = dst.drop (j + (bs.length + 1)) := by
    rw [List.drop_set_of_lt (by omega), Nat.add_right_comm, Nat.add_assoc]
  rw [overwrite, overwrite, htake, hdrop, List.append_assoc]
  rfl

/-- As a C string, a buffer ends at the first terminator that was written. -/
theorem cstr_overwrite (dst bs : Bytes) : cstr (overwrite dst 0 (bs ++ [0])) = cstr bs := by
  rw [overwrite, List.take_zero, List.nil_append, List.append_assoc, List.singleton_append]
  exact cstr_append_zero bs _

/-! ### Decoding into a buffer -/

/-- `mg_url_decode` for form data, at position `j` of a buffer: what it leaves in the buffer,
and what it returns. -/
def mgUrlDecodeInto : Bytes → ℕ → Bytes → Bytes × ℤ
  | [], j, dst => (dst.set j 0, j)
  | 37 :: a :: b :: src, j, dst =>
      if j + 1 < dst.length then
        if isxdigit a && isxdigit b then
          mgUrlDecodeInto src (j + 1)
            (dst.set j (hextoi (tolower a) <<< 4 ||| hextoi (tolower b)))
        else mgUrlDecodeInto (a :: b :: src) (j + 1) (dst.set j 37)
      else (dst.set j 0, -1)
  | c :: src, j, dst =>
      if j + 1 < dst.length then
        mgUrlDecodeInto src (j + 1) (dst.set j (if c = 43 then 32 else c))
      else (dst.set j 0, -1)

/-- **What decoding leaves in a buffer**: the decoded bytes and a terminator, and behind
them what was there before. -/
theorem mgUrlDecodeInto_fst {src : Bytes} {j : ℕ} {dst : Bytes} (h : j < dst.length) :
    (mgUrlDecodeInto src j dst).1 =
      overwrite dst j (mgUrlDecode src (dst.length - 1 - j) ++ [0]) := by
  have hroom : ∀ {j m : ℕ}, j + 1 < m → m - 1 - j = (m - 1 - (j + 1)) + 1 := by
    intro j m hj
    omega
  have hfull : ∀ {j m : ℕ}, ¬ j + 1 < m → m - 1 - j = 0 := by
    intro j m hj
    omega
  fun_induction mgUrlDecodeInto src j dst with
  | case1 j dst => exact set_eq_overwrite h 0
  | case2 j dst a b src hj hhex ih =>
      rw [ih (by rwa [List.length_set]), overwrite_set h, List.length_set, hroom hj, mgUrlDecode,
        if_pos hhex]
      rfl
  | case3 j dst a b src hj hhex ih =>
      rw [ih (by rwa [List.length_set]), overwrite_set h, List.length_set, hroom hj, mgUrlDecode,
        if_neg hhex]
      rfl
  | case4 j dst a b src hj =>
      rw [hfull hj]
      exact set_eq_overwrite h 0
  | case5 j dst c src hne hj ih =>
      rw [ih (by rwa [List.length_set]), overwrite_set h, List.length_set, hroom hj, mgUrlDecode]
      · rfl
      · exact hne
  | case6 j dst c src hne hj =>
      rw [hfull hj]
      exact set_eq_overwrite h 0

/-! ### The buffer of the handler -/

/-- The query string after its first `=`. -/
def permalinkQuery (queryString : Bytes) : Bytes :=
  let query := bfromcstr queryString
  bdelete query 0 (bstrchr query 61 + 1)

/-- The buffer of `query_dec` before decoding: a copy of the query, its terminator, and up
to the capacity what `memory` holds. -/
def queryDecBuffer (query : Bytes) (memory : ℕ → UInt8) : Bytes :=
  query ++ 0 :: (List.range (queryDecMlen query.length - query.length - 1)).map memory

/-- The buffer that `permalink_request_handler` passes to `YogiGen_insert_into_db`, and what
`mg_url_decode` has returned. -/
def permalinkDecode (queryString : Bytes) (memory : ℕ → UInt8) : Bytes × ℤ :=
  let query := permalinkQuery queryString
  mgUrlDecodeInto query 0 (queryDecBuffer query memory)

/-- The buffer has the size that was asked for. -/
theorem length_queryDecBuffer (query : Bytes) (memory : ℕ → UInt8) :
    (queryDecBuffer query memory).length = queryDecMlen query.length := by
  have hroom := lt_queryDecMlen query.length
  rw [queryDecBuffer, List.length_append, List.length_cons, List.length_map, List.length_range]
  omega

/-- **The phrase is what the buffer holds as a C string**, whatever was in memory. -/
theorem permalinkPhrase_eq (queryString : Bytes) (memory : ℕ → UInt8) :
    permalinkPhrase queryString = cstr (permalinkDecode queryString memory).1 := by
  have hlen := length_queryDecBuffer (permalinkQuery queryString) memory
  have hroom := lt_queryDecMlen (permalinkQuery queryString).length
  rw [permalinkDecode, mgUrlDecodeInto_fst (by omega), cstr_overwrite, hlen, Nat.sub_zero]
  rfl

/-! ### Form encodings -/

/-- A form encoding of a phrase: a byte stands for itself, but for the four that have a
meaning in a form; a space can be a plus sign; and every byte can be a percent sign and two
hexadecimal digits of either case. -/
inductive Encodes : Bytes → Bytes → Prop
  | nil : Encodes [] []
  | plain {c : UInt8} {phrase e : Bytes} : c ∉ ascii "%+&=" → Encodes phrase e →
      Encodes (c :: phrase) (c :: e)
  | plus {phrase e : Bytes} : Encodes phrase e → Encodes (32 :: phrase) (43 :: e)
  | percent {a b : UInt8} {hi lo : ℕ} {phrase e : Bytes} : Numeral.digitValue a = some hi →
      Numeral.digitValue b = some lo → Encodes phrase e →
      Encodes (UInt8.ofNat (hi * 16 + lo) :: phrase) (37 :: a :: b :: e)

/-- A digit of either case is read as its value. -/
theorem hextoi_tolower {c : UInt8} {d : ℕ} (h : Numeral.digitValue c = some d) :
    d < 16 ∧ isxdigit c = true ∧ hextoi (tolower c) = UInt8.ofNat d := by
  have hall : ∀ n : Fin 256, ∀ d ∈ Numeral.digitValue (.ofNat n.val),
      d < 16 ∧ hextoi (tolower (.ofNat n.val)) = UInt8.ofNat d := by
    decide +kernel
  have hc := hall ⟨c.toNat, c.toNat_lt⟩ d
  rw [UInt8.ofNat_toNat] at hc
  obtain ⟨hd, hval⟩ := hc h
  exact ⟨hd, by rw [isxdigit, Numeral.isHexDigit, h, Option.isSome_some], hval⟩

/-- Two digits make a byte. -/
theorem nibbles_or {hi lo : ℕ} (hhi : hi < 16) (hlo : lo < 16) :
    UInt8.ofNat hi <<< 4 ||| UInt8.ofNat lo = UInt8.ofNat (hi * 16 + lo) := by
  have hall : ∀ hi lo : Fin 16,
      UInt8.ofNat hi.val <<< 4 ||| UInt8.ofNat lo.val = UInt8.ofNat (hi.val * 16 + lo.val) := by
    decide +kernel
  exact hall ⟨hi, hhi⟩ ⟨lo, hlo⟩

/-- An encoding is not shorter. -/
theorem Encodes.length_le {phrase e : Bytes} (h : Encodes phrase e) :
    phrase.length ≤ e.length := by
  induction h with
  | nil => exact le_rfl
  | plain _ _ ih | plus _ ih | percent _ _ _ ih =>
      simp only [List.length_cons]
      omega

/-- A byte that stands for itself is neither a percent sign nor a plus sign. -/
theorem ne_of_notMem_reserved {c : UInt8} (h : c ∉ ascii "%+&=") : c ≠ 37 ∧ c ≠ 43 := by
  constructor
  · rintro rfl
    exact h (by decide)
  · rintro rfl
    exact h (by decide)

/-- **Decoding a form encoding** into a buffer with room for the phrase and a terminator
writes these two, and returns where the phrase ends. -/
theorem Encodes.decodeInto {phrase e : Bytes} (h : Encodes phrase e) {j : ℕ} {dst : Bytes}
    (hroom : j + phrase.length < dst.length) :
    mgUrlDecodeInto e j dst = (overwrite dst j (phrase ++ [0]), ((j + phrase.length : ℕ) : ℤ)) := by
  induction h generalizing j dst with
  | nil => exact Prod.ext (set_eq_overwrite hroom 0) rfl
  | @plain c phrase e hc h ih =>
      obtain ⟨hpercent, hplus⟩ := ne_of_notMem_reserved hc
      rw [List.length_cons] at hroom
      rw [mgUrlDecodeInto, if_pos (by omega), if_neg hplus, ih (by rw [List.length_set]; omega),
        overwrite_set (by omega), List.length_cons, Nat.add_right_comm, Nat.add_assoc]
      · rfl
      · intro _ _ _ h37
        exact absurd h37 hpercent
  | @plus phrase e h ih =>
      rw [List.length_cons] at hroom
      rw [mgUrlDecodeInto, if_pos (by omega), if_pos rfl, ih (by rw [List.length_set]; omega),
        overwrite_set (by omega), List.length_cons, Nat.add_right_comm, Nat.add_assoc]
      · rfl
      · intro _ _ _ h37
        exact absurd h37 (by decide)
  | @percent a b hi lo phrase e ha hb h ih =>
      obtain ⟨hhi, hxa, hva⟩ := hextoi_tolower ha
      obtain ⟨hlo, hxb, hvb⟩ := hextoi_tolower hb
      rw [List.length_cons] at hroom
      rw [mgUrlDecodeInto, if_pos (by omega), if_pos (by rw [hxa, hxb]; rfl), hva, hvb,
        nibbles_or hhi hlo, ih (by rw [List.length_set]; omega), overwrite_set (by omega),
        List.length_cons, Nat.add_right_comm, Nat.add_assoc]
      rfl

/-- And has no NUL. -/
theorem Encodes.zero_notMem {phrase e : Bytes} (h : Encodes phrase e) (h0 : 0 ∉ phrase) :
    0 ∉ e := by
  induction h with
  | nil => exact h0
  | plain _ _ ih =>
      obtain ⟨hc, hrest⟩ := not_or.mp (List.mem_cons.not.mp h0)
      exact List.mem_cons.not.mpr (not_or.mpr ⟨hc, ih hrest⟩)
  | plus _ ih =>
      obtain ⟨-, hrest⟩ := not_or.mp (List.mem_cons.not.mp h0)
      exact List.mem_cons.not.mpr (not_or.mpr ⟨by decide, ih hrest⟩)
  | @percent a b hi lo _ _ ha hb _ ih =>
      obtain ⟨-, hrest⟩ := not_or.mp (List.mem_cons.not.mp h0)
      have hnone : Numeral.digitValue 0 = none := by decide
      have hdigit : ∀ {c d}, Numeral.digitValue c = some d → (0 : UInt8) ≠ c := by
        rintro _ _ hval rfl
        exact absurd (hnone.symm.trans hval) (by simp)
      simp only [List.mem_cons, not_or]
      exact ⟨by decide, hdigit ha, hdigit hb, ih hrest⟩

/-- The key is cut off with the first `=`. -/
theorem permalinkQuery_linkfor {e : Bytes} (h0 : 0 ∉ e) :
    permalinkQuery (ascii "linkfor=" ++ e) = e := by
  have hquery : (0 : UInt8) ∉ ascii "linkfor=" ++ e := by
    rw [List.mem_append, not_or]
    exact ⟨by decide, h0⟩
  have hpos : bstrchr (ascii "linkfor=" ++ e) 61 = 7 :=
    bstrchr_append (t := ascii "linkfor") (u := e) (by decide)
  rw [permalinkQuery, bfromcstr, cstr_eq_self hquery, hpos]
  exact bdelete_append [] (ascii "linkfor=") e (by decide)

/-- **Decoding undoes encoding.** For every form encoding of a phrase without NUL the key is
cut off, decoding is not cut short, the buffer has the phrase and a terminator in front of
what it held before, and as a C string it is the phrase. -/
theorem permalink_passes {phrase e : Bytes} (h0 : 0 ∉ phrase) (h : Encodes phrase e)
    (memory : ℕ → UInt8) :
    permalinkQuery (ascii "linkfor=" ++ e) = e ∧
      permalinkDecode (ascii "linkfor=" ++ e) memory =
        (overwrite (queryDecBuffer e memory) 0 (phrase ++ [0]), (phrase.length : ℤ)) ∧
      cstr (permalinkDecode (ascii "linkfor=" ++ e) memory).1 = phrase ∧
      permalinkPhrase (ascii "linkfor=" ++ e) = phrase := by
  have hquery := permalinkQuery_linkfor (h.zero_notMem h0)
  have hdecode : permalinkDecode (ascii "linkfor=" ++ e) memory =
      (overwrite (queryDecBuffer e memory) 0 (phrase ++ [0]), (phrase.length : ℤ)) := by
    have hlen := length_queryDecBuffer e memory
    have hroom := lt_queryDecMlen e.length
    have hle := h.length_le
    rw [permalinkDecode, hquery]
    refine (h.decodeInto ?_).trans ?_
    · omega
    · rw [Nat.zero_add]
  have hcstr : cstr (permalinkDecode (ascii "linkfor=" ++ e) memory).1 = phrase := by
    rw [hdecode, cstr_overwrite, cstr_eq_self h0]
  exact ⟨hquery, hdecode, hcstr, (permalinkPhrase_eq _ memory).trans hcstr⟩

/-- Plus signs, escapes and bytes that are not escaped. -/
theorem permalink_passes_mixed :
    permalinkPhrase (ascii "linkfor=" ++ ascii "Be+%6B%6bind%20") = ascii "Be kkind " :=
  (@permalink_passes (ascii "Be kkind ") _ (by decide) (.plain (by decide) (.plain (by decide)
    (.plus (.percent (show _ = some 6 by decide) (show _ = some 11 by decide)
      (.percent (show _ = some 6 by decide) (show _ = some 11 by decide) (.plain (by decide)
        (.plain (by decide) (.plain (by decide) (.percent (show _ = some 2 by decide)
          (show _ = some 0 by decide) .nil))))))))) fun _ => 37).2.2.2

end Yogigen
