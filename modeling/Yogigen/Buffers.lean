import Yogigen.Bstring
import Yogigen.Memory

/-!
# Byte Strings in Memory

`struct tagbstring` of `bstrlib.c` with the block that `data` points to, and the functions of
the library on it as they move cells around. Lengths and positions are of type `int`: sums
and products wrap around, and the functions test the sums for that. Memory may not be had:
`balloc` then tries the tightest size, and fails.

A string that `Holds` a text has it at the start of its block, a terminator behind it, and
sizes that are right. Every function here keeps this or leaves the string as it was, and
what it makes of the text is what the function of the same name does on lists of bytes.

## Main results

* `balloc_cases`: more room for the same text, or nothing happens.
* `binsert_cases`, `bdelete_cases`: editing in memory is editing of the text.
* `bassign_cases`: assignment, which needs room for the terminator.
-/

open Memory

namespace Yogigen

/-! ### Allocation -/

/-- What `malloc` and `realloc` find memory for, while one call of a function of the library
asks for each block once: for a `struct tagbstring`, and for which sizes of the data. -/
structure Allocator where
  header : Bool
  malloc : ℤ → Bool
  realloc : ℤ → Bool

/-- Memory is found for every block. -/
structure Allocator.Ample (A : Allocator) : Prop where
  header : A.header = true
  malloc : ∀ n, A.malloc n = true
  realloc : ∀ n, A.realloc n = true

/-- Memory is found in every call of some that are made one after another. -/
def Plenty (A : ℕ → Allocator) : Prop :=
  ∀ i, (A i).Ample

/-- `struct tagbstring`, with the block behind `data`. -/
structure Tagbstring where
  mlen : ℤ
  slen : ℤ
  data : Block UInt8

/-- `BSTR_OK` or `BSTR_ERR`, with the string afterwards. -/
abbrev Status := Except Violation (Bool × Tagbstring)

namespace Tagbstring

/-- Write the terminator. -/
def terminate (b : Tagbstring) : Status := do
  let data ← store b.data b.slen [some 0]
  return (true, { b with data := data })

/-- `balloc`. -/
def balloc (A : Allocator) (b : Tagbstring) (olen : ℤ) : Status :=
  if b.slen < 0 ∨ b.mlen ≤ 0 ∨ b.mlen < b.slen ∨ olen ≤ 0 then .ok (false, b)
  else if b.mlen ≤ olen then
    let len := snapUpSize olen
    if len ≤ b.mlen then .ok (true, b)
    else if int (7 * b.mlen) < int (8 * b.slen) ∨ A.malloc len = false then
      if A.realloc len then terminate ⟨len, b.slen, resize b.data len⟩
      else if A.realloc olen then terminate ⟨olen, b.slen, resize b.data olen⟩
      else .ok (false, b)
    else do
      let kept ← cells b.data 0 b.slen
      let data ← store (alloc len) 0 kept
      terminate ⟨len, b.slen, data⟩
  else .ok (true, b)

/-- `bBlockCopy` within a block. -/
def blockCopy (m : Block UInt8) (dst src n : ℤ) : Except Violation (Block UInt8) :=
  if 0 < n then move m dst src n else .ok m

/-- `bdelete`. -/
def bdelete (b : Tagbstring) (pos len : ℤ) : Status :=
  let len := if pos < 0 then int (len + pos) else len
  let pos := if pos < 0 then 0 else pos
  if len < 0 ∨ b.slen < 0 ∨ b.mlen < b.slen ∨ b.mlen ≤ 0 then .ok (false, b)
  else if 0 < len ∧ pos < b.slen then
    if b.slen ≤ int (pos + len) then terminate { b with slen := pos }
    else do
      let data ← blockCopy b.data pos (int (pos + len)) (b.slen - int (pos + len))
      terminate ⟨b.mlen, b.slen - len, data⟩
  else .ok (true, b)

/-- The end of `binsertblk`: the block goes into the gap. -/
def fillGap (b : Tagbstring) (pos : ℤ) (blk : Block UInt8) (len : ℤ) : Status := do
  let new ← cells blk 0 len
  let data ← store b.data pos new
  terminate { b with data := data }

/-- `binsertblk`, for bytes that are not part of the string itself. -/
def binsertblk (A : Allocator) (b : Tagbstring) (pos : ℤ) (blk : Block UInt8) (len : ℤ)
    (fill : UInt8) : Status :=
  if pos < 0 ∨ len < 0 ∨ b.slen < 0 ∨ b.mlen ≤ 0 ∨ b.mlen < b.slen then .ok (false, b)
  else
    let d := int (b.slen + len)
    let l := int (pos + len)
    if d < 0 ∨ l < 0 then .ok (false, b)
    else if d < l then do
      let (ok, b) ← balloc A b (int (l + 1))
      if ok then do
        let data ← store b.data b.slen (List.replicate (pos - b.slen).toNat (some fill))
        fillGap ⟨b.mlen, l, data⟩ pos blk len
      else return (false, b)
    else do
      let (ok, b) ← balloc A b (int (d + 1))
      if ok then do
        let data ← blockCopy b.data l pos (d - l)
        fillGap ⟨b.mlen, d, data⟩ pos blk len
      else return (false, b)

/-- `binsert`. -/
def binsert (A : Allocator) (b1 : Tagbstring) (pos : ℤ) (b2 : Tagbstring) (fill : UInt8) :
    Status :=
  if 0 < b2.mlen ∧ b2.mlen < b2.slen then .ok (false, b1)
  else binsertblk A b1 pos b2.data b2.slen fill

/-- `bassign`. -/
def bassign (A : Allocator) (a b : Tagbstring) : Status :=
  if b.slen < 0 then .ok (false, a)
  else if b.slen ≠ 0 then do
    let (ok, a) ← balloc A a b.slen
    if ok then do
      let new ← cells b.data 0 b.slen
      let data ← store a.data 0 new
      terminate ⟨a.mlen, b.slen, data⟩
    else return (false, a)
  else if a.mlen < a.slen ∨ a.slen < 0 ∨ a.mlen = 0 then .ok (false, a)
  else terminate { a with slen := b.slen }

/-- `bfromcstr`, on the bytes before the terminator; `none` is NULL. -/
def bfromcstr (A : Allocator) (str : Bytes) : Except Violation (Option Tagbstring) :=
  let j := str.length
  let i := snapUpSize (int (j + (2 - (if j ≠ 0 then 1 else 0))))
  if i ≤ j ∨ A.header = false ∨ A.malloc i = false then .ok none
  else do
    let data ← store (alloc i) 0 (str.map some ++ [some 0])
    return some ⟨i, j, data⟩

/-- `bstrcpy`; `none` is NULL. -/
def bstrcpy (A : Allocator) (b : Tagbstring) : Except Violation (Option Tagbstring) :=
  if b.slen < 0 ∨ A.header = false then .ok none
  else
    let i := b.slen
    let j := snapUpSize (int (i + 1))
    let j := if A.malloc j then j else i + 1
    if A.malloc j then do
      let kept ← cells b.data 0 i
      let data ← store (alloc j) 0 kept
      let data ← store data i [some 0]
      return some ⟨j, i, data⟩
    else .ok none

/-! ### Sizes -/

theorem int_le (x : ℤ) : int x ≤ intMax := by
  rw [int, intMax, Int.bmod_def]
  split_ifs
  · omega
  · omega

theorem snapUpSize_le {i : ℤ} (hi : i ≤ intMax) : snapUpSize i ≤ intMax := by
  rw [snapUpSize]
  split_ifs with h
  · decide
  · dsimp only
    split_ifs
    · exact int_le _
    · exact hi

/-- One step of spreading the bits. -/
theorem spread_step {j : UInt32} (k : UInt32) {n : ℕ} (hj : j.toNat < 2 ^ n) :
    j.toNat ≤ (j ||| (j >>> k)).toNat ∧ (j ||| (j >>> k)).toNat < 2 ^ n := by
  rw [UInt32.toNat_or, UInt32.toNat_shiftRight]
  have hshift : j.toNat >>> (k.toNat % 32) < 2 ^ n := by
    rw [Nat.shiftRight_eq_div_pow]
    exact lt_of_le_of_lt (Nat.div_le_self _ _) hj
  exact ⟨Nat.left_le_or, Nat.or_lt_two_pow hj hshift⟩

theorem spread_bounds {j : UInt32} {n : ℕ} (hj : j.toNat < 2 ^ n) :
    j.toNat ≤ (spread j).toNat ∧ (spread j).toNat < 2 ^ n := by
  obtain ⟨h1, hlt1⟩ := spread_step 1 hj
  obtain ⟨h2, hlt2⟩ := spread_step 2 hlt1
  obtain ⟨h3, hlt3⟩ := spread_step 4 hlt2
  obtain ⟨h4, hlt4⟩ := spread_step 8 hlt3
  obtain ⟨h5, hlt5⟩ := spread_step 16 hlt4
  exact ⟨h1.trans (h2.trans (h3.trans (h4.trans h5))), hlt5⟩

/-- **The snapped size is larger** than the size that is asked for, up to one GiB. -/
theorem lt_snapUpSize {i : ℤ} (h0 : 0 ≤ i) (hi : i < 1073741824) : i < snapUpSize i := by
  rw [snapUpSize]
  split_ifs with h
  · omega
  · have hj : (UInt32.ofNat i.toNat).toNat = i.toNat := by
      rw [UInt32.toNat_ofNat', Nat.mod_eq_of_lt (by omega)]
    obtain ⟨hle, hlt⟩ := @spread_bounds (UInt32.ofNat i.toNat) 30 (by rw [hj]; omega)
    rw [hj] at hle
    have hint : int ((spread (UInt32.ofNat i.toNat)).toNat + 1) =
        (spread (UInt32.ofNat i.toNat)).toNat + 1 := by
      refine int_eq ?_ ?_
      · rw [intMax]
        omega
      · rw [intMax]
        omega
    dsimp only
    rw [hint]
    split_ifs
    · omega
    · omega

/-! ### Texts in memory -/

/-- A string that is being filled: the text is at the start of the block, and there is room
for a terminator. -/
structure Filled (b : Tagbstring) (s : Bytes) : Prop where
  slen : b.slen = s.length
  mlen : b.mlen = b.data.length
  small : b.mlen ≤ intMax
  data : ∃ c rest, b.data = s.map some ++ c :: rest

/-- A string with a text: the text is at the start of the block, a terminator behind it. -/
structure Holds (b : Tagbstring) (s : Bytes) : Prop where
  slen : b.slen = s.length
  mlen : b.mlen = b.data.length
  small : b.mlen ≤ intMax
  data : ∃ rest, b.data = s.map some ++ some 0 :: rest

theorem Holds.filled {b : Tagbstring} {s : Bytes} (h : b.Holds s) : b.Filled s where
  slen := h.slen
  mlen := h.mlen
  small := h.small
  data := ⟨some 0, h.data⟩

/-- A string in a block of just the size that it needs. -/
def stored (s : Bytes) : Tagbstring :=
  ⟨s.length + 1, s.length, s.map some ++ [some 0]⟩

theorem stored_holds {s : Bytes} (h : (s.length : ℤ) < intMax) : (stored s).Holds s where
  slen := rfl
  mlen := by
    simp only [stored, List.length_append, List.length_map, List.length_singleton]
    omega
  small := by
    simp only [stored]
    omega
  data := ⟨[], rfl⟩

theorem Filled.room {b : Tagbstring} {s : Bytes} (h : b.Filled s) : (s.length : ℤ) < b.mlen := by
  obtain ⟨c, rest, hdata⟩ := h.data
  rw [h.mlen, hdata]
  simp only [List.length_append, List.length_map, List.length_cons]
  omega

theorem Holds.room {b : Tagbstring} {s : Bytes} (h : b.Holds s) : (s.length : ℤ) < b.mlen :=
  h.filled.room

/-- The checks with which every function starts. -/
theorem Filled.valid {b : Tagbstring} {s : Bytes} (h : b.Filled s) :
    ¬ (b.slen < 0 ∨ b.mlen ≤ 0 ∨ b.mlen < b.slen) := by
  have := h.room
  rw [h.slen]
  omega

theorem Holds.valid {b : Tagbstring} {s : Bytes} (h : b.Holds s) :
    ¬ (b.slen < 0 ∨ b.mlen ≤ 0 ∨ b.mlen < b.slen) :=
  h.filled.valid

/-- Other bytes in the place of the text. -/
theorem Holds.overwrite {b : Tagbstring} {s s' : Bytes} {rest : Block UInt8} (h : b.Holds s)
    (hdata : b.data = s.map some ++ some 0 :: rest) (hlen : s'.length = s.length) :
    Holds { b with data := s'.map some ++ some 0 :: rest } s' where
  slen := by rw [hlen]; exact h.slen
  mlen := by
    have hmlen := h.mlen
    rw [hdata] at hmlen
    rw [hmlen, List.length_append, List.length_append, List.length_map, List.length_map, hlen]
  small := h.small
  data := ⟨rest, rfl⟩

/-- A string is complete with its terminator. -/
theorem terminate_holds {s : Bytes} {c : Option UInt8} {behind : Block UInt8} {mlen slen : ℤ}
    {data : Block UInt8} (hdata : data = s.map some ++ c :: behind) (hslen : slen = s.length)
    (hmlen : mlen = data.length) (hsmall : mlen ≤ intMax) :
    ∃ b', terminate ⟨mlen, slen, data⟩ = .ok (true, b') ∧ b'.Holds s ∧ b'.mlen = mlen := by
  subst hdata
  refine ⟨⟨mlen, slen, s.map some ++ some 0 :: behind⟩, ?_, ⟨hslen, ?_, hsmall, behind, rfl⟩, rfl⟩
  · rw [terminate, store_cell _ _ _ _ (by rw [hslen, List.length_map])]
    rfl
  · rw [hmlen, List.length_append, List.length_append]
    rfl

/-- A block that is made larger, with a new terminator. -/
theorem resize_holds {b : Tagbstring} {s : Bytes} (h : b.Filled s) {len : ℤ}
    (hlen : b.mlen ≤ len) (hsmall : len ≤ intMax) :
    ∃ b', terminate ⟨len, b.slen, resize b.data len⟩ = .ok (true, b') ∧ b'.Holds s ∧
      b'.mlen = len := by
  obtain ⟨c, rest, hdata⟩ := h.data
  have hroom := h.room
  obtain ⟨rest', heq, hlen'⟩ := resize_append (s.map some ++ [c]) rest (n := len) (by
    rw [List.length_append, List.length_map]
    simp only [List.length_singleton]
    omega)
  rw [List.append_assoc, List.append_assoc] at heq
  refine @terminate_holds s c rest' _ _ _ ?_ h.slen ?_ hsmall
  · rw [hdata]
    exact heq
  · rw [hdata]
    have := congrArg List.length heq
    simp only [List.singleton_append] at this
    rw [this, ← hlen', List.append_assoc]
    rfl

/-- **`balloc`** gets room of the size that is asked for, or leaves the string alone. With
enough memory there is room for one byte more. A new block is terminated. -/
theorem balloc_filled {b : Tagbstring} {s : Bytes} (h : b.Filled s) (A : Allocator) {olen : ℤ}
    (holen : olen ≤ intMax) :
    (∃ b', balloc A b olen = .ok (true, b') ∧ (b' = b ∨ b'.Holds s) ∧ 0 < olen ∧ olen ≤ b'.mlen ∧
      (A.Ample → olen < 1073741824 → olen < b'.mlen)) ∨
    (balloc A b olen = .ok (false, b) ∧ (A.Ample → olen ≤ 0)) := by
  have hroom := h.room
  have hvalid := h.valid
  rw [balloc]
  by_cases hpos : olen ≤ 0
  · rw [if_pos (by tauto)]
    exact .inr ⟨rfl, fun _ => hpos⟩
  · rw [if_neg (by tauto)]
    by_cases hlt : b.mlen ≤ olen
    · rw [if_pos hlt]
      have hle := le_snapUpSize olen
      have hsmall := snapUpSize_le holen
      have hstrict : olen < 1073741824 → olen < snapUpSize olen := lt_snapUpSize (by omega)
      dsimp only
      split_ifs with hlen hstrategy hre htight
      · exact .inl ⟨b, rfl, .inl rfl, by omega, by omega,
          fun _ h30 => by have := hstrict h30; omega⟩
      · obtain ⟨b', hb', hholds, hmlen⟩ := resize_holds h (by omega) hsmall
        exact .inl ⟨b', hb', .inr hholds, by omega, by omega,
          fun _ h30 => by have := hstrict h30; omega⟩
      · obtain ⟨b', hb', hholds, hmlen⟩ := resize_holds h hlt holen
        exact .inl ⟨b', hb', .inr hholds, by omega, by omega,
          fun hA => absurd (hA.realloc _) hre⟩
      · exact .inr ⟨rfl, fun hA => absurd (hA.realloc _) hre⟩
      · -- the text is copied to a new block
        obtain ⟨c, rest, hdata⟩ := h.data
        have hcells : cells b.data 0 b.slen = .ok (s.map some) := by
          rw [hdata]
          exact cells_append [] (s.map some) _ rfl (by rw [h.slen, List.length_map])
        have hnew : (alloc (snapUpSize olen) : Block UInt8) =
            List.replicate s.length none ++
              none :: List.replicate ((snapUpSize olen).toNat - s.length - 1) none := by
          rw [alloc, ← List.replicate_succ, ← List.replicate_add]
          congr 1
          omega
        have hstore : store (alloc (snapUpSize olen)) 0 (s.map some) = .ok (s.map some ++
            none :: List.replicate ((snapUpSize olen).toNat - s.length - 1) none) := by
          rw [hnew]
          exact store_append [] _ _ _ rfl (by rw [List.length_map, List.length_replicate])
        have hsize := length_store hstore
        rw [length_alloc] at hsize
        obtain ⟨b', hb', hholds, hmlen⟩ := terminate_holds rfl h.slen
          (by rw [hsize]; omega : snapUpSize olen = ((s.map some ++ none ::
            List.replicate ((snapUpSize olen).toNat - s.length - 1) none).length : ℕ)) hsmall
        refine .inl ⟨b', ?_, .inr hholds, by omega, by omega,
          fun _ h30 => by have := hstrict h30; omega⟩
        rw [hcells, ok_bind, hstore, ok_bind]
        exact hb'
    · rw [if_neg hlt]
      exact .inl ⟨b, rfl, .inl rfl, by omega, by omega, fun _ _ => by omega⟩

/-- `balloc` for a string that is complete. -/
theorem balloc_cases {b : Tagbstring} {s : Bytes} (h : b.Holds s) (A : Allocator) {olen : ℤ}
    (holen : olen ≤ intMax) :
    (∃ b', balloc A b olen = .ok (true, b') ∧ b'.Holds s ∧ 0 < olen ∧ olen ≤ b'.mlen ∧
      (A.Ample → olen < 1073741824 → olen < b'.mlen)) ∨
    (balloc A b olen = .ok (false, b) ∧ (A.Ample → olen ≤ 0)) := by
  rcases balloc_filled h.filled A holen with ⟨b', hok, rfl | hholds, hrest⟩ | hfail
  · exact .inl ⟨b', hok, h, hrest⟩
  · exact .inl ⟨b', hok, hholds, hrest⟩
  · exact .inr hfail

/-! ### Editing -/

/-- Filling a gap between two parts of a text. -/
theorem fillGap_holds {s₁ s₂ t : Bytes} {gap behind rest : Block UInt8} {c : Option UInt8}
    {mlen slen pos len : ℤ} {data : Block UInt8}
    (hdata : data = s₁.map some ++ (gap ++ (s₂.map some ++ c :: behind)))
    (hgap : gap.length = t.length) (hpos : pos = s₁.length) (hlen : len = t.length)
    (hslen : slen = (s₁ ++ (t ++ s₂)).length) (hmlen : mlen = data.length)
    (hsmall : mlen ≤ intMax) :
    ∃ b', fillGap ⟨mlen, slen, data⟩ pos (t.map some ++ rest) len = .ok (true, b') ∧
      b'.Holds (s₁ ++ (t ++ s₂)) := by
  have hcells : cells (t.map some ++ rest) 0 len = .ok (t.map some) :=
    cells_append [] (t.map some) rest rfl (by rw [hlen, List.length_map])
  have hstore : store data pos (t.map some) =
      .ok (s₁.map some ++ (t.map some ++ (s₂.map some ++ c :: behind))) := by
    rw [hdata]
    exact store_append _ gap _ _ (by rw [hpos, List.length_map]) (by rw [List.length_map, hgap])
  have htext : s₁.map some ++ (t.map some ++ (s₂.map some ++ c :: behind)) =
      (s₁ ++ (t ++ s₂)).map some ++ c :: behind := by
    simp only [List.map_append, List.append_assoc]
  obtain ⟨b', hb', hholds, -⟩ := terminate_holds htext hslen
    (hmlen.trans (by rw [length_store hstore])) hsmall
  refine ⟨b', ?_, hholds⟩
  rw [fillGap, hcells, ok_bind, hstore, ok_bind]
  exact hb'

/-- The text after an insertion, within the string or behind its end. -/
theorem binsert_eq {s : Bytes} {pos : ℤ} (hpos : 0 ≤ pos) (t : Bytes) (fill : UInt8) :
    Yogigen.binsert s pos t fill = (s.take pos.toNat ++
      List.replicate (pos.toNat - s.length) fill) ++ (t ++ s.drop pos.toNat) := by
  rw [Yogigen.binsert, if_neg (by omega), List.append_assoc _ t]

/-- Room for a sum of lengths and a terminator. -/
theorem balloc_room {b' : Tagbstring} {n : ℤ} (h0 : 0 ≤ n)
    (hn : n ≤ intMax) (hpos : 0 < int (n + 1)) (hle : int (n + 1) ≤ b'.mlen) : n < b'.mlen := by
  by_cases hlt : n + 1 ≤ intMax
  · rw [int_eq (by rw [intMax]; omega) hlt] at hle
    omega
  · have := int_neg (not_le.mp hlt) (by rw [intMax] at hn; omega)
    omega

/-- Making room for an insertion behind the end. -/
theorem binsertblk_behind {b' : Tagbstring} {s t : Bytes} {rest2 : Block UInt8} {pos : ℤ}
    (hb' : b'.Holds s) (fill : UInt8) (hpos : (s.length : ℤ) ≤ pos)
    (hroom : pos + t.length < b'.mlen) :
    ∃ b'', (do
        let data ← store b'.data b'.slen
          (List.replicate (pos - b'.slen).toNat (some fill))
        fillGap ⟨b'.mlen, pos + t.length, data⟩ pos (t.map some ++ rest2) t.length) =
          .ok (true, b'') ∧ b''.Holds (Yogigen.binsert s pos t fill) := by
  obtain ⟨rest, hdata⟩ := hb'.data
  have hmlen := hb'.mlen
  -- the cells behind the text: those to fill up, the gap, and the terminator's
  obtain ⟨between, tail, hsplit, hbetween⟩ :=
    exists_split (some 0 :: rest) (n := pos.toNat - s.length) (by
      rw [hmlen, hdata, List.length_append, List.length_map] at hroom
      omega)
  obtain ⟨gap, c, behind, htail, hgap⟩ := exists_split_cell tail (n := t.length) (by
    rw [hmlen, hdata, hsplit] at hroom
    simp only [List.length_append, List.length_map] at hroom
    omega)
  have hstore : store b'.data b'.slen (List.replicate (pos - b'.slen).toNat (some fill)) =
      .ok (s.map some ++ (List.replicate (pos - b'.slen).toNat (some fill) ++ tail)) := by
    rw [hdata, hsplit]
    refine store_append _ between _ _ (by rw [hb'.slen, List.length_map]) ?_
    rw [List.length_replicate, hbetween, hb'.slen]
    omega
  rw [hstore, ok_bind, binsert_eq (by omega), List.drop_of_length_le (by omega),
    List.take_of_length_le (by omega)]
  refine @fillGap_holds _ _ t gap behind rest2 c _ _ _ _ _ ?_ hgap ?_ rfl ?_ ?_ hb'.small
  · rw [htail, List.map_append, List.append_assoc, List.map_replicate, hb'.slen]
    rw [show (pos - s.length).toNat = pos.toNat - s.length by omega]
    rfl
  · simp only [List.length_append, List.length_replicate]
    omega
  · simp only [List.length_append, List.length_replicate, List.length_nil]
    omega
  · rw [hmlen, length_store hstore]

/-- Making room for an insertion within the string. -/
theorem binsertblk_within {b' : Tagbstring} {s t : Bytes} {rest2 : Block UInt8} {pos : ℤ}
    (hb' : b'.Holds s) (fill : UInt8) (h0 : 0 ≤ pos) (hpos : pos ≤ s.length)
    (hroom : (s.length : ℤ) + t.length < b'.mlen) :
    ∃ b'', (do
        let data ← blockCopy b'.data (pos + t.length) pos
          (s.length + t.length - (pos + t.length))
        fillGap ⟨b'.mlen, s.length + t.length, data⟩ pos (t.map some ++ rest2) t.length) =
          .ok (true, b'') ∧ b''.Holds (Yogigen.binsert s pos t fill) := by
  obtain ⟨rest, hdata⟩ := hb'.data
  have hmlen := hb'.mlen
  obtain ⟨gap, c, behind, hsplit, hgap⟩ := exists_split_cell (some 0 :: rest) (n := t.length) (by
    rw [hmlen, hdata, List.length_append, List.length_map] at hroom
    omega)
  obtain ⟨s₁, s₂, rfl, hs₁⟩ := exists_split s (n := pos.toNat) (by omega)
  have hpos' : pos = s₁.length := by omega
  have hlen : ((s₁ ++ s₂).length : ℤ) = s₁.length + s₂.length := by
    rw [List.length_append]
    omega
  -- the second part of the text is moved behind the gap, if there is one
  obtain ⟨left, hleft, hmove⟩ : ∃ left : Block UInt8, left.length = t.length ∧
      blockCopy b'.data (pos + t.length) pos
        ((s₁ ++ s₂).length + t.length - (pos + t.length)) =
          .ok (s₁.map some ++ (left ++ (s₂.map some ++ c :: behind))) := by
    rw [hdata, hsplit, List.map_append, List.append_assoc, blockCopy]
    split_ifs with hn
    · obtain ⟨left, hleft, hmove⟩ := move_right (s₁.map some) (s₂.map some) gap (c :: behind)
        (pos + t.length) pos ((s₁ ++ s₂).length + t.length - (pos + t.length))
        (by rw [hpos', List.length_map]) (by rw [hlen, hpos', List.length_map]; omega)
        (by rw [hgap])
      exact ⟨left, hleft.trans hgap, hmove⟩
    · obtain rfl : s₂ = [] := List.eq_nil_of_length_eq_zero (by omega)
      exact ⟨gap, hgap, by simp⟩
  rw [hmove, ok_bind]
  have htext : Yogigen.binsert (s₁ ++ s₂) pos t fill = s₁ ++ (t ++ s₂) := by
    rw [hpos', binsert_append, List.append_assoc]
  rw [htext]
  refine fillGap_holds rfl hleft hpos' rfl ?_ ?_ hb'.small
  · simp only [List.length_append]
    omega
  · rw [hmlen, hdata, hsplit]
    simp only [List.length_append, List.length_map, List.length_cons]
    omega

/-- **`binsert`** inserts the text of a string into that of another one, or fails. With
enough memory it fails only for a negative position or a text of two GiB. -/
theorem binsert_cases {b b2 : Tagbstring} {s t : Bytes} (h : b.Holds s) (h2 : b2.Holds t)
    (A : Allocator) {pos : ℤ} (hpos : pos ≤ intMax) (fill : UInt8) :
    (∃ b', binsert A b pos b2 fill = .ok (true, b') ∧
      b'.Holds (Yogigen.binsert s pos t fill) ∧ 0 ≤ pos) ∨
    (binsert A b pos b2 fill = .ok (false, b) ∧ (A.Ample →
      pos < 0 ∨ intMax ≤ (Yogigen.binsert s pos t fill).length)) := by
  have hroom := h.room
  have hroom2 := h2.room
  have hsmall := h.small
  have hsmall2 := h2.small
  have hvalid := h.valid
  rw [binsert, if_neg (by rw [h2.slen]; omega), binsertblk]
  by_cases hneg : pos < 0
  · rw [if_pos (.inl hneg)]
    exact .inr ⟨rfl, fun _ => .inl hneg⟩
  · have hlength : ((Yogigen.binsert s pos t fill).length : ℤ) =
        max (s.length : ℤ) pos + t.length := by
      rw [binsert_eq (not_lt.mp hneg)]
      simp only [List.length_append, List.length_take, List.length_replicate, List.length_drop]
      omega
    rw [if_neg (by rw [h2.slen]; tauto), h.slen, h2.slen]
    obtain ⟨rest2, hdata2⟩ := h2.data
    rw [hdata2]
    dsimp only
    by_cases hwrap : int (s.length + t.length) < 0 ∨ int (pos + t.length) < 0
    · rw [if_pos hwrap]
      refine .inr ⟨rfl, fun _ => .inr ?_⟩
      rw [hlength]
      by_contra hlt
      rw [int_eq (by rw [intMax]; omega) (by omega),
        int_eq (by rw [intMax]; omega) (by omega)] at hwrap
      omega
    · have hsum : ∀ n : ℤ, 0 ≤ n → n ≤ intMax → ¬ int (n + t.length) < 0 →
          n + t.length ≤ intMax := by
        intro n h0 hn hnot
        by_contra hlt
        rw [intMax] at *
        exact hnot (int_neg (not_le.mp hlt) (by omega))
      have hd := hsum s.length (by omega) (by omega) fun hd => hwrap (.inl hd)
      have hl := hsum pos (by omega) hpos fun hl => hwrap (.inr hl)
      have hwrapped : ∀ n : ℤ, 0 ≤ n → n ≤ intMax → int (n + 1) ≤ 0 → intMax ≤ n := by
        intro n h0 hn hle
        by_contra hlt
        rw [int_eq (by rw [intMax]; omega) (by omega)] at hle
        omega
      rw [if_neg hwrap, int_eq (by rw [intMax]; omega) hd, int_eq (by rw [intMax]; omega) hl]
      split_ifs with hlt
      · rcases balloc_cases h A (int_le (pos + t.length + 1)) with
          ⟨b', hok, hholds, hpos', hle, -⟩ | ⟨hfail, hample⟩
        · have hroom' := balloc_room (by omega) hl hpos' hle
          obtain ⟨b'', hrun, hholds'⟩ :=
            @binsertblk_behind b' s t (some 0 :: rest2) pos hholds fill (by omega) hroom'
          refine .inl ⟨b'', ?_, hholds', by omega⟩
          rw [hok, ok_bind]
          exact hrun
        · refine .inr ⟨by rw [hfail]; rfl, fun hA => .inr ?_⟩
          have := hwrapped _ (by omega) hl (hample hA)
          rw [hlength]
          omega
      · rcases balloc_cases h A (int_le (s.length + t.length + 1)) with
          ⟨b', hok, hholds, hpos', hle, -⟩ | ⟨hfail, hample⟩
        · have hroom' := balloc_room (by omega) hd hpos' hle
          obtain ⟨b'', hrun, hholds'⟩ :=
            @binsertblk_within b' s t (some 0 :: rest2) pos hholds fill (by omega) (by omega) hroom'
          refine .inl ⟨b'', ?_, hholds', by omega⟩
          rw [hok, ok_bind]
          exact hrun
        · refine .inr ⟨by rw [hfail]; rfl, fun hA => .inr ?_⟩
          have := hwrapped _ (by omega) hd (hample hA)
          rw [hlength]
          omega

/-- **`bdelete`** deletes a part of the text, clamped to the string; for a negative length
it refuses. -/
theorem bdelete_cases {b : Tagbstring} {s : Bytes} (h : b.Holds s) {pos len : ℤ}
    (hlow : -intMax ≤ pos + len) (hhigh : pos + len ≤ intMax) :
    (∃ b', bdelete b pos len = .ok (true, b') ∧ b'.Holds (Yogigen.bdelete s pos len)) ∨
    (bdelete b pos len = .ok (false, b) ∧ Yogigen.bdelete s pos len = s) := by
  have hroom := h.room
  have hvalid := h.valid
  have hlen : (if pos < 0 then int (len + pos) else len) = if pos < 0 then len + pos else len := by
    rw [add_comm len, int_eq hlow hhigh]
  rw [bdelete, Yogigen.bdelete, hlen]
  generalize hl : (if pos < 0 then len + pos else len) = l
  generalize hp : (if pos < 0 then 0 else pos) = p
  have hp0 : 0 ≤ p := by
    rw [← hp]
    split_ifs
    · exact le_rfl
    · omega
  have hsum : p + l ≤ intMax ∧ -intMax ≤ p + l := by
    rw [← hl, ← hp]
    split_ifs
    · omega
    · omega
  by_cases hneg : l < 0
  · rw [if_pos (.inl hneg)]
    exact .inr ⟨rfl, if_neg (by omega)⟩
  · rw [if_neg (by tauto)]
    left
    by_cases hdel : 0 < l ∧ p < b.slen
    · rw [if_pos hdel, if_pos hdel.1, int_eq hsum.2 hsum.1]
      obtain ⟨rest, hdata⟩ := h.data
      obtain ⟨s₁, s₂, rfl, hs₁⟩ := exists_split s (n := p.toNat) (by have := h.slen; omega)
      have hslen : b.slen = s₁.length + s₂.length := by
        rw [h.slen, List.length_append]
        omega
      rw [← hs₁, List.take_left]
      split_ifs with hend
      · rw [List.drop_of_length_le (by rw [List.length_append]; omega), List.append_nil]
        obtain ⟨c, behind, hcell⟩ : ∃ c behind, s₂.map some ++ some 0 :: rest = c :: behind :=
          List.exists_cons_of_ne_nil (by simp)
        obtain ⟨b', hb', hholds, -⟩ := @terminate_holds s₁ c behind b.mlen p b.data (by
          rw [hdata, List.map_append, List.append_assoc, hcell]) (by omega) h.mlen h.small
        exact ⟨b', hb', hholds⟩
      · obtain ⟨gone, s₃, rfl, hgone⟩ := exists_split s₂ (n := l.toNat) (by omega)
        have hdrop : (s₁ ++ (gone ++ s₃)).drop (p + l).toNat = s₃ := by
          rw [← List.append_assoc]
          exact List.drop_left' (by rw [List.length_append]; omega)
        obtain ⟨left, hleft, hmove⟩ := move_left_text s₁ gone s₃ (some 0 :: rest) p (p + l)
          (b.slen - (p + l)) (by omega) (by omega) (by rw [List.length_append] at hslen; omega)
        have hcopy : blockCopy b.data p (p + l) (b.slen - (p + l)) =
            .ok (s₁.map some ++ (s₃.map some ++ (left.map some ++ some 0 :: rest))) := by
          rw [blockCopy, if_pos (by omega), hdata]
          simp only [List.map_append, List.append_assoc]
          exact hmove
        obtain ⟨c, behind, hcell⟩ : ∃ c behind, left.map some ++ some 0 :: rest = c :: behind :=
          List.exists_cons_of_ne_nil (by simp)
        obtain ⟨b', hb', hholds, -⟩ := @terminate_holds (s₁ ++ s₃) c behind b.mlen (b.slen - l)
          (s₁.map some ++ (s₃.map some ++ (left.map some ++ some 0 :: rest))) (by
            rw [List.map_append, List.append_assoc, hcell])
          (by rw [List.length_append] at *; omega)
          (by
            rw [h.mlen, hdata]
            simp only [List.length_append, List.length_map] at hleft ⊢
            omega) h.small
        refine ⟨b', ?_, by rwa [hdrop]⟩
        rw [hcopy, ok_bind]
        exact hb'
    · rw [if_neg hdel]
      refine ⟨b, rfl, ?_⟩
      split_ifs with hpos
      · rw [List.take_of_length_le (by have := h.slen; omega),
          List.drop_of_length_le (by have := h.slen; omega), List.append_nil]
        exact h
      · exact h

/-! ### Assignment -/

/-- `bassign` with the room that `balloc` has made: it writes one byte more. -/
theorem bassign_of_balloc {A : Allocator} {a a' b : Tagbstring} {s t : Bytes} (h : b.Holds t)
    (hne : t ≠ []) (hok : balloc A a t.length = .ok (true, a')) (ha' : a'.Holds s)
    (hle : (t.length : ℤ) ≤ a'.mlen) :
    (∃ a'', bassign A a b = .ok (true, a'') ∧ a''.Holds t ∧ (t.length : ℤ) < a'.mlen) ∨
      (bassign A a b = .error .outOfBounds ∧ a'.mlen = t.length) := by
  have hpos := List.length_pos_iff.mpr hne
  have hmlen := ha'.mlen
  obtain ⟨rest, hdata⟩ := h.data
  have hcells : cells b.data 0 t.length = .ok (t.map some) := by
    rw [hdata]
    exact cells_append [] _ _ rfl (by rw [List.length_map])
  obtain ⟨old, behind, hsplit, hold⟩ := exists_split a'.data (n := t.length) (by omega)
  have hstore : store a'.data 0 (t.map some) = .ok (t.map some ++ behind) := by
    rw [hsplit]
    exact store_append [] old behind _ rfl (by rw [List.length_map, hold])
  have hrun : bassign A a b = terminate ⟨a'.mlen, t.length, t.map some ++ behind⟩ := by
    rw [bassign, h.slen, if_neg (by omega), if_pos (by omega), hok, ok_bind]
    dsimp only
    rw [if_pos rfl, hcells, ok_bind, hstore, ok_bind]
  have hlen : a'.data.length = t.length + behind.length := by
    rw [hsplit, List.length_append, hold]
  rw [hrun]
  cases behind with
  | nil =>
      rw [List.length_nil] at hlen
      refine .inr ⟨?_, by omega⟩
      rw [terminate, store, if_neg (by
        simp only [List.append_nil, List.length_map, List.length_singleton]
        omega)]
      rfl
  | cons c behind =>
      rw [List.length_cons] at hlen
      obtain ⟨a'', ha'', hholds, -⟩ := @terminate_holds t c behind a'.mlen t.length _ rfl rfl
        (by
          rw [hmlen, hlen, List.length_append, List.length_map, List.length_cons])
        ha'.small
      exact .inl ⟨a'', ha'', hholds, by omega⟩

/-- Memory is short just so that `balloc` gets a block without room for a terminator. -/
def Tight (A : Allocator) (a : Tagbstring) (n : ℤ) : Prop :=
  a.mlen ≤ n ∧ (int (7 * a.mlen) < int (8 * a.slen) ∨ A.malloc (snapUpSize n) = false) ∧
    A.realloc (snapUpSize n) = false ∧ A.realloc n = true

theorem terminate_mlen {b b' : Tagbstring} {ok : Bool} (h : terminate b = .ok (ok, b')) :
    ok = true ∧ b'.mlen = b.mlen := by
  obtain ⟨data, -, heq⟩ := ok_of_bind h
  obtain ⟨rfl, rfl⟩ := Prod.mk.inj (Except.ok.inj heq)
  exact ⟨rfl, rfl⟩

/-- **The tightest block** is got exactly when memory is short in this way. -/
theorem balloc_tight_iff {a a' : Tagbstring} {s : Bytes} {A : Allocator} {n : ℤ} {ok : Bool}
    (ha : a.Holds s) (h0 : 0 < n) (hn : n < 1073741824)
    (h : balloc A a n = .ok (ok, a')) : (ok = true ∧ a'.mlen = n) ↔ Tight A a n := by
  have hvalid := ha.valid
  have hlt := lt_snapUpSize h0.le hn
  rw [balloc, if_neg (by omega)] at h
  dsimp only at h
  rw [Tight]
  split_ifs at h with hle hsnap hstrategy hre htight
  · omega
  · have hmlen := (terminate_mlen h).2
    dsimp only at hmlen
    rw [hre]
    exact iff_of_false (by omega) (by simp)
  · obtain ⟨hok, hmlen⟩ := terminate_mlen h
    exact iff_of_true ⟨hok, hmlen⟩ ⟨hle, hstrategy, by simpa using hre, htight⟩
  · obtain ⟨rfl, -⟩ := Prod.mk.inj (Except.ok.inj h)
    exact iff_of_false (by simp) fun hT => htight hT.2.2.2
  · obtain ⟨_, -, h⟩ := ok_of_bind h
    obtain ⟨_, -, h⟩ := ok_of_bind h
    have hmlen := (terminate_mlen h).2
    dsimp only at hmlen
    exact iff_of_false (by omega) fun hT => hstrategy hT.2.1
  · obtain ⟨-, rfl⟩ := Prod.mk.inj (Except.ok.inj h)
    omega

/-- **`bassign`** assigns the text, or fails and leaves the string as it was, except that it
writes behind its block when the tightest block is all that can be had. -/
theorem bassign_cases {a b : Tagbstring} {s t : Bytes} (ha : a.Holds s) (hb : b.Holds t)
    (A : Allocator) (hsmall : t.length < 1073741824) :
    (bassign A a b = .error .outOfBounds ↔ t ≠ [] ∧ Tight A a t.length) ∧
    (¬ (t ≠ [] ∧ Tight A a t.length) →
      (∃ a', bassign A a b = .ok (true, a') ∧ a'.Holds t) ∨
      (bassign A a b = .ok (false, a) ∧ ¬ A.Ample)) := by
  by_cases hne : t = []
  · subst hne
    obtain ⟨c, behind, hcell⟩ : ∃ c behind, a.data = c :: behind := by
      obtain ⟨rest, hdata⟩ := ha.data
      exact hdata ▸ List.exists_cons_of_ne_nil (by simp)
    obtain ⟨a', ha', hholds, -⟩ := @terminate_holds [] c behind a.mlen 0 a.data hcell rfl
      ha.mlen ha.small
    have hrun : bassign A a b = .ok (true, a') := by
      have hvalid := ha.valid
      rw [bassign, hb.slen, if_neg (by simp), if_neg (by simp), if_neg (by
        have := ha.room
        omega)]
      exact ha'
    refine ⟨?_, fun _ => .inl ⟨a', hrun, hholds⟩⟩
    rw [hrun]
    exact iff_of_false (by simp) (by simp)
  · have hpos := List.length_pos_iff.mpr hne
    rcases @balloc_cases a s ha A t.length (by rw [intMax]; omega) with
      ⟨a', hok, hholds, -, hle, -⟩ | ⟨hfail, hample⟩
    · have htight := balloc_tight_iff ha (by omega) (by omega) hok
      rcases bassign_of_balloc hb hne hok hholds hle with ⟨a'', hrun, hholds', hroom⟩ | ⟨hrun, heq⟩
      · refine ⟨?_, fun _ => .inl ⟨a'', hrun, hholds'⟩⟩
        rw [hrun]
        exact iff_of_false (by simp) fun hT => by have := htight.mpr hT.2; omega
      · have hT := htight.mp ⟨rfl, heq⟩
        exact ⟨iff_of_true hrun ⟨hne, hT⟩, fun hnot => absurd ⟨hne, hT⟩ hnot⟩
    · have htight := balloc_tight_iff ha (by omega) (by omega) hfail
      have hrun : bassign A a b = .ok (false, a) := by
        rw [bassign, hb.slen, if_neg (by omega), if_pos (by omega), hfail]
        rfl
      refine ⟨?_, fun _ => .inr ⟨hrun, fun hA => by have := hample hA; omega⟩⟩
      rw [hrun]
      exact iff_of_false (by simp) fun hT => by simpa using htight.mpr hT.2

/-! ### New strings -/

/-- **`bfromcstr`** makes a string of a C string, if there is memory. -/
theorem bfromcstr_cases {str : Bytes} (A : Allocator) (hsmall : (str.length : ℤ) < intMax) :
    (∃ b, bfromcstr A str = .ok (some b) ∧ b.Holds str) ∨
      (bfromcstr A str = .ok none ∧ ¬ A.Ample) := by
  rw [bfromcstr]
  generalize hj : (str.length : ℤ) + (2 - (if str.length ≠ 0 then 1 else 0)) = j
  have hlt : (str.length : ℤ) < j := by
    rw [← hj]
    split_ifs
    · omega
    · omega
  have hle : j ≤ intMax := by
    rw [intMax] at hsmall ⊢
    rw [← hj]
    split_ifs with hne
    · omega
    · omega
  have hint : int j = j := int_eq (by rw [intMax]; omega) hle
  have hsnap := le_snapUpSize j
  rw [hint]
  split_ifs with hfail
  · refine .inr ⟨rfl, fun hA => ?_⟩
    rw [hA.header, hA.malloc] at hfail
    rcases hfail with h | h | h
    · omega
    · cases h
    · cases h
  · obtain ⟨old, behind, hsplit, hold⟩ :=
      exists_split (alloc (snapUpSize j) : Block UInt8) (n := str.length + 1) (by
        rw [length_alloc]
        omega)
    have hstore : store (alloc (snapUpSize j)) 0 (str.map some ++ [some 0]) =
        .ok (str.map some ++ some 0 :: behind) := by
      rw [hsplit, List.append_cons (str.map some) (some 0) behind]
      refine store_append [] old behind (str.map some ++ [some 0]) rfl ?_
      rw [hold, List.length_append, List.length_map, List.length_singleton]
    refine .inl ⟨⟨snapUpSize j, str.length, str.map some ++ some 0 :: behind⟩, ?_, rfl, ?_,
      snapUpSize_le hle, behind, rfl⟩
    · rw [hstore]
      rfl
    · have hlen := length_store hstore
      rw [length_alloc] at hlen
      dsimp only
      omega

/-- **`bstrcpy`** copies the text, if there is memory. -/
theorem bstrcpy_cases {b : Tagbstring} {s : Bytes} (h : b.Holds s) (A : Allocator) :
    (∃ b', bstrcpy A b = .ok (some b') ∧ b'.Holds s) ∨ (bstrcpy A b = .ok none ∧ ¬ A.Ample) := by
  have hroom := h.room
  have hsmall := h.small
  rw [bstrcpy, h.slen]
  by_cases hheader : A.header = false
  · refine .inr ⟨if_pos (.inr hheader), fun hA => ?_⟩
    rw [hA.header] at hheader
    cases hheader
  rw [if_neg (by rw [not_or]; exact ⟨by omega, hheader⟩)]
  dsimp only
  rw [int_eq (by rw [intMax]; omega) (by omega)]
  generalize hj : (if A.malloc (snapUpSize (s.length + 1)) = true then
    snapUpSize (s.length + 1) else (s.length : ℤ) + 1) = j
  have hle : (s.length : ℤ) + 1 ≤ j ∧ j ≤ intMax := by
    have := le_snapUpSize (s.length + 1)
    have := @snapUpSize_le (s.length + 1) (by omega)
    rw [← hj]
    split_ifs
    · omega
    · omega
  split_ifs with hmalloc
  · obtain ⟨rest, hdata⟩ := h.data
    have hcells : cells b.data 0 s.length = .ok (s.map some) := by
      rw [hdata]
      exact cells_append [] _ _ rfl (by rw [List.length_map])
    obtain ⟨old, c, behind, hsplit, hold⟩ :=
      exists_split_cell (alloc j : Block UInt8) (n := s.length) (by
        rw [length_alloc]
        omega)
    have hstore : store (alloc j) 0 (s.map some) = .ok (s.map some ++ c :: behind) := by
      rw [hsplit]
      exact store_append [] old _ _ rfl (by rw [List.length_map, hold])
    have hterm := store_cell (s.map some) behind c (some 0) (i := s.length) (by
      rw [List.length_map])
    refine .inl ⟨⟨j, s.length, s.map some ++ some 0 :: behind⟩, ?_, rfl, ?_, hle.2, behind, rfl⟩
    · rw [hcells, ok_bind, hstore, ok_bind, hterm]
      rfl
    · have hlen := length_store hterm
      rw [length_store hstore, length_alloc] at hlen
      dsimp only
      omega
  · exact .inr ⟨rfl, fun hA => hmalloc (hA.malloc _)⟩

end Tagbstring

end Yogigen
