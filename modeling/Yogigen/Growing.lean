import Yogigen.Buffers

/-!
# Strings that Grow

The functions of `bstrlib.c` that do not know how long their result will be: `bformat` and
`bassignformat`, which try ever larger buffers until the whole output of `vsnprintf` fits,
and `bread`, which reads a file in pieces. The sizes are of type `int` and may wrap around,
which `balloc` takes for no size.

The output of the conversions and the contents of a file are parameters. `vsnprintf` writes
what fits of its output and returns the whole length, `fread` reads what is left of the
file up to the size that is asked for.

## Main results

* `formatBuffer_cases`: the output in full, whatever its length and that of the format.
* `bassignformat_overruns_iff`: the output is assigned, or the string is as it was, or
  `bassign` has written behind the tightest block.
* `bread_cases`: the file in full.
-/

open Memory

namespace Yogigen

namespace Tagbstring

/-! ### Strings of a given size -/

/-- The loop of `bfromcstrrangealloc`, which halves the distance to the least size. -/
def rangeStep (A : Allocator) (minl i : ℤ) : Except Violation (ℤ ⊕ Option ℤ) :=
  if A.malloc i then .ok (.inr (some i))
  else
    let k := i / 2 + minl / 2
    if i = k ∨ i < minl then .ok (.inr none) else .ok (.inl k)

/-- `bfromcstrrangealloc`; `none` is NULL. -/
def bfromcstrrangealloc (A : Allocator) (minl maxl : ℤ) (str : Bytes) :
    Except Violation (Option Tagbstring) :=
  if maxl < minl ∨ minl < 0 then .ok none
  else
    let j : ℤ := str.length
    let minl := if minl < j + 1 then int (j + 1) else minl
    let maxl := if maxl < minl then minl else maxl
    if A.header then do
      let i ← loop (rangeStep A minl) (maxl.toNat + 1) maxl
      match i with
      | none => return none
      | some i => do
          let data ← store (alloc i) 0 (str.map some ++ [some 0])
          return some ⟨i, j, data⟩
    else .ok none

/-- `bfromcstralloc`. -/
def bfromcstralloc (A : Allocator) (mlen : ℤ) (str : Bytes) :
    Except Violation (Option Tagbstring) :=
  bfromcstrrangealloc A mlen mlen str

/-! ### Formatted output -/

/-- `START_VSNBUFF`. -/
def startVsnbuff : ℤ := 16

/-- `vsnprintf`, whose conversions make `text` of the arguments. -/
def vsnprintf (m : Block UInt8) (size : ℤ) (text : Bytes) :
    Except Violation (ℤ × Block UInt8) := do
  let data ← store m 0 ((text.take (size - 1).toNat).map some ++ [some 0])
  return (text.length, data)

/-- `strlen`. -/
def strlen : Block UInt8 → Except Violation ℤ
  | [] => .error .outOfBounds
  | none :: _ => .error .uninitialised
  | some c :: m =>
      if c = 0 then .ok 0
      else do
        let n ← strlen m
        return n + 1

/-- A turn of the loop of `bformat` and `bassignformat`. -/
def formatTurn (A : Allocator) (text : Bytes) (s : Tagbstring × ℤ) :
    Except Violation ((Tagbstring × ℤ) ⊕ Option Tagbstring) := do
  let (buff, n) := s
  let (r, data) ← vsnprintf buff.data (int (n + 1)) text
  let data ← store data n [some 0]
  let slen ← strlen data
  let buff : Tagbstring := ⟨buff.mlen, slen, data⟩
  if slen < n then return .inr (some buff)
  else do
    let n := if n < r then r else int (n + n)
    let (ok, buff) ← balloc A buff (int (n + 2))
    if ok then return .inl (buff, n) else return .inr none

/-- What `bformat` and `bassignformat` have in common: a buffer with the output. -/
def formatBuffer (A : ℕ → Allocator) (fmt text : Bytes) :
    Except Violation (Option Tagbstring) := do
  let n := int (2 * fmt.length)
  let n := if n < startVsnbuff then startVsnbuff else n
  let buff ← bfromcstralloc (A 0) (int (n + 2)) []
  match buff with
  | some buff =>
      loop (numbered fun i => formatTurn (A i) text) (text.length + 2) (2, buff, n)
  | none => do
      let buff ← bfromcstralloc (A 1) (1 + 2) []
      match buff with
      | some buff =>
          loop (numbered fun i => formatTurn (A i) text) (text.length + 2) (2, buff, 1)
      | none => return none

/-- `bformat`. -/
def bformat (A : ℕ → Allocator) (fmt text : Bytes) : Except Violation (Option Tagbstring) :=
  formatBuffer A fmt text

/-- `bassignformat`. The first allocator is that of the assignment. -/
def bassignformat (A : ℕ → Allocator) (b : Tagbstring) (fmt text : Bytes) : Status :=
  if b.mlen ≤ 0 ∨ b.slen < 0 ∨ b.mlen < b.slen then .ok (false, b)
  else do
    let buff ← formatBuffer (fun i => A (i + 1)) fmt text
    match buff with
    | some buff => bassign (A 0) b buff
    | none => return (false, b)

/-! ### Reading a file -/

/-- `BS_BUFF_SZ`. -/
def bsBuffSz : ℤ := 1024

/-- The variables of the loop in `breada`, with what is left of the file. -/
structure Reading where
  b : Tagbstring
  i : ℤ
  n : ℤ
  file : Bytes

/-- A turn of the loop of `breada`. -/
def Reading.turn (A : Allocator) (s : Reading) : Except Violation (Reading ⊕ Option Reading) := do
  let (ok, b) ← balloc A s.b (int (s.n + 1))
  if ok then do
    let new := s.file.take (s.n - s.i).toNat
    let data ← store b.data s.i (new.map some)
    let i := s.i + new.length
    let s : Reading := ⟨⟨b.mlen, i, data⟩, i, s.n, s.file.drop new.length⟩
    if i < s.n then return .inr (some s)
    else return .inl { s with n := int (s.n + (if s.n < bsBuffSz then s.n else bsBuffSz)) }
  else return .inr none

/-- `breada`. -/
def breada (A : ℕ → Allocator) (b : Tagbstring) (file : Bytes) :
    Except Violation (Option Tagbstring) :=
  if b.mlen ≤ 0 ∨ b.slen < 0 ∨ b.mlen < b.slen then .ok none
  else do
    let s ← loop (numbered fun i => Reading.turn (A i)) (file.length + 1)
      (0, ⟨b, b.slen, int (b.slen + 16), file⟩)
    match s with
    | none => return none
    | some s => do
        let (_, b) ← terminate s.b
        return some b

/-- `bread`; `none` is NULL. -/
def bread (A : ℕ → Allocator) (file : Bytes) : Except Violation (Option Tagbstring) := do
  let buff ← bfromcstr (A 0) []
  match buff with
  | none => return none
  | some buff => breada (fun i => A (i + 1)) buff file

/-! ### Strings of a given size -/

/-- The size that is got may be one less than the least size. -/
theorem rangeStep_spec {A : Allocator} {minl maxl : ℤ} (hpos : 0 ≤ minl) (hle : minl ≤ maxl) :
    ∃ i, loop (rangeStep A minl) (maxl.toNat + 1) maxl = .ok i ∧
      ((i = none ∧ ¬ A.Ample) ∨ ∃ n, i = some n ∧ minl - 1 ≤ n ∧ n ≤ maxl) := by
  refine loop_ends (fun i : ℤ => minl - 1 ≤ i ∧ i ≤ maxl ∧ 0 ≤ i) (fun i => i.toNat)
    (fun i : Option ℤ => (i = none ∧ ¬ A.Ample) ∨ ∃ n, i = some n ∧ minl - 1 ≤ n ∧ n ≤ maxl) ?_
    ⟨by omega, le_rfl, by omega⟩ (by omega)
  rintro i ⟨hlow, hhigh, h0⟩
  rw [rangeStep]
  split_ifs with hmem
  · exact .inr ⟨some i, rfl, .inr ⟨i, rfl, hlow, hhigh⟩⟩
  · dsimp only
    split_ifs with hend
    · exact .inr ⟨none, rfl, .inl ⟨rfl, fun hA => hmem (hA.malloc i)⟩⟩
    · exact .inl ⟨_, rfl, by omega, by omega⟩

/-- An empty string of some size. -/
theorem bfromcstralloc_cases {A : Allocator} {n : ℤ} (hpos : 2 ≤ n) (hn : n ≤ intMax) :
    (∃ b, bfromcstralloc A n [] = .ok (some b) ∧ b.Holds [] ∧ n - 1 ≤ b.mlen) ∨
      (bfromcstralloc A n [] = .ok none ∧ ¬ A.Ample) := by
  rw [bfromcstralloc, bfromcstrrangealloc, if_neg (by omega)]
  simp only [List.length_nil, Nat.cast_zero, zero_add, List.map_nil, List.nil_append,
    if_neg (show ¬ n < 1 by omega), lt_self_iff_false, if_false]
  split_ifs with hheader
  · obtain ⟨i, hi, ⟨rfl, hA⟩ | ⟨m, rfl, hlow, hhigh⟩⟩ :=
      @rangeStep_spec A n n (by omega) le_rfl
    · rw [hi]
      exact .inr ⟨rfl, hA⟩
    · obtain ⟨c, behind, hsplit⟩ := List.exists_cons_of_ne_nil (l := (alloc m : Block UInt8)) (by
        rw [← List.length_pos_iff, length_alloc]
        omega)
      have hstore := store_cell [] behind c (some (0 : UInt8)) (i := 0) rfl
      rw [List.nil_append, ← hsplit] at hstore
      have hlen := length_store hstore
      rw [length_alloc] at hlen
      refine .inl ⟨⟨m, 0, some 0 :: behind⟩, ?_, ⟨rfl, ?_, by dsimp only; omega, behind, rfl⟩, hlow⟩
      · rw [hi, ok_bind]
        dsimp only
        rw [hstore]
        rfl
      · rw [List.nil_append] at hlen
        dsimp only
        omega
  · exact .inr ⟨rfl, fun hA => hheader hA.header⟩

/-! ### Formatted output -/

/-- `strlen` finds the first terminator. -/
theorem strlen_text {t : Bytes} (h : 0 ∉ t) (rest : Block UInt8) :
    strlen (t.map some ++ some 0 :: rest) = .ok t.length := by
  induction t with
  | nil => rw [List.map_nil, List.nil_append, strlen, if_pos rfl]; rfl
  | cons c t ih =>
      obtain ⟨hc, ht⟩ := not_or.mp (List.mem_cons.not.mp h)
      rw [List.map_cons, List.cons_append, strlen, if_neg (Ne.symm hc), ih ht]
      rfl

/-- Another terminator, at that of a text or behind it. -/
theorem store_terminator (t : Bytes) (rest : Block UInt8) {n : ℤ} (hn : t.length ≤ n)
    (hlen : n < (t.map some ++ some 0 :: rest).length) :
    ∃ rest', store (t.map some ++ some 0 :: rest) n [some 0] =
      .ok (t.map some ++ some 0 :: rest') := by
  rw [List.length_append, List.length_map, List.length_cons] at hlen
  by_cases heq : n = t.length
  · exact ⟨rest, store_cell _ _ _ _ (by rw [heq, List.length_map])⟩
  · obtain ⟨front, c, behind, rfl, hfront⟩ := exists_split_cell rest (n := (n - t.length - 1).toNat)
      (by omega)
    refine ⟨front ++ some 0 :: behind, ?_⟩
    have hstore := store_cell (t.map some ++ some 0 :: front) behind c (some 0) (i := n) (by
      rw [List.length_append, List.length_map, List.length_cons]
      omega)
    simpa only [List.append_assoc, List.cons_append] using hstore

/-- What `vsnprintf` and the terminator behind it leave in the buffer. -/
theorem vsnprintf_spec {m : Block UInt8} {n : ℤ} {text : Bytes} (hpos : 0 ≤ n)
    (hlen : n + 1 ≤ m.length) :
    ∃ data rest, vsnprintf m (n + 1) text = .ok (text.length, data) ∧
      store data n [some 0] = .ok ((text.take n.toNat).map some ++ some 0 :: rest) ∧
      ((text.take n.toNat).map some ++ some 0 :: rest).length = m.length := by
  have htake : (text.take n.toNat).length ≤ n := by
    rw [List.length_take]
    omega
  obtain ⟨old, behind, rfl, hold⟩ := exists_split m (n := (text.take n.toNat).length + 1) (by omega)
  have hwrite : store (old ++ behind) 0 ((text.take n.toNat).map some ++ [some 0]) =
      .ok ((text.take n.toNat).map some ++ some 0 :: behind) := by
    rw [List.append_cons (List.map some _) (some 0) behind]
    refine store_append [] old behind ((text.take n.toNat).map some ++ [some 0]) rfl ?_
    rw [hold, List.length_append, List.length_map, List.length_singleton]
  have hsize := length_store hwrite
  obtain ⟨rest, hrest⟩ := store_terminator (text.take n.toNat) behind htake (by omega)
  refine ⟨_, rest, ?_, hrest, by rw [length_store hrest, hsize]⟩
  rw [vsnprintf, add_sub_cancel_right, hwrite]
  rfl

/-- The output is longer than the buffer, or just as long, so that this cannot be told. -/
def formatBound (text : Bytes) (s : Tagbstring × ℤ) : ℕ :=
  if s.2 < text.length then 2 else if s.2 = text.length then 1 else 0

/-- A buffer with the output, or none for lack of memory or of larger integers. -/
def Formatted (ample : Prop) (text : Bytes) (buff : Option Tagbstring) : Prop :=
  (∃ b, buff = some b ∧ b.Holds text) ∨
    (buff = none ∧ (ample → 1073741823 ≤ text.length))

/-- A weaker promise of memory is enough. -/
theorem Formatted.imp {ample plenty : Prop} {text : Bytes} {buff : Option Tagbstring}
    (h : Formatted ample text buff) (hle : plenty → ample) : Formatted plenty text buff :=
  h.imp_right fun ⟨hnone, hlong⟩ => ⟨hnone, fun hplenty => hlong (hle hplenty)⟩

/-- **A turn of the loop**: the output is complete, or the next buffer is larger. -/
theorem formatTurn_spec {A : Allocator} {text : Bytes} {buff : Tagbstring} {n : ℤ}
    (hfree : 0 ∉ text) (hlen : (text.length : ℤ) ≤ intMax) (hmlen : buff.mlen = buff.data.length)
    (hsmall : buff.mlen ≤ intMax) (hpos : 1 ≤ n) (hroom : n + 1 ≤ buff.mlen) :
    (∃ buff' n', formatTurn A text (buff, n) = .ok (.inl (buff', n')) ∧
      buff'.mlen = buff'.data.length ∧ buff'.mlen ≤ intMax ∧ 1 ≤ n' ∧ n' + 1 ≤ buff'.mlen ∧
      formatBound text (buff', n') < formatBound text (buff, n)) ∨
    ∃ r, formatTurn A text (buff, n) = .ok (.inr r) ∧ Formatted A.Ample text r := by
  obtain ⟨data, rest, hprint, hterm, hsize⟩ :=
    @vsnprintf_spec buff.data n text (by omega) (by omega)
  have htake : (0 : UInt8) ∉ text.take n.toNat := fun h => hfree (List.mem_of_mem_take h)
  have hholds : (⟨buff.mlen, (text.take n.toNat).length,
      (text.take n.toNat).map some ++ some 0 :: rest⟩ : Tagbstring).Holds (text.take n.toNat) :=
    ⟨rfl, by dsimp only; omega, hsmall, rest, rfl⟩
  rw [formatTurn]
  dsimp only
  rw [int_eq (x := n + 1) (by rw [intMax]; omega) (by omega), hprint, ok_bind]
  dsimp only
  rw [hterm, ok_bind, strlen_text htake, ok_bind]
  by_cases hdone : (text.length : ℤ) < n
  · have hall : text.take n.toNat = text := List.take_of_length_le (by omega)
    rw [hall] at hholds ⊢
    rw [if_pos hdone]
    exact .inr ⟨_, rfl, .inl ⟨_, rfl, hholds⟩⟩
  · have hcount : ((text.take n.toNat).length : ℤ) = n := by
      rw [List.length_take]
      omega
    rw [if_neg (by omega)]
    generalize hnext : (if n < (text.length : ℤ) then (text.length : ℤ) else int (n + n)) = n'
    -- the sum of the lengths may have wrapped around
    have hwrap : (n' = text.length ∧ n < text.length) ∨
        (n' = 2 * n ∧ n = text.length ∧ 2 * n ≤ intMax) ∨
        (n' ≤ -2 ∧ -intMax ≤ n' + 2 ∧ n = text.length ∧ intMax < 2 * n) := by
      rw [← hnext]
      split_ifs with hless
      · exact .inl ⟨rfl, hless⟩
      · have heq : n = text.length := by omega
        by_cases hover : n + n ≤ intMax
        · rw [int_eq (by rw [intMax]; omega) hover]
          exact .inr (.inl ⟨by omega, heq, by omega⟩)
        · rw [intMax] at hlen hover ⊢
          rw [int_wrap (by rw [intMax]; omega) (by omega)]
          exact .inr (.inr ⟨by omega, by omega, heq, by omega⟩)
    have hsum : n' + 2 ≤ intMax ∧ int (n' + 2) = n' + 2 ∨
        intMax < n' + 2 ∧ int (n' + 2) < 0 := by
      rw [intMax] at hwrap hlen ⊢
      by_cases hover : n' + 2 ≤ 2147483647
      · have hint : int (n' + 2) = n' + 2 :=
          int_eq (by rw [intMax]; omega) (by rw [intMax]; omega)
        exact .inl ⟨hover, hint⟩
      · exact .inr ⟨by omega, int_neg (by rw [intMax]; omega) (by omega)⟩
    rcases balloc_cases hholds A (int_le (n' + 2)) with
      ⟨b', hok, hholds', hget, hle, -⟩ | ⟨hfail, hample⟩
    · rw [hok, ok_bind]
      refine .inl ⟨b', n', rfl, hholds'.mlen, hholds'.small, by omega, by omega, ?_⟩
      rw [formatBound, formatBound]
      dsimp only
      split_ifs <;> omega
    · rw [hfail, ok_bind]
      refine .inr ⟨none, rfl, .inr ⟨rfl, fun hA => ?_⟩⟩
      have hnone := hample hA
      rw [intMax] at hsum hwrap
      omega

/-- The loop, from a buffer of some size. -/
theorem formatLoop_spec {A : ℕ → Allocator} {text : Bytes} {buff : Tagbstring} {n : ℤ} {k : ℕ}
    (hfree : 0 ∉ text) (hlen : (text.length : ℤ) ≤ intMax) (hmlen : buff.mlen = buff.data.length)
    (hsmall : buff.mlen ≤ intMax) (hpos : 1 ≤ n) (hroom : n + 1 ≤ buff.mlen) :
    ∃ r, loop (numbered fun i => formatTurn (A i) text) (text.length + 2) (k, buff, n) = .ok r ∧
      Formatted (Plenty A) text r := by
  refine numbered_ends
    (fun s : Tagbstring × ℤ => s.1.mlen = s.1.data.length ∧ s.1.mlen ≤ intMax ∧ 1 ≤ s.2 ∧
      s.2 + 1 ≤ s.1.mlen)
    (formatBound text) (Formatted (Plenty A) text) ?_ ⟨hmlen, hsmall, hpos, hroom⟩ ?_
  · rintro i ⟨buff, n⟩ ⟨hmlen, hsmall, hpos, hroom⟩
    rcases formatTurn_spec hfree hlen hmlen hsmall hpos hroom with
      ⟨buff', n', hturn, h1, h2, h3, h4, hless⟩ | ⟨r, hturn, hr⟩
    · exact .inl ⟨(buff', n'), hturn, ⟨h1, h2, h3, h4⟩, hless⟩
    · exact .inr ⟨r, hturn, hr.imp fun hA => hA i⟩
  · rw [formatBound]
    split_ifs
    · omega
    · omega
    · omega

/-- **The whole output**, for every length of the output and of the format: the search for a
size of the buffer ends, and writes nothing outside of it. -/
theorem formatBuffer_cases {A : ℕ → Allocator} {fmt text : Bytes} (hfree : 0 ∉ text)
    (hlen : (text.length : ℤ) ≤ intMax) :
    ∃ r, formatBuffer A fmt text = .ok r ∧ Formatted (Plenty A) text r := by
  rw [formatBuffer]
  generalize hn : (if int (2 * fmt.length) < startVsnbuff then startVsnbuff
    else int (2 * fmt.length)) = n
  have hrange : 16 ≤ n ∧ n ≤ intMax := by
    have := int_le (2 * fmt.length)
    rw [startVsnbuff] at hn
    rw [intMax] at this ⊢
    rw [← hn]
    split_ifs
    · omega
    · omega
  -- the smallest buffer
  have hone : ∃ r, (do
      let buff ← bfromcstralloc (A 1) (1 + 2) []
      match buff with
      | some buff =>
          loop (numbered fun i => formatTurn (A i) text) (text.length + 2) (2, buff, 1)
      | none => return none) = .ok r ∧ Formatted (Plenty A) text r := by
    rcases @bfromcstralloc_cases (A 1) (1 + 2) (by omega) (by rw [intMax]; omega) with
      ⟨b, hb, hholds, hmlen⟩ | ⟨hnone, hA⟩
    · rw [hb, ok_bind]
      exact formatLoop_spec hfree hlen hholds.mlen hholds.small le_rfl (by omega)
    · rw [hnone, ok_bind]
      exact ⟨none, rfl, .inr ⟨rfl, fun h => absurd (h 1) hA⟩⟩
  by_cases hsize : n + 2 ≤ intMax
  · rw [int_eq (x := n + 2) (by rw [intMax]; omega) hsize]
    rcases @bfromcstralloc_cases (A 0) (n + 2) (by omega) hsize with
      ⟨b, hb, hholds, hmlen⟩ | ⟨hnone, -⟩
    · rw [hb, ok_bind]
      exact formatLoop_spec hfree hlen hholds.mlen hholds.small (by omega) (by omega)
    · rw [hnone, ok_bind]
      exact hone
  · have hneg : int (n + 2) < 0 := int_neg (by omega) (by rw [intMax] at hrange; omega)
    have hnone : bfromcstralloc (A 0) (int (n + 2)) [] = .ok none := by
      rw [bfromcstralloc, bfromcstrrangealloc, if_pos (.inr hneg)]
    rw [hnone, ok_bind]
    exact hone

/-- `bassignformat` is `bassign` of the output, if there is memory for the output. -/
theorem bassignformat_cases {A : ℕ → Allocator} {b : Tagbstring} {s fmt text : Bytes}
    (hb : b.Holds s) (hfree : 0 ∉ text) (hlen : text.length < 1073741823) :
    (∃ buff, formatBuffer (fun i => A (i + 1)) fmt text = .ok (some buff) ∧ buff.Holds text ∧
      bassignformat A b fmt text = bassign (A 0) b buff) ∨
    (formatBuffer (fun i => A (i + 1)) fmt text = .ok none ∧
      bassignformat A b fmt text = .ok (false, b) ∧ ¬ Plenty A) := by
  have hvalid := hb.valid
  obtain ⟨r, hr, hformatted⟩ := @formatBuffer_cases (fun i => A (i + 1)) fmt text hfree
    (by have := intMax_eq; omega)
  rw [bassignformat, if_neg (by omega), hr, ok_bind]
  rcases hformatted with ⟨buff, rfl, hbuff⟩ | ⟨rfl, hA⟩
  · exact .inl ⟨buff, rfl, hbuff, rfl⟩
  · refine .inr ⟨rfl, rfl, fun h => ?_⟩
    have := hA fun i => h (i + 1)
    omega

/-- **When `bassignformat` overruns**: the output is not empty, its buffer was had, and the
tightest block is all that can be had for the string. Otherwise the output is assigned, or
memory is short and the string is as it was. -/
theorem bassignformat_overruns_iff {A : ℕ → Allocator} {b : Tagbstring} {s fmt text : Bytes}
    (hb : b.Holds s) (hfree : 0 ∉ text) (hlen : text.length < 1073741823) :
    (bassignformat A b fmt text = .error .outOfBounds ↔
      (∃ buff, formatBuffer (fun i => A (i + 1)) fmt text = .ok (some buff)) ∧ text ≠ [] ∧
        Tight (A 0) b text.length) ∧
    (¬ ((∃ buff, formatBuffer (fun i => A (i + 1)) fmt text = .ok (some buff)) ∧ text ≠ [] ∧
        Tight (A 0) b text.length) →
      (∃ b', bassignformat A b fmt text = .ok (true, b') ∧ b'.Holds text) ∨
        (bassignformat A b fmt text = .ok (false, b) ∧ ¬ Plenty A)) := by
  rcases @bassignformat_cases A b s fmt text hb hfree hlen with
    ⟨buff, hr, hbuff, heq⟩ | ⟨hr, heq, hA⟩
  · obtain ⟨hiff, hcases⟩ := bassign_cases hb hbuff (A 0) (by omega)
    rw [heq]
    refine ⟨hiff.trans ⟨fun h => ⟨⟨buff, hr⟩, h⟩, And.right⟩, fun hnot => ?_⟩
    refine (hcases fun h => hnot ⟨⟨buff, hr⟩, h⟩).imp_right ?_
    rintro ⟨hfail, hA⟩
    exact ⟨hfail, fun h => hA (h 0)⟩
  · rw [heq, hr]
    refine ⟨iff_of_false (by simp) ?_, fun _ => .inr ⟨rfl, hA⟩⟩
    rintro ⟨⟨buff, hbuff⟩, -⟩
    cases hbuff

/-- Nine bytes for a string of eight, once the buffer has been had: sixteen are not to be had
any more, and nine are no room for the terminator. -/
theorem bassignformat_overruns_iff_nine :
    bassignformat
      (fun i => if i = 0 then ⟨true, fun _ => false, fun n => n = 9⟩
        else ⟨true, fun _ => true, fun _ => true⟩)
      (stored (List.replicate 8 97)) [37, 115] (List.replicate 9 98) = .error .outOfBounds :=
  (bassignformat_overruns_iff (stored_holds (by decide)) (by decide) (by decide)).1.mpr
    ⟨⟨_, rfl⟩, by decide, by decide, .inl (by decide), by decide, by decide⟩

/-! ### Reading a file -/

/-- The bytes that have been read, and those that are left. -/
structure Reading.At (s : Reading) (file done : Bytes) : Prop where
  holds : s.b.Filled done
  i : s.i = done.length
  file : file = done ++ s.file

/-- What the loop ends with: the whole file, or nothing. -/
def Read (ample : Prop) (file : Bytes) (r : Option Reading) : Prop :=
  (∃ s, r = some s ∧ s.b.Filled file) ∨
    (r = none ∧ (ample → 2147482623 ≤ file.length))

/-- A weaker promise of memory is enough. -/
theorem Read.imp {ample plenty : Prop} {file : Bytes} {r : Option Reading}
    (h : Read ample file r) (hle : plenty → ample) : Read plenty file r :=
  h.imp_right fun ⟨hnone, hlong⟩ => ⟨hnone, fun hplenty => hlong (hle hplenty)⟩

/-- The bytes of one read go behind the others. -/
theorem Filled.append {b : Tagbstring} {done new : Bytes} (h : b.Filled done)
    (hroom : (done ++ new).length < b.mlen) :
    ∃ data, store b.data done.length (new.map some) = .ok data ∧
      Filled ⟨b.mlen, (done ++ new).length, data⟩ (done ++ new) := by
  obtain ⟨c, rest, hdata⟩ := h.data
  have hmlen := h.mlen
  rw [hdata, List.length_append, List.length_map] at hmlen
  rw [List.length_append] at hroom
  obtain ⟨old, d, behind, hsplit, hold⟩ :=
    exists_split_cell (c :: rest) (n := new.length) (by omega)
  have hstore := store_append (done.map some) old (d :: behind) (new.map some)
    (i := done.length) (by rw [List.length_map]) (by rw [List.length_map, hold])
  rw [← hsplit, ← hdata] at hstore
  refine ⟨_, hstore, rfl, ?_, h.small, d, behind, by rw [List.map_append, List.append_assoc]⟩
  have := length_store hstore
  have := h.mlen
  dsimp only
  omega

/-- The next size, which has wrapped around only if nearly all integers are used up. -/
def NextSize (i n : ℤ) : Prop :=
  (i < n ∧ n ≤ i + 1024 ∧ n ≤ intMax) ∨ (n < 0 ∧ -intMax ≤ n + 1 ∧ 2147482623 ≤ i)

/-- The next size is larger by at most one piece, or has wrapped around. -/
theorem nextSize_int {i k : ℤ} (h0 : 0 ≤ i) (hi : i ≤ intMax) (hpos : 0 < k) (hk : k ≤ 1024) :
    NextSize i (int (i + k)) := by
  have hmax := intMax_eq
  by_cases hover : i + k ≤ intMax
  · rw [int_eq (by omega) hover]
    exact .inl ⟨by omega, by omega, hover⟩
  · rw [int_wrap (by omega) (by omega)]
    exact .inr ⟨by omega, by omega, by omega⟩

/-- **A turn of the loop of `breada`.** -/
theorem Reading.turn_spec {A : Allocator} {s : Reading} {file done : Bytes} (h : s.At file done)
    (hnext : NextSize s.i s.n) :
    (∃ s' done', s.turn A = .ok (.inl s') ∧ s'.At file done' ∧ NextSize s'.i s'.n ∧
      s'.file.length < s.file.length) ∨
    ∃ r, s.turn A = .ok (.inr r) ∧ Read A.Ample file r := by
  have hmax := intMax_eq
  have hi := h.i
  have hlen := congrArg List.length h.file
  rw [List.length_append] at hlen
  have hget : int (s.n + 1) ≤ 0 ∧ 2147482623 ≤ s.i ∨
      int (s.n + 1) = s.n + 1 ∧ s.i < s.n ∧ s.n ≤ s.i + 1024 ∧ s.n ≤ intMax := by
    rcases hnext with ⟨h1, h2, h3⟩ | ⟨h1, h2, h3⟩
    · by_cases hover : s.n + 1 ≤ intMax
      · exact .inr ⟨int_eq (by omega) hover, h1, h2, h3⟩
      · have := @int_neg (s.n + 1) (by omega) (by omega)
        exact .inl ⟨by omega, by omega⟩
    · rw [int_eq (by omega) (by omega)]
      exact .inl ⟨by omega, h3⟩
  rw [Reading.turn]
  rcases balloc_filled h.holds A (int_le (s.n + 1)) with
    ⟨b, hok, hb, hpos, hle, -⟩ | ⟨hfail, hample⟩
  · obtain ⟨hneg, -⟩ | ⟨hsum, hlt, hstep, hn⟩ := hget
    · omega
    have hfilled : b.Filled done := by
      rcases hb with rfl | hb
      · exact h.holds
      · exact hb.filled
    rw [hok, ok_bind]
    dsimp only
    rw [if_pos rfl]
    generalize hnew : s.file.take (s.n - s.i).toNat = new
    have hcount : new.length = min (s.n - s.i).toNat s.file.length := by
      rw [← hnew, List.length_take]
    have hread : s.file = new ++ s.file.drop new.length :=
      (List.prefix_iff_eq_append.mp (hnew ▸ List.take_prefix _ _)).symm
    obtain ⟨data, hstore, hfilled'⟩ := @Filled.append b done new hfilled (by
      rw [List.length_append]
      omega)
    have hsum' : s.i + new.length = ((done ++ new).length : ℕ) := by
      rw [hi, List.length_append, Nat.cast_add]
    rw [hsum', hi, hstore, ok_bind]
    by_cases hend : ((done ++ new).length : ℤ) < s.n
    · rw [if_pos hend]
      have hall : file = done ++ new := by
        rw [h.file, hread, List.drop_of_length_le (by omega), List.append_nil]
      exact .inr ⟨_, rfl, .inl ⟨_, rfl, by rw [hall]; exact hfilled'⟩⟩
    · rw [if_neg hend]
      refine .inl ⟨_, done ++ new, rfl, ⟨hfilled', rfl, ?_⟩, ?_, ?_⟩
      · rw [List.append_assoc, ← hread]
        exact h.file
      · have hlast : s.n = ((done ++ new).length : ℕ) := by omega
        dsimp only
        rw [← hlast]
        refine nextSize_int (by omega) hn ?_ ?_
        · rw [bsBuffSz]
          split_ifs
          · omega
          · omega
        · rw [bsBuffSz]
          split_ifs
          · omega
          · omega
      · rw [List.length_drop]
        omega
  · rw [hfail, ok_bind]
    refine .inr ⟨none, rfl, .inr ⟨rfl, fun hA => ?_⟩⟩
    have := hample hA
    omega

/-- **`breada`** appends the whole file. -/
theorem breada_cases {A : ℕ → Allocator} {b : Tagbstring} {s file : Bytes} (hb : b.Holds s) :
    (∃ b', breada A b file = .ok (some b') ∧ b'.Holds (s ++ file)) ∨
    (breada A b file = .ok none ∧ (Plenty A → 2147482623 ≤ (s ++ file).length)) := by
  have hvalid := hb.valid
  have hroom := hb.room
  have hsmall := hb.small
  have hnext : NextSize b.slen (int (b.slen + 16)) :=
    nextSize_int (by omega) (by omega) (by omega) (by omega)
  rw [breada, if_neg (by omega)]
  have hloop : ∃ r, loop (numbered fun i => Reading.turn (A i)) (file.length + 1)
      (0, ⟨b, b.slen, int (b.slen + 16), file⟩) = .ok r ∧ Read (Plenty A) (s ++ file) r := by
    refine numbered_ends (fun s' : Reading => ∃ done, s'.At (s ++ file) done ∧ NextSize s'.i s'.n)
      (fun s' => s'.file.length) (Read (Plenty A) (s ++ file)) ?_
      ⟨s, ⟨hb.filled, hb.slen, rfl⟩, hnext⟩ (Nat.lt_succ_self _)
    rintro i s' ⟨done, hat, hnext⟩
    rcases Reading.turn_spec hat hnext with
      ⟨s'', done', hturn, hat', hnext', hless⟩ | ⟨r, hturn, hr⟩
    · exact .inl ⟨s'', hturn, ⟨done', hat', hnext'⟩, hless⟩
    · exact .inr ⟨r, hturn, hr.imp fun hA => hA i⟩
  obtain ⟨r, hrun, hread⟩ := hloop
  rw [hrun, ok_bind]
  rcases hread with ⟨s', rfl, hfilled⟩ | ⟨rfl, hA⟩
  · obtain ⟨c, rest, hdata⟩ := hfilled.data
    obtain ⟨b', hb', hholds, -⟩ := @terminate_holds (s ++ file) c rest s'.b.mlen s'.b.slen
      s'.b.data hdata hfilled.slen hfilled.mlen hfilled.small
    refine .inl ⟨b', ?_, hholds⟩
    dsimp only
    rw [hb', ok_bind]
    rfl
  · exact .inr ⟨rfl, hA⟩

/-- **`bread`** reads the whole file, in pieces, if there is memory. -/
theorem bread_cases (A : ℕ → Allocator) (file : Bytes) :
    (∃ b, bread A file = .ok (some b) ∧ b.Holds file) ∨
    (bread A file = .ok none ∧ (Plenty A → 2147482623 ≤ file.length)) := by
  rw [bread]
  rcases @bfromcstr_cases [] (A 0) (by decide) with ⟨b, hb, hholds⟩ | ⟨hnone, hA⟩
  · rw [hb, ok_bind]
    refine (breada_cases hholds).imp_right ?_
    rintro ⟨hfail, hlong⟩
    exact ⟨hfail, fun h => hlong fun i => h (i + 1)⟩
  · rw [hnone, ok_bind]
    exact .inr ⟨rfl, fun h => absurd (h 0) hA⟩

end Tagbstring

end Yogigen
