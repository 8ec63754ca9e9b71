import Yogigen.Printf
import Mathlib.Data.List.Infix

/-!
# Byte Strings (`bstrlib.c`)

The operations of the string library that the program uses, on the bytes of a bstring
(`slen` of them). Positions are C `int`s: searches return `-1` when nothing is found, and
the result of a search goes straight into the next operation.

Capacities (`mlen`) are kept apart from the bytes: only the decode buffer of the
permalink handler depends on one.

## Main results

* `bstrchr_append`: the first occurrence of a byte.
* `bstrrchrp_cases`: what a backward search finds.
* `bdelete_append`, `binsert_append`: editing in the middle of a string.
-/

open Printf

namespace Yogigen

/-- The bytes of a C string or bstring, without the terminator. -/
abbrev Bytes := List UInt8

/-! ### Characters, in the C locale -/

/-- The decimal digits. -/
def isdigit (c : UInt8) : Bool :=
  decide (48 ≤ c ∧ c ≤ 57)

/-- The hexadecimal digits. -/
def isxdigit (c : UInt8) : Bool :=
  Numeral.isHexDigit c

/-- The lower-case letters. -/
def islower (c : UInt8) : Bool :=
  decide (97 ≤ c ∧ c ≤ 122)

/-- Capital letters for the lower-case ones. -/
def toupper (c : UInt8) : UInt8 :=
  if islower c then c - 32 else c

/-- Lower-case letters for the capital ones. -/
def tolower (c : UInt8) : UInt8 :=
  if 65 ≤ c ∧ c ≤ 90 then c + 32 else c

/-! ### Integers and capacities -/

/-- An `int` expression wraps around. -/
def int (x : ℤ) : ℤ :=
  Int.bmod x 4294967296

/-- `INT_MAX`. -/
def intMax : ℤ := 2147483647

theorem intMax_eq : intMax = 2147483647 := rfl

/-- Sums that fit are what they are. -/
theorem int_eq {x : ℤ} (hlow : -intMax ≤ x) (hhigh : x ≤ intMax) : int x = x := by
  rw [intMax] at hlow hhigh
  rw [int, Int.bmod_def]
  split_ifs
  · omega
  · omega

/-- A sum that is too large wraps around once. -/
theorem int_wrap {x : ℤ} (hlow : intMax < x) (hhigh : x < 4294967296) :
    int x = x - 4294967296 := by
  rw [intMax] at hlow
  rw [int, Int.bmod_def]
  split_ifs
  · omega
  · omega

/-- So it is negative. -/
theorem int_neg {x : ℤ} (hlow : intMax < x) (hhigh : x < 4294967296) : int x < 0 := by
  rw [int_wrap hlow hhigh]
  omega

/-- The bits of a number, and all the bits below them. -/
def spread (j : UInt32) : UInt32 :=
  let j := j ||| (j >>> 1)
  let j := j ||| (j >>> 2)
  let j := j ||| (j >>> 4)
  let j := j ||| (j >>> 8)
  j ||| (j >>> 16)

/-- `snapUpSize`: at least 8, else the least power of two greater than `i`, on 32 bits. -/
def snapUpSize (i : ℤ) : ℤ :=
  if i < 8 then 8
  else
    let j := int ((spread (UInt32.ofNat i.toNat)).toNat + 1)
    if i ≤ j then j else i

/-- The capacity `bstrcpy` gives a copy of a string of length `slen`. -/
def bstrcpyMlen (slen : ℕ) : ℕ :=
  (snapUpSize (slen + 1)).toNat

/-- The capacity after `balloc (b, olen)`. -/
def ballocMlen (mlen olen : ℕ) : ℕ :=
  if olen = 0 then mlen
  else if mlen ≤ olen then
    if (snapUpSize olen).toNat ≤ mlen then mlen else (snapUpSize olen).toNat
  else mlen

/-- The snapped size is not smaller, even where the sum has wrapped around. -/
theorem le_snapUpSize (i : ℤ) : i ≤ snapUpSize i := by
  rw [snapUpSize]
  split_ifs with h
  · omega
  · dsimp only
    split_ifs with hj
    · exact hj
    · exact le_rfl

/-- `balloc` does not make the capacity smaller. -/
theorem le_ballocMlen (mlen olen : ℕ) : mlen ≤ ballocMlen mlen olen := by
  rw [ballocMlen]
  split_ifs with h0 h1 h2
  · exact le_rfl
  · exact le_rfl
  · omega
  · exact le_rfl

/-! ### Searching -/

/-- `bstrchrp`: the first `c` at or after `pos`. -/
def bstrchrp (b : Bytes) (c : UInt8) (pos : ℤ) : ℤ :=
  if (b.length : ℤ) ≤ pos ∨ pos < 0 then -1
  else
    match (b.drop pos.toNat).idxOf? c with
    | some i => pos + i
    | none => -1

/-- `bstrchr`. -/
def bstrchr (b : Bytes) (c : UInt8) : ℤ :=
  bstrchrp b c 0

/-- The loop of `bstrrchrp`, down from index `i`. -/
def lastAt (b : Bytes) (c : UInt8) : ℕ → ℤ
  | 0 => if b[0]? = some c then 0 else -1
  | i + 1 => if b[i + 1]? = some c then ((i + 1 : ℕ) : ℤ) else lastAt b c i

/-- `bstrrchrp`: the last `c` at or before `pos`. -/
def bstrrchrp (b : Bytes) (c : UInt8) (pos : ℤ) : ℤ :=
  if (b.length : ℤ) ≤ pos ∨ pos < 0 then -1 else lastAt b c pos.toNat

/-- `bstrrchr`. -/
def bstrrchr (b : Bytes) (c : UInt8) : ℤ :=
  bstrrchrp b c (b.length - 1)

/-! ### Editing -/

/-- `bdelete`: remove `len` bytes at `pos`, clamped to the string. -/
def bdelete (b : Bytes) (pos len : ℤ) : Bytes :=
  let len := if pos < 0 then len + pos else len
  let pos := if pos < 0 then 0 else pos
  if 0 < len then b.take pos.toNat ++ b.drop (pos + len).toNat else b

/-- `binsert`: a position past the end is filled up to, a negative one is refused. -/
def binsert (b : Bytes) (pos : ℤ) (blk : Bytes) (fill : UInt8) : Bytes :=
  if pos < 0 then b
  else
    b.take pos.toNat ++ List.replicate (pos.toNat - b.length) fill ++ blk ++ b.drop pos.toNat

/-- `bfromcstr`. -/
def bfromcstr (s : Bytes) : Bytes :=
  cstr s

/-- The loop of `findreplaceengine`, to the end of the string: the bytes of an occurrence
are skipped. -/
def replaceFrom (find repl : Bytes) : ℕ → Bytes → Bytes
  | _, [] => []
  | skip + 1, _ :: b => replaceFrom find repl skip b
  | 0, c :: b =>
      if find.isPrefixOf (c :: b) then repl ++ replaceFrom find repl (find.length - 1) b
      else c :: replaceFrom find repl 0 b

/-- `bfindreplace`: an empty string to find and a negative position are refused. -/
def bfindreplace (b find repl : Bytes) (pos : ℤ) : Bytes :=
  if pos < 0 ∨ find = [] then b
  else b.take pos.toNat ++ replaceFrom find repl 0 (b.drop pos.toNat)

/-! ### Facts about searching and editing -/

/-- The first occurrence of a byte splits the string before it. -/
theorem bstrchr_append {t u : Bytes} {c : UInt8} (h : c ∉ t) :
    bstrchr (t ++ c :: u) c = t.length := by
  have hidx : (t ++ c :: u).idxOf? c = some t.length := by
    rw [List.idxOf?, List.findIdx?_append]
    have hnone : t.findIdx? (· == c) = none := by
      rw [List.findIdx?_eq_none_iff]
      intro d hd
      exact beq_eq_false_iff_ne.mpr fun he => h (he ▸ hd)
    simp [hnone, List.findIdx?_cons]
  have hlen : ¬ (((t ++ c :: u).length : ℤ) ≤ 0 ∨ (0 : ℤ) < 0) := by
    simp only [List.length_append, List.length_cons]
    omega
  rw [bstrchr, bstrchrp, if_neg hlen, Int.toNat_zero, List.drop_zero, hidx]
  exact Int.zero_add _

/-- A string can be split before the first occurrence of a byte in one way only. -/
theorem split_unique {t t' u u' : Bytes} {c : UInt8} (h : c ∉ t) (h' : c ∉ t')
    (heq : t ++ c :: u = t' ++ c :: u') : t = t' ∧ u = u' := by
  have hlen : (t.length : ℤ) = t'.length := by
    rw [← bstrchr_append h (u := u), heq, bstrchr_append h']
  obtain ⟨rfl, hcons⟩ := List.append_inj heq (by omega)
  exact ⟨rfl, (List.cons.inj hcons).2⟩

/-- The backward loop stops at the last occurrence. -/
theorem lastAt_cases (b : Bytes) (c : UInt8) (i : ℕ) :
    (lastAt b c i = -1 ∧ ∀ m ≤ i, b[m]? ≠ some c) ∨
      ∃ k ≤ i, lastAt b c i = k ∧ b[k]? = some c ∧ ∀ m ≤ i, k < m → b[m]? ≠ some c := by
  induction i with
  | zero =>
      rw [lastAt]
      split_ifs with h
      · exact .inr ⟨0, le_rfl, rfl, h, fun m hm hlt => by omega⟩
      · refine .inl ⟨rfl, fun m hm => ?_⟩
        obtain rfl := Nat.le_zero.mp hm
        exact h
  | succ i ih =>
      rw [lastAt]
      split_ifs with h
      · exact .inr ⟨i + 1, le_rfl, rfl, h, fun m hm hlt => by omega⟩
      · have hlast : ∀ m, m ≤ i + 1 → ¬ m ≤ i → b[m]? ≠ some c := by
          intro m hm hm'
          obtain rfl : m = i + 1 := by omega
          exact h
        rcases ih with ⟨heq, hnone⟩ | ⟨k, hk, heq, hc, hnone⟩
        · refine .inl ⟨heq, fun m hm => ?_⟩
          by_cases hm' : m ≤ i
          · exact hnone m hm'
          · exact hlast m hm hm'
        · refine .inr ⟨k, by omega, heq, hc, fun m hm hlt => ?_⟩
          by_cases hm' : m ≤ i
          · exact hnone m hm' hlt
          · exact hlast m hm hm'

/-- **A backward search** within a string finds the last occurrence up to its start. -/
theorem bstrrchrp_cases (b : Bytes) (c : UInt8) {pos : ℤ} (h : pos < b.length) :
    (bstrrchrp b c pos < 0 ∧ ∀ m : ℕ, m ≤ pos → b[m]? ≠ some c) ∨
      ∃ k : ℕ, bstrrchrp b c pos = k ∧ k ≤ pos ∧ b[k]? = some c ∧
        ∀ m : ℕ, m ≤ pos → k < m → b[m]? ≠ some c := by
  rw [bstrrchrp]
  by_cases hneg : pos < 0
  · rw [if_pos (.inr hneg)]
    exact .inl ⟨by omega, fun m hm => by omega⟩
  · rw [if_neg (by omega)]
    rcases lastAt_cases b c pos.toNat with ⟨heq, hnone⟩ | ⟨k, hk, heq, hc, hnone⟩
    · exact .inl ⟨by omega, fun m hm => hnone m (by omega)⟩
    · exact .inr ⟨k, heq, by omega, hc, fun m hm hlt => hnone m (by omega) hlt⟩

/-- A deletion adds no bytes. -/
theorem mem_of_mem_bdelete {b : Bytes} {pos len : ℤ} {c : UInt8} (h : c ∈ bdelete b pos len) :
    c ∈ b := by
  have hparts : ∀ m n : ℕ, c ∈ b.take m ++ b.drop n → c ∈ b := fun m n hmem =>
    (List.mem_append.mp hmem).elim List.mem_of_mem_take List.mem_of_mem_drop
  rw [bdelete] at h
  split_ifs at h
  · exact hparts _ _ h
  · exact h
  · exact hparts _ _ h
  · exact h

/-- An insertion adds the inserted bytes and the filler. -/
theorem mem_of_mem_binsert {b blk : Bytes} {pos : ℤ} {fill c : UInt8}
    (h : c ∈ binsert b pos blk fill) : c ∈ b ∨ c ∈ blk ∨ c = fill := by
  rw [binsert] at h
  split_ifs at h
  · exact .inl h
  · rcases List.mem_append.mp h with h | h
    · rcases List.mem_append.mp h with h | h
      · rcases List.mem_append.mp h with h | h
        · exact .inl (List.mem_of_mem_take h)
        · exact .inr (.inr (List.eq_of_mem_replicate h))
      · exact .inr (.inl h)
    · exact .inl (List.mem_of_mem_drop h)

/-- An insertion at the start. -/
theorem binsert_zero (b blk : Bytes) (fill : UInt8) : binsert b 0 blk fill = blk ++ b := by
  simp [binsert]

/-- Deleting in the middle of a string. -/
theorem bdelete_append (t v u : Bytes) (hv : v ≠ []) :
    bdelete (t ++ (v ++ u)) t.length v.length = t ++ u := by
  have hpos : ¬ ((t.length : ℤ) < 0) := by omega
  have hlen : (0 : ℤ) < v.length := by
    have := List.length_pos_iff.mpr hv
    omega
  have hsum : ((t.length : ℤ) + v.length).toNat = (t ++ v).length := by
    rw [List.length_append]
    omega
  rw [bdelete]
  simp only [if_neg hpos, if_pos hlen, Int.toNat_natCast, List.take_left']
  rw [hsum, ← List.append_assoc, List.drop_left]

/-- Inserting in the middle of a string. -/
theorem binsert_append (t blk u : Bytes) (fill : UInt8) :
    binsert (t ++ u) t.length blk fill = t ++ blk ++ u := by
  have hpos : ¬ ((t.length : ℤ) < 0) := by omega
  have hfill : t.length - (t ++ u).length = 0 := by
    rw [List.length_append]
    omega
  rw [binsert, if_neg hpos]
  simp only [Int.toNat_natCast, hfill, List.replicate_zero, List.append_nil, List.take_left',
    List.drop_left']

end Yogigen
