import Yogigen.Buffers
import Yogigen.Occurrence

/-!
# Searching a Byte String

`binstr` of `bstrlib.c`, the search behind `bfindreplace`. Its loop looks for the bytes of
the pattern one after another and tests two bytes of the text in one turn; bytes between
those that it has found are passed over, and the search starts again when the last byte is
found and some were. The second test may come to stand at the last byte of the text, which
is looked at behind the loop.

## Main results

* `Scan.turn_spec`: one turn keeps the invariant and comes closer to the end, or ends the
  search with the right result.
* `binstr_spec`: the search ends, stays within both blocks and returns the first occurrence.
* `binstr_first`: the same for every position, within the string or not.
-/

open Memory Occurrence

namespace Yogigen

namespace Tagbstring

/-- The variables of the loop in `binstr`. -/
structure Scan where
  i : ℤ
  j : ℤ
  ii : ℤ
  c1 : UInt8

/-- From the label `N0` on: all bytes are found. -/
def Scan.n0 (c0 : UInt8) (s : Scan) : Scan ⊕ ℤ :=
  if s.i = s.ii + s.j then .inr s.ii
  else .inl { s with i := s.i - s.j, j := 0, c1 := c0 }

/-- The part of the loop behind the unrolled test: a byte is found. -/
def Scan.found (d0 : Block UInt8) (ll : ℤ) (c0 : UInt8) (s : Scan) :
    Except Violation (Scan ⊕ ℤ) :=
  let s := if s.j = 0 then { s with ii := s.i } else s
  let s := { s with i := s.i + 1, j := s.j + 1 }
  if s.j < ll then do
    let c ← load d0 s.j
    return .inl { s with c1 := c }
  else return s.n0 c0

/-- A turn of the loop from its condition on, or what follows it. -/
def Scan.turn (d0 d1 : Block UInt8) (slen ll : ℤ) (c0 : UInt8) (s : Scan) :
    Except Violation (Scan ⊕ ℤ) :=
  let lf := slen - 1
  if s.i < lf then do
    let c ← load d1 s.i
    if s.c1 ≠ c then do
      let c ← load d1 (1 + s.i)
      if s.c1 ≠ c then return .inl { s with i := s.i + 2 }
      else Scan.found d0 ll c0 { s with i := s.i + 1 }
    else Scan.found d0 ll c0 s
  else if s.i = lf ∧ ll = s.j + 1 then do
    let c ← load d1 s.i
    if s.c1 = c then return s.n0 c0 else return .inr (-1)
  else return .inr (-1)

/-- A turn of the loop for a pattern of one byte. -/
def seek (d1 : Block UInt8) (lf : ℤ) (c0 : UInt8) (i : ℤ) : Except Violation (ℤ ⊕ ℤ) :=
  if i < lf then do
    let c ← load d1 i
    if c0 = c then return .inr i else return .inl (i + 1)
  else return .inr (-1)

/-- `binstr`, for strings in different blocks. -/
def binstr (b1 : Tagbstring) (pos : ℤ) (b2 : Tagbstring) : Except Violation ℤ :=
  if b1.slen < 0 ∨ b2.slen < 0 then .ok (-1)
  else if b1.slen = pos then .ok (if b2.slen = 0 then pos else -1)
  else if b1.slen < pos ∨ pos < 0 then .ok (-1)
  else if b2.slen = 0 then .ok pos
  else
    let lf := b1.slen - b2.slen + 1
    if lf ≤ pos then .ok (-1)
    else do
      let ll := b2.slen
      let c0 ← load b2.data 0
      if ll = 1 then loop (seek b1.data lf c0) (b1.slen + 1).toNat pos
      else
        loop (Scan.turn b2.data b1.data b1.slen ll c0)
          ((2 * (b1.slen.toNat + 2) + 1) * (ll.toNat + 1)) ⟨pos, 0, -1, c0⟩

/-- What a search from a position on is to return. -/
def Found (pat text : Bytes) (pos : ℕ) (r : ℤ) : Prop :=
  (∃ p : ℕ, r = p ∧ FirstFrom pat text pos p) ∨ (r = -1 ∧ ∀ q, pos ≤ q → ¬ OccursAt pat text q)

/-! ### The invariant -/

/-- Where the first byte was found. As long as no byte was passed over since, the bytes of
the pattern stand there. -/
def Started (pat text : Bytes) (pos i j : ℕ) (ii : ℤ) : Prop :=
  ∃ p : ℕ, ii = p ∧ pos ≤ p ∧ p + j ≤ i ∧ (i = p + j → ∀ k < j, text[p + k]? = pat[k]?)

/-- The loop stands at `i` and looks for the byte `j` of the pattern. -/
structure Scanning (pat text : Bytes) (pos : ℕ) (s : Scan) (i j : ℕ) : Prop where
  index : s.i = i
  count : s.j = j
  lt : j < pat.length
  le : i ≤ text.length
  wanted : pat[j]? = some s.c1
  behind : pos + j ≤ i
  notAhead : NotAhead pat text pos i j
  started : 0 < j → Started pat text pos i j s.ii

/-- Bytes were passed over since the first one was found. -/
def Scan.tainted (s : Scan) : ℕ :=
  if 0 < s.j ∧ s.i ≠ s.ii + s.j then 1 else 0

/-- The places where the pattern may begin, what is to be looked for again, and the bytes
of the pattern that are left. -/
def Scan.bound (n ll : ℕ) (s : Scan) : ℕ :=
  (2 * (n + 2 - (s.i - s.j).toNat) + s.tainted) * (ll + 1) + (ll - s.j.toNat)

/-- The flag counts for one at most. -/
theorem Scan.tainted_le (s : Scan) : s.tainted ≤ 1 := by
  rw [Scan.tainted]
  split_ifs
  · exact le_rfl
  · exact Nat.zero_le _

/-- The bound is lexicographic. -/
theorem lex_lt {a b c d m : ℕ} (h : a < b ∨ (a ≤ b ∧ c < d)) (hc : c ≤ m) :
    a * (m + 1) + c < b * (m + 1) + d := by
  rcases h with h | ⟨h, hcd⟩
  · have := Nat.mul_le_mul_right (m + 1) (Nat.succ_le_of_lt h)
    rw [Nat.succ_mul] at this
    omega
  · have := Nat.mul_le_mul_right (m + 1) h
    omega

/-- What makes the bound of the scan smaller. -/
theorem Scan.bound_lt {s s' : Scan} {n ll : ℕ} (hreach : s.i - s.j ≤ n)
    (h : (0 ≤ s.i - s.j ∧ s.i - s.j < s'.i - s'.j) ∨ (s'.i - s'.j = s.i - s.j ∧
      (s'.tainted < s.tainted ∨
        (s'.tainted ≤ s.tainted ∧ 0 ≤ s.j ∧ s.j < ll ∧ s.j < s'.j)))) :
    s'.bound n ll < s.bound n ll := by
  have htaint := s'.tainted_le
  rw [Scan.bound, Scan.bound]
  refine lex_lt ?_ (Nat.sub_le _ _)
  rcases h with h | ⟨h, htainted | ⟨htainted, hj⟩⟩
  · exact .inl (by omega)
  · exact .inl (by rw [h]; omega)
  · exact .inr ⟨by rw [h]; omega, by omega⟩

/-! ### One turn -/

section

variable {pat text : Bytes} {pos : ℕ}

/-- What a turn is to do: come closer to the end, or end the search. -/
def Turned (pat text : Bytes) (pos : ℕ) (s : Scan) (r : Scan ⊕ ℤ) : Prop :=
  (∃ s' i j, r = .inl s' ∧ Scanning pat text pos s' i j ∧
    s'.bound text.length pat.length < s.bound text.length pat.length) ∨
  ∃ p, r = .inr p ∧ Found pat text pos p

/-- A byte that is passed over. -/
theorem Scanning.skip {s : Scan} {i j : ℕ} (h : Scanning pat text pos s i j) {c : UInt8}
    (hc : text[i]? = some c) (hne : s.c1 ≠ c) :
    Scanning pat text pos { s with i := s.i + 1 } (i + 1) j where
  index := by rw [h.index]; rfl
  count := h.count
  lt := h.lt
  le := (List.getElem?_eq_some_iff.mp hc).1
  wanted := h.wanted
  behind := Nat.le_succ_of_le h.behind
  notAhead := h.notAhead.skip h.lt fun heq => by
    rw [hc, h.wanted] at heq
    exact hne (Option.some.inj heq).symm
  started hj := by
    obtain ⟨p, hii, hpos, hle, -⟩ := h.started hj
    exact ⟨p, hii, hpos, by omega, fun heq => by omega⟩

/-- A step to the next place makes it smaller. -/
theorem Scanning.skip_bound {s : Scan} {i j : ℕ} (h : Scanning pat text pos s i j) :
    Scan.bound text.length pat.length { s with i := s.i + 1 } <
      s.bound text.length pat.length := by
  have hindex := h.index
  have hcount := h.count
  have hle := h.le
  have hbehind := h.behind
  exact Scan.bound_lt (by omega) (.inl ⟨by omega, by dsimp only; omega⟩)

/-- **All bytes are found**: the pattern is there, or the search starts again behind the
place where the first byte was found. -/
theorem Scan.n0_spec {s : Scan} {i j : ℕ} {c0 : UInt8} (hi : s.i = i) (hj : s.j = j)
    (hpos : 0 < j) (hbehind : pos + j ≤ i) (hle : i ≤ text.length)
    (hahead : NotAhead pat text pos i j) (hstarted : Started pat text pos i j s.ii)
    (hc0 : pat[0]? = some c0)
    (hlast : ∀ p, i = p + j → ∀ k, j ≤ k → k < pat.length → text[p + k]? = pat[k]?) :
    (∃ s', s.n0 c0 = .inl s' ∧ Scanning pat text pos s' (i - j) 0 ∧ s'.tainted = 0 ∧
      s'.i - s'.j = s.i - s.j ∧ s.i ≠ s.ii + s.j) ∨
    ∃ p, s.n0 c0 = .inr p ∧ Found pat text pos p := by
  obtain ⟨p, hii, hp, hple, hstands⟩ := hstarted
  rw [Scan.n0]
  split_ifs with heq
  · have hip : i = p + j := by omega
    refine .inr ⟨s.ii, rfl, .inl ⟨p, hii, hahead.first hip hp ?_⟩⟩
    refine occursAt_of_getElem? fun k hk => ?_
    by_cases hkj : k < j
    · exact hstands hip k hkj
    · exact hlast p hip k (Nat.le_of_not_lt hkj) hk
  · refine .inl ⟨_, rfl, ?_, ?_, ?_, heq⟩
    · exact
        { index := by dsimp only; omega
          count := rfl
          lt := (List.getElem?_eq_some_iff.mp hc0).1
          le := by omega
          wanted := hc0
          behind := by omega
          notAhead := hahead.again
          started := fun h => absurd h (Nat.lt_irrefl 0) }
    · rw [Scan.tainted, if_neg (by simp)]
    · exact sub_zero _

/-- **A byte is found.** -/
theorem Scanning.found_spec {s : Scan} {i j : ℕ} (h : Scanning pat text pos s i j)
    (hc : text[i]? = some s.c1) {c0 : UInt8} (hc0 : pat[0]? = some c0) (rest : Block UInt8) :
    ∃ r, Scan.found (pat.map some ++ rest) pat.length c0 s = .ok r ∧ Turned pat text pos s r := by
  have hindex := h.index
  have hcount := h.count
  have hlt := h.lt
  have hbehind := h.behind
  have hle : i < text.length := (List.getElem?_eq_some_iff.mp hc).1
  -- where the first byte of the pattern was found, with this byte
  obtain ⟨s₁, hs₁, hi₁, hj₁, hstarted, htaint⟩ :
      ∃ s₁ : Scan, (if s.j = 0 then { s with ii := s.i } else s) = s₁ ∧ s₁.i = i ∧ s₁.j = j ∧
        Started pat text pos (i + 1) (j + 1) s₁.ii ∧
        (s₁.i + 1 ≠ s₁.ii + (s₁.j + 1) → 0 < s.j ∧ s.i ≠ s.ii + s.j) := by
    by_cases hj : s.j = 0
    · obtain rfl : j = 0 := by omega
      refine ⟨_, if_pos hj, hindex, hcount, ⟨i, hindex, by omega, by omega, fun _ k hk => ?_⟩,
        fun hne => ?_⟩
      · obtain rfl : k = 0 := by omega
        rw [Nat.add_zero, hc, h.wanted]
      · dsimp only at hne
        omega
    · obtain ⟨p, hii, hp, hple, hstands⟩ := h.started (by omega)
      refine ⟨_, if_neg hj, hindex, hcount, ⟨p, hii, hp, by omega, fun heq k hk => ?_⟩,
        fun hne => by omega⟩
      obtain rfl : i = p + j := by omega
      rcases Nat.lt_succ_iff_lt_or_eq.mp hk with hk | rfl
      · exact hstands rfl k hk
      · rw [hc, h.wanted]
  rw [Scan.found]
  dsimp only
  rw [hs₁, hi₁, hj₁]
  have hreach : s.i - s.j ≤ text.length := by omega
  by_cases hmore : j + 1 < pat.length
  · have hget : pat[j + 1]? = some pat[j + 1] := List.getElem?_eq_getElem hmore
    refine ⟨.inl ⟨i + 1, j + 1, s₁.ii, pat[j + 1]⟩, ?_, .inl ⟨_, i + 1, j + 1, rfl, ?_, ?_⟩⟩
    · rw [if_pos (by omega),
        load_text rest (by omega) (by rw [Int.toNat_natCast_add_one]; exact hget)]
      rfl
    · exact
        { index := rfl
          count := rfl
          lt := hmore
          le := hle
          wanted := hget
          behind := by omega
          notAhead := h.notAhead.take
          started := fun _ => hstarted }
    · refine Scan.bound_lt hreach (.inr ⟨by dsimp only; omega, .inr ⟨?_, ?_⟩⟩)
      · rw [Scan.tainted, Scan.tainted]
        split_ifs with h1 h2
        · exact le_rfl
        · exact absurd (htaint (by rw [hi₁, hj₁]; exact h1.2)) h2
        · exact Nat.zero_le _
        · exact le_rfl
      · dsimp only
        omega
  · have hall : j + 1 = pat.length := by omega
    rw [if_neg (by omega)]
    refine ⟨_, rfl, ?_⟩
    rcases @Scan.n0_spec pat text pos ⟨i + 1, j + 1, s₁.ii, s₁.c1⟩ (i + 1) (j + 1) c0 rfl rfl
      (Nat.succ_pos j) (by omega) hle h.notAhead.take hstarted hc0
      (fun p _ k hk hlt => by omega) with ⟨s', hs', hscan, hnot, hsame, hne⟩ | ⟨p, hp, hfound⟩
    · refine .inl ⟨s', _, 0, ?_, hscan, Scan.bound_lt hreach (.inr ⟨?_, .inl ?_⟩)⟩
      · exact hs'
      · dsimp only at hsame
        omega
      · rw [hnot, Scan.tainted, if_pos (htaint (by rw [hi₁, hj₁]; exact hne))]
        exact Nat.one_pos
    · exact .inr ⟨p, hp, hfound⟩

/-- **One turn** of the loop. -/
theorem Scan.turn_spec {s : Scan} {i j : ℕ} (h : Scanning pat text pos s i j) {c0 : UInt8}
    (hc0 : pat[0]? = some c0) (hlong : 1 < pat.length) (rest rest' : Block UInt8) :
    ∃ r, Scan.turn (pat.map some ++ rest) (text.map some ++ rest') text.length pat.length c0 s =
      .ok r ∧ Turned pat text pos s r := by
  have hindex := h.index
  have hcount := h.count
  rw [Scan.turn]
  by_cases hlt : i + 1 < text.length
  · have hget : text[i]? = some text[i] := List.getElem?_eq_getElem (by omega)
    rw [if_pos (by omega), load_text rest' (by omega) (by rw [hindex]; exact hget), ok_bind]
    by_cases hne : s.c1 = text[i]
    · rw [if_neg (not_not.mpr hne)]
      exact h.found_spec (by rw [hget, hne]) hc0 rest
    · have hget' : text[i + 1]? = some text[i + 1] := List.getElem?_eq_getElem hlt
      have hskip := h.skip hget hne
      rw [if_pos hne, load_text rest' (by omega) (by
        rw [hindex, add_comm]; exact hget'), ok_bind]
      by_cases hne' : s.c1 = text[i + 1]
      · rw [if_neg (not_not.mpr hne')]
        obtain ⟨r, hr, hturned⟩ := hskip.found_spec (by rw [hget', hne']) hc0 rest
        refine ⟨r, hr, ?_⟩
        rcases hturned with ⟨s', i', j', heq, hscan, hless⟩ | hdone
        · exact .inl ⟨s', i', j', heq, hscan, hless.trans h.skip_bound⟩
        · exact .inr hdone
      · rw [if_pos hne']
        have hskip' := hskip.skip hget' hne'
        have hless := hskip.skip_bound.trans h.skip_bound
        dsimp only at hless
        rw [add_assoc] at hskip' hless
        exact ⟨_, rfl, .inl ⟨_, _, _, rfl, hskip', hless⟩⟩
  · have hnone : (i + 1 = text.length → j + 1 = pat.length → text[i]? ≠ pat[j]?) →
        Found pat text pos (-1) := fun hlast =>
      .inr ⟨rfl, h.notAhead.none h.lt (by omega) hlast⟩
    rw [if_neg (by omega)]
    by_cases hlast : i + 1 = text.length ∧ j + 1 = pat.length
    · have hget : text[i]? = some text[i] := List.getElem?_eq_getElem (by omega)
      rw [if_pos (by omega), load_text rest' (by omega) (by rw [hindex]; exact hget), ok_bind]
      split_ifs with heq
      · rcases Scan.n0_spec hindex hcount (by omega) h.behind h.le h.notAhead
          (h.started (by omega)) hc0 (fun p hp k hk hlt => by
            obtain rfl : k = j := by omega
            rw [← hp, hget, h.wanted, heq]) with
          ⟨s', hs', hscan, hnot, hsame, hne⟩ | ⟨p, hp, hfound⟩
        · refine ⟨_, rfl, .inl ⟨s', _, 0, hs', hscan, Scan.bound_lt ?_ (.inr ⟨hsame, .inl ?_⟩)⟩⟩
          · have := h.le
            omega
          · rw [hnot, Scan.tainted, if_pos ⟨by omega, hne⟩]
            exact Nat.one_pos
        · exact ⟨_, rfl, .inr ⟨p, hp, hfound⟩⟩
      · refine ⟨_, rfl, .inr ⟨-1, rfl, hnone fun _ _ => ?_⟩⟩
        rw [hget, h.wanted]
        exact fun h => heq (Option.some.inj h).symm
    · rw [if_neg (by omega)]
      exact ⟨_, rfl, .inr ⟨-1, rfl, hnone fun h1 h2 => absurd ⟨h1, h2⟩ hlast⟩⟩

end

/-! ### The search -/

/-- The loop for a pattern of one byte. -/
theorem seek_spec {text : Bytes} {c0 : UInt8} (rest : Block UInt8) {pos turns : ℕ}
    (hturns : text.length - pos < turns) (hpos : pos ≤ text.length) :
    ∃ r, loop (seek (text.map some ++ rest) text.length c0) turns (pos : ℤ) = .ok r ∧
      Found [c0] text pos r := by
  refine loop_ends
    (fun i : ℤ => ∃ n : ℕ, i = n ∧ pos ≤ n ∧ n ≤ text.length ∧ NotAhead [c0] text pos n 0)
    (fun i => text.length - i.toNat) (Found [c0] text pos) ?_
    ⟨pos, rfl, le_rfl, hpos, notAhead_start _ _ _⟩ (by simpa using hturns)
  rintro i ⟨n, rfl, hle, hn, hahead⟩
  rw [seek]
  by_cases hlt : n < text.length
  · have hget : text[n]? = some text[n] := List.getElem?_eq_getElem hlt
    rw [if_pos (by omega), load_text rest (by omega) (by rw [Int.toNat_natCast]; exact hget),
      ok_bind]
    split_ifs with heq
    · refine .inr ⟨n, rfl, .inl ⟨n, rfl, hahead.first rfl hle ?_⟩⟩
      refine occursAt_of_getElem? fun k hk => ?_
      obtain rfl : k = 0 := by simpa using hk
      rw [Nat.add_zero, hget, heq]
      rfl
    · refine .inl ⟨n + 1, rfl, ⟨n + 1, rfl, by omega, hlt, hahead.skip Nat.one_pos ?_⟩, ?_⟩
      · rw [hget]
        exact fun h => heq (Option.some.inj h).symm
      · omega
  · rw [if_neg (by omega)]
    exact .inr ⟨-1, rfl, .inr ⟨rfl, hahead.none Nat.one_pos (by omega) fun h => by omega⟩⟩

/-- **`binstr` returns the first occurrence**, and -1 if there is none. The search ends and
reads no byte outside the two strings. -/
theorem binstr_spec {b1 b2 : Tagbstring} {text pat : Bytes} (h1 : b1.Holds text)
    (h2 : b2.Holds pat) {pos : ℕ} (hpos : pos ≤ text.length) :
    ∃ r, binstr b1 pos b2 = .ok r ∧ Found pat text pos r := by
  obtain ⟨rest1, hdata1⟩ := h1.data
  obtain ⟨rest2, hdata2⟩ := h2.data
  have hnone : pos + pat.length ≤ text.length ∨ pat = [] ∨
      ∀ q, pos ≤ q → ¬ OccursAt pat text q := by
    by_cases hne : pat = []
    · exact .inr (.inl hne)
    · by_cases hroom : pos + pat.length ≤ text.length
      · exact .inl hroom
      · refine .inr (.inr fun q hq hocc => ?_)
        have := hocc.length_le hne
        omega
  have hempty : pat = [] → Found pat text pos pos := by
    rintro rfl
    exact .inl ⟨pos, rfl, le_rfl, List.nil_prefix, fun _ hq _ => hq⟩
  rw [binstr, h1.slen, h2.slen, if_neg (by omega)]
  by_cases hend : text.length = pos
  · rw [if_pos (by omega)]
    refine ⟨_, rfl, ?_⟩
    split_ifs with hlen
    · exact hempty (List.length_eq_zero_iff.mp (by omega))
    · rcases hnone with h | rfl | h
      · omega
      · exact absurd rfl hlen
      · exact .inr ⟨rfl, h⟩
  · rw [if_neg (by omega), if_neg (by omega)]
    by_cases hlen : pat.length = 0
    · rw [if_pos (by omega)]
      exact ⟨pos, rfl, hempty (List.length_eq_zero_iff.mp hlen)⟩
    · rw [if_neg (by omega)]
      dsimp only
      by_cases hroom : pos + pat.length ≤ text.length
      · have hc0 : pat[0]? = some pat[0] := List.getElem?_eq_getElem (by omega)
        rw [if_neg (by omega), hdata1, hdata2, load_text _ le_rfl hc0, ok_bind]
        by_cases hone : pat.length = 1
        · obtain ⟨c, rfl⟩ := List.length_eq_one_iff.mp hone
          rw [if_pos (by simp)]
          have hlf : (text.length : ℤ) - ([c].length : ℕ) + 1 = text.length := by simp
          rw [hlf]
          exact seek_spec _ (by omega) hpos
        · rw [if_neg (by omega)]
          refine loop_ends (fun s => ∃ i j, Scanning pat text pos s i j)
            (Scan.bound text.length pat.length) (Found pat text pos) ?_ ⟨pos, 0, ?_⟩ ?_
          · rintro s ⟨i, j, hs⟩
            obtain ⟨r, hr, ⟨s', i', j', rfl, hs', hless⟩ | ⟨p, rfl, hfound⟩⟩ :=
              Scan.turn_spec hs hc0 (by omega) (some 0 :: rest2) (some 0 :: rest1)
            · exact .inl ⟨s', hr, ⟨i', j', hs'⟩, hless⟩
            · exact .inr ⟨p, hr, hfound⟩
          · exact
              { index := rfl
                count := rfl
                lt := by omega
                le := hpos
                wanted := hc0
                behind := le_rfl
                notAhead := notAhead_start _ _ _
                started := fun h => absurd h (Nat.lt_irrefl 0) }
          · rw [Scan.bound, Scan.tainted, if_neg (by simp)]
            refine lt_of_lt_of_eq (b := (2 * (text.length + 2) + 1) * (pat.length + 1) + 0) ?_ ?_
            · refine lex_lt (.inl ?_) (Nat.sub_le _ _)
              omega
            · simp
      · rw [if_pos (by omega)]
        refine ⟨-1, rfl, .inr ⟨rfl, ?_⟩⟩
        rcases hnone with h | rfl | h
        · exact absurd h hroom
        · exact absurd rfl hlen
        · exact h

/-- **The search from every position**, where one outside of the string finds nothing. -/
theorem binstr_first {b1 b2 : Tagbstring} {text pat : Bytes} (h1 : b1.Holds text)
    (h2 : b2.Holds pat) (pos : ℤ) :
    ∃ r, binstr b1 pos b2 = .ok r ∧
      ((0 ≤ pos ∧ pos ≤ text.length ∧ Found pat text pos.toNat r) ∨
        ((pos < 0 ∨ text.length < pos) ∧ r = -1)) := by
  by_cases hin : 0 ≤ pos ∧ pos ≤ text.length
  · obtain ⟨hlow, hhigh⟩ := hin
    have hpos : pos.toNat ≤ text.length := by omega
    obtain ⟨r, hr, hfound⟩ := binstr_spec h1 h2 hpos
    rw [Int.toNat_of_nonneg hlow] at hr
    exact ⟨r, hr, .inl ⟨hlow, hhigh, hfound⟩⟩
  · refine ⟨-1, ?_, .inr ⟨by omega, rfl⟩⟩
    rw [binstr, h1.slen, h2.slen]
    split_ifs with hneg hend hout
    · rfl
    · omega
    · omega
    · rfl
    all_goals omega

/-- "aab" stands in "aaab" from 1 on, after a first byte that is found twice. -/
theorem binstr_first_aab :
    ∃ r, binstr (stored [97, 97, 97, 98]) 0 (stored [97, 97, 98]) = .ok r ∧
      ((0 ≤ (0 : ℤ) ∧ (0 : ℤ) ≤ ([97, 97, 97, 98] : Bytes).length ∧
          Found [97, 97, 98] [97, 97, 97, 98] (0 : ℤ).toNat r) ∨
        (((0 : ℤ) < 0 ∨ (([97, 97, 97, 98] : Bytes).length : ℤ) < 0) ∧ r = -1)) :=
  binstr_first (stored_holds (by decide)) (stored_holds (by decide)) 0

end Tagbstring

end Yogigen
