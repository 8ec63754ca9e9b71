import Yogigen.Instr

/-!
# Find and Replace in Memory

`findreplaceengine` of `bstrlib.c`, the function behind `bfindreplace`, on the block of the
string. Depending on the lengths of the two strings it

* overwrites each occurrence in place;
* closes the text up behind each occurrence, while the search is still going on in the part
  that has not been moved; or
* collects the places of all occurrences in an array that grows as needed, makes room once,
  and moves the pieces of the text from the last one to the first.

All three are the replacement of all occurrences, from left to right, on lists of bytes.

## Main results

* `Cut.snoc`, `Cut.replaced`: what has been found up to some position.
* `bfindreplace_cases`: the function on memory replaces all occurrences, or it has run out
  of memory and the string is as it was.
-/

open Memory Occurrence

namespace Yogigen

/-! ### Replacing occurrences -/

/-- The bytes of an occurrence are skipped. -/
theorem replaceFrom_skip (find repl : Bytes) (l b : Bytes) :
    replaceFrom find repl l.length (l ++ b) = replaceFrom find repl 0 b := by
  induction l with
  | nil => rfl
  | cons c l ih =>
      rw [List.length_cons, List.cons_append, replaceFrom, ih]

/-- Without an occurrence the text stays as it is. -/
theorem replaceFrom_none {find b : Bytes} (repl : Bytes) (h : ∀ q, ¬ OccursAt find b q) :
    replaceFrom find repl 0 b = b := by
  induction b with
  | nil => rfl
  | cons c b ih =>
      rw [replaceFrom, if_neg (by rw [List.isPrefixOf_iff_prefix]; exact h 0), ih]
      exact fun q hq => h (q + 1) hq

/-- Up to the first occurrence the text stays as it is. -/
theorem replaceFrom_first {find : Bytes} (repl mid behind : Bytes) (hne : find ≠ [])
    (h : ∀ q, OccursAt find (mid ++ (find ++ behind)) q → mid.length ≤ q) :
    replaceFrom find repl 0 (mid ++ (find ++ behind)) =
      mid ++ (repl ++ replaceFrom find repl 0 behind) := by
  induction mid with
  | nil =>
      obtain ⟨c, f, rfl⟩ := List.exists_cons_of_ne_nil hne
      rw [List.nil_append, List.nil_append, List.cons_append, replaceFrom, if_pos (by
        rw [List.isPrefixOf_iff_prefix]
        exact List.prefix_append (c :: f) behind), List.length_cons, Nat.add_sub_cancel,
        replaceFrom_skip]
  | cons c mid ih =>
      have hnot : ¬ find <+: c :: (mid ++ (find ++ behind)) := fun hocc =>
        absurd (h 0 hocc) (Nat.not_succ_le_zero _)
      rw [List.cons_append, replaceFrom, if_neg (by rwa [List.isPrefixOf_iff_prefix]), ih]
      · rfl
      · exact fun q hq => Nat.le_of_succ_le_succ (h (q + 1) hq)

/-- Pieces of a text, each followed by the same string. -/
def glue (sep : Bytes) (pieces : List Bytes) : Bytes :=
  pieces.flatMap (· ++ sep)

@[simp] theorem glue_nil (sep : Bytes) : glue sep [] = [] := rfl

/-- One more piece. -/
theorem glue_snoc (sep : Bytes) (pieces : List Bytes) (m : Bytes) :
    glue sep (pieces ++ [m]) = glue sep pieces ++ (m ++ sep) := by
  rw [glue, List.flatMap_append, List.flatMap_singleton]
  rfl

/-- With separators that are longer by `e` the whole is longer by `e` for each piece. -/
theorem length_glue {find repl : Bytes} {e : ℤ} (he : (repl.length : ℤ) = find.length + e)
    (pieces : List Bytes) :
    ((glue repl pieces).length : ℤ) = (glue find pieces).length + pieces.length * e := by
  induction pieces using List.reverseRecOn with
  | nil => simp
  | append_singleton pieces m ih =>
      have hmul : ((pieces ++ [m]).length : ℤ) * e = pieces.length * e + e := by
        rw [List.length_append, List.length_singleton, Nat.cast_add, Nat.cast_one, add_mul, one_mul]
      rw [glue_snoc, glue_snoc, hmul]
      simp only [List.length_append] at ih ⊢
      omega

/-- There are no more pieces than bytes. -/
theorem length_le_glue {find : Bytes} (hne : find ≠ []) (pieces : List Bytes) :
    pieces.length ≤ (glue find pieces).length := by
  have hlen := List.length_pos_iff.mpr hne
  have hmul := Nat.le_mul_of_pos_right pieces.length hlen
  have hglue := @length_glue [] find find.length (by simp) pieces
  rw [← Nat.cast_mul] at hglue
  omega

/-- A text up to some place: the pieces before the occurrences, and what is left behind. -/
structure Cut (find rest : Bytes) (pieces : List Bytes) (behind : Bytes) : Prop where
  text : rest = glue find pieces ++ behind
  replaced : ∀ repl, replaceFrom find repl 0 rest =
    glue repl pieces ++ replaceFrom find repl 0 behind

/-- Nothing has been found yet. -/
theorem Cut.start (find rest : Bytes) : Cut find rest [] rest where
  text := rfl
  replaced _ := rfl

/-- Longer strings make the text longer, in each place. -/
theorem Cut.length_le {find repl rest behind : Bytes} {pieces : List Bytes}
    (h : Cut find rest pieces behind) {e : ℤ} (he : (repl.length : ℤ) = find.length + e) :
    pieces.length * e ≤ (replaceFrom find repl 0 rest).length := by
  have hglue := length_glue he pieces
  rw [h.replaced, List.length_append]
  omega

/-- **The search goes on**: the next occurrence makes another piece, or nothing of what is
left will be replaced. -/
theorem Cut.next {find rest behind front : Bytes} {pieces : List Bytes}
    (h : Cut find rest pieces behind) (hne : find ≠ []) {r : ℤ}
    (hr : Tagbstring.Found find (front ++ behind) front.length r) :
    (∃ m behind', behind = m ++ (find ++ behind') ∧ r = ((front ++ m).length : ℕ) ∧
      Cut find rest (pieces ++ [m]) behind') ∨
    (r = -1 ∧ ∀ repl, replaceFrom find repl 0 rest = glue repl pieces ++ behind) := by
  have hocc : ∀ q, OccursAt find behind q ↔ OccursAt find (front ++ behind) (front.length + q) := by
    intro q
    rw [← occursAt_drop_iff, List.drop_left]
  rcases hr with ⟨p, rfl, hfirst⟩ | ⟨rfl, hnone⟩
  · have hle := hfirst.le
    have hlen := hfirst.occurs.length_le hne
    rw [List.length_append] at hlen
    have hat : OccursAt find behind (p - front.length) := by
      rw [hocc, Nat.add_sub_cancel' hle]
      exact hfirst.occurs
    obtain ⟨m, behind', rfl, hm⟩ := (occursAt_append_iff (by omega)).mp hat
    refine .inl ⟨m, behind', rfl, by rw [List.length_append]; omega, ?_, fun repl => ?_⟩
    · rw [glue_snoc, h.text]
      simp only [List.append_assoc]
    · rw [h.replaced, glue_snoc, replaceFrom_first repl m behind' hne]
      · simp only [List.append_assoc]
      · intro q hq
        have := hfirst.first _ (Nat.le_add_right _ q) ((hocc q).mp hq)
        omega
  · refine .inr ⟨rfl, fun repl => ?_⟩
    rw [h.replaced, replaceFrom_none repl fun q hq =>
      hnone _ (Nat.le_add_right _ q) ((hocc q).mp hq)]

namespace Tagbstring

/-! ### The function -/

/-- A turn of the replacement by a string of the same length. -/
def overwrite (instr : Tagbstring → ℤ → Tagbstring → Except Violation ℤ)
    (find repl : Tagbstring) (s : Tagbstring × ℤ) :
    Except Violation ((Tagbstring × ℤ) ⊕ Tagbstring) := do
  let pos ← instr s.1 s.2 find
  if pos < 0 then return .inr s.1
  else do
    let new ← cells repl.data 0 repl.slen
    let data ← store s.1.data pos new
    return .inl ({ s.1 with data := data }, pos + find.slen)

/-- The variables of the replacement by a shorter string. -/
structure Shrinking where
  b : Tagbstring
  pos : ℤ
  acc : ℤ

/-- Close the text up to `i` by `acc` bytes. -/
def closeUp (data : Block UInt8) (pos acc i : ℤ) : Except Violation (Block UInt8) :=
  if acc ≠ 0 ∧ pos < i then move data (pos - acc) pos (i - pos) else .ok data

/-- Copy a string into a block, unless it is empty. -/
def put (data : Block UInt8) (i : ℤ) (repl : Tagbstring) : Except Violation (Block UInt8) :=
  if repl.slen ≠ 0 then do
    let new ← cells repl.data 0 repl.slen
    store data i new
  else .ok data

/-- A turn of the replacement by a shorter string. -/
def Shrinking.turn (instr : Tagbstring → ℤ → Tagbstring → Except Violation ℤ)
    (find repl : Tagbstring) (delta : ℤ) (s : Shrinking) :
    Except Violation (Shrinking ⊕ Shrinking) := do
  let i ← instr s.b s.pos find
  if i < 0 then return .inr s
  else do
    let data ← closeUp s.b.data s.pos s.acc i
    let data ← put data (i - s.acc) repl
    return .inl ⟨{ s.b with data := data }, i + find.slen, s.acc + delta⟩

/-- What follows the loop of the replacement by a shorter string. -/
def Shrinking.finish (s : Shrinking) : Status :=
  if s.acc ≠ 0 then do
    let data ← closeUp s.b.data s.pos s.acc s.b.slen
    terminate ⟨s.b.mlen, s.b.slen - s.acc, data⟩
  else .ok (true, s.b)

/-- The variables of the search for the replacement by a longer string. The array `d` is
`static_d` as long as that is large enough. -/
structure Index where
  pos : ℤ
  d : Block ℤ
  static : Bool
  mlen : ℤ
  slen : ℤ
  acc : ℤ

/-- Make the array larger if it is full; `none` if that cannot be done. Pointers have eight
bytes and integers four. -/
def Index.grow (A : Allocator) (s : Index) : Except Violation (Option Index) :=
  if s.slen < s.mlen - 1 then .ok (some s)
  else if 2147483647 / 8 / 2 < s.mlen then .ok none
  else
    let mlen := s.mlen + s.mlen
    let sl := 8 * mlen
    if A.realloc sl then
      if s.static then do
        let old ← cells s.d 0 33
        let t ← store (alloc (sl / 4)) 0 old
        return some { s with d := t, static := false, mlen := mlen }
      else return some { s with d := resize s.d (sl / 4), mlen := mlen }
    else return none

/-- A turn of the search for the replacement by a longer string. -/
def Index.turn (A : Allocator) (instr : Tagbstring → ℤ → Tagbstring → Except Violation ℤ)
    (b find : Tagbstring) (delta : ℤ) (s : Index) : Except Violation (Index ⊕ Option Index) := do
  let pos ← instr b s.pos find
  if pos < 0 then return .inr (some s)
  else do
    let grown ← s.grow A
    match grown with
    | none => return .inr none
    | some s => do
        let d ← store s.d s.slen [some pos]
        let acc := int (s.acc - delta)
        let pos := int (pos + find.slen)
        if pos < 0 ∨ acc < 0 then return .inr none
        else return .inl { s with d := d, slen := s.slen + 1, acc := acc, pos := pos }

/-- The variables of the loop that moves the pieces. -/
structure Placing where
  i : ℤ
  acc : ℤ
  data : Block UInt8

/-- Move a piece, unless it is empty. -/
def slide (data : Block UInt8) (dst src l : ℤ) : Except Violation (Block UInt8) :=
  if l ≠ 0 then move data dst src l else .ok data

/-- A turn of the loop that moves the pieces. -/
def Placing.turn (d : Block ℤ) (find repl : Tagbstring) (delta : ℤ) (s : Placing) :
    Except Violation (Placing ⊕ Block UInt8) :=
  if s.i < 0 then .ok (.inr s.data)
  else do
    let di ← load d s.i
    let start := di + find.slen
    let next ← load d (s.i + 1)
    let l := next - start
    let data ← slide s.data (start + s.acc) start l
    let data ← put data (start + s.acc - repl.slen) repl
    return .inl ⟨s.i - 1, s.acc + delta, data⟩

/-- `findreplaceengine`, for strings in different blocks. The first allocator is that of the
array, whose size is another one each time. -/
def findreplaceengine (A : ℕ → Allocator) (b find repl : Tagbstring) (pos : ℤ)
    (instr : Tagbstring → ℤ → Tagbstring → Except Violation ℤ) : Status :=
  if pos < 0 ∨ find.slen ≤ 0 ∨ b.mlen ≤ 0 ∨ b.mlen < b.slen ∨ b.slen < 0 ∨ repl.slen < 0 then
    .ok (false, b)
  else if b.slen - find.slen < pos then .ok (true, b)
  else
    let delta := find.slen - repl.slen
    let turns := (b.slen + 1).toNat
    if delta = 0 then do
      let b ← loop (overwrite instr find repl) turns (b, pos)
      return (true, b)
    else if 0 < delta then do
      let s ← loop (Shrinking.turn instr find repl delta) turns ⟨b, pos, 0⟩
      s.finish
    else do
      let s ← loop (Index.turn (A 0) instr b find delta) turns ⟨pos, alloc 33, true, 32, 0, 0⟩
      match s with
      | none => return (false, b)
      | some s => do
          let d ← store s.d s.slen [some b.slen]
          let (ok, b) ← balloc (A 1) b (int (int (b.slen + s.acc) + 1))
          if ok then do
            let data ← loop (Placing.turn d find repl delta) turns ⟨s.slen - 1, s.acc, b.data⟩
            terminate ⟨b.mlen, b.slen + s.acc, data⟩
          else return (false, b)

/-- `bfindreplace`. -/
def bfindreplace (A : ℕ → Allocator) (b find repl : Tagbstring) (pos : ℤ) : Status :=
  findreplaceengine A b find repl pos binstr

/-! ### In place -/

section

variable {find repl pre rest : Bytes} {f r : Tagbstring}

/-- The cells of a text can be read. -/
theorem Holds.cells {s : Bytes} (h : r.Holds s) :
    Memory.cells r.data 0 r.slen = .ok (s.map some) := by
  obtain ⟨_, hdata⟩ := h.data
  rw [hdata]
  exact cells_append [] _ _ rfl (by rw [h.slen, List.length_map])

/-- **Replacing in place.** -/
theorem overwrite_spec {b : Tagbstring} {turns : ℕ} (hb : b.Holds (pre ++ rest))
    (hf : f.Holds find) (hr : r.Holds repl) (hne : find ≠ []) (hlen : repl.length = find.length)
    (hturns : rest.length < turns) :
    ∃ b', loop (Tagbstring.overwrite binstr f r) turns (b, (pre.length : ℤ)) = .ok b' ∧
      b'.Holds (pre ++ replaceFrom find repl 0 rest) := by
  refine loop_ends
    (fun s : Tagbstring × ℤ => ∃ pieces behind, Cut find rest pieces behind ∧
      s.1.Holds ((pre ++ glue repl pieces) ++ behind) ∧ s.2 = (pre ++ glue repl pieces).length)
    (fun s => (s.1.slen - s.2).toNat)
    (fun b' : Tagbstring => b'.Holds (pre ++ replaceFrom find repl 0 rest)) ?_
    ⟨[], rest, Cut.start find rest, by simpa using hb, by simp⟩ (by
      rw [hb.slen, List.length_append]
      omega)
  rintro ⟨b, pos⟩ ⟨pieces, behind, hcut, hb, rfl⟩
  have hpos := List.length_pos_iff.mpr hne
  obtain ⟨p, hp, hfound⟩ := @binstr_spec b f _ _ hb hf (pre ++ glue repl pieces).length
    (List.prefix_append _ behind).length_le
  rw [Tagbstring.overwrite]
  dsimp only
  rw [hp, ok_bind]
  rcases hcut.next hne hfound with ⟨m, behind', rfl, rfl, hcut'⟩ | ⟨rfl, hdone⟩
  · obtain ⟨cellsBehind, hdata⟩ := hb.data
    have hstore := store_text (some 0 :: cellsBehind)
      (List.append_assoc (pre ++ glue repl pieces) m (find ++ behind')).symm
      rfl hlen
    rw [← hdata] at hstore
    have hb' := @Holds.overwrite b _ ((pre ++ glue repl pieces) ++ m ++ (repl ++ behind'))
      cellsBehind hb hdata (by simp only [List.length_append]; omega)
    have hfront : (pre ++ glue repl pieces ++ m) ++ (repl ++ behind') =
        (pre ++ glue repl (pieces ++ [m])) ++ behind' := by
      rw [glue_snoc]
      simp only [List.append_assoc]
    refine .inl ⟨_, by
      rw [if_neg (by omega), hr.cells, ok_bind, hstore, ok_bind]
      rfl, ⟨pieces ++ [m], behind', hcut', by rw [← hfront]; exact hb', ?_⟩, ?_⟩
    · rw [hf.slen, glue_snoc]
      simp only [List.length_append]
      omega
    · dsimp only at hb ⊢
      rw [hb.slen, hf.slen]
      simp only [List.length_append]
      omega
  · rw [if_pos (by decide)]
    refine .inr ⟨b, rfl, ?_⟩
    rw [hdone, ← List.append_assoc]
    exact hb

/-! ### Closing up -/

/-- Bytes that are moved over those of earlier occurrences. -/
theorem closeUp_spec (front junk m : Bytes) (behind : Block UInt8) {pos acc i : ℤ}
    (hpos : pos = (front ++ junk).length) (hacc : acc = junk.length) (hi : i = pos + m.length) :
    ∃ junk' : Bytes, junk'.length = junk.length ∧
      closeUp ((front ++ (junk ++ m)).map some ++ behind) pos acc i =
        .ok ((front ++ (m ++ junk')).map some ++ behind) := by
  rw [List.length_append] at hpos
  rw [closeUp]
  split_ifs with h
  · obtain ⟨left, hleft, hmove⟩ := move_left_text front junk m behind (pos - acc) pos (i - pos)
      (by omega) (by omega) (by omega)
    refine ⟨left, hleft, ?_⟩
    simp only [List.map_append, List.append_assoc]
    exact hmove
  · by_cases hjunk : junk.length = 0
    · obtain rfl := List.length_eq_zero_iff.mp hjunk
      exact ⟨[], rfl, by rw [List.nil_append, List.append_nil]⟩
    · obtain rfl : m = [] := List.length_eq_zero_iff.mp (by omega)
      exact ⟨junk, rfl, by rw [List.nil_append, List.append_nil]⟩

/-- Copying a text over as many cells. -/
theorem Holds.put (hr : r.Holds repl) (before old behind : Block UInt8) {i : ℤ}
    (hi : i = before.length) (hlen : repl.length = old.length) :
    Tagbstring.put (before ++ (old ++ behind)) i r =
      .ok (before ++ (repl.map some ++ behind)) := by
  rw [Tagbstring.put]
  split_ifs with hempty
  · rw [hr.cells, ok_bind]
    exact store_append _ _ _ _ hi (by rwa [List.length_map])
  · have hslen := hr.slen
    obtain rfl : repl = [] := List.length_eq_zero_iff.mp (by omega)
    obtain rfl : old = [] := List.length_eq_zero_iff.mp hlen.symm
    rfl

/-- A string with the bytes `junk` between what is done and what is left. -/
structure Shrinking.At (s : Shrinking) (front junk behind : Bytes) : Prop where
  holds : s.b.Holds ((front ++ junk) ++ behind)
  pos : s.pos = (front ++ junk).length
  acc : s.acc = junk.length

/-- **A turn that shrinks the string**: the next piece and the new string are put behind
what is done. -/
theorem Shrinking.At.step {s : Shrinking} {front junk m behind : Bytes} {i : ℤ}
    (h : s.At front junk (m ++ (find ++ behind))) (hr : r.Holds repl)
    (hlen : repl.length ≤ find.length) (hi : i = (front ++ junk ++ m).length) :
    ∃ junk' closed data, closeUp s.b.data s.pos s.acc i = .ok closed ∧
      Tagbstring.put closed (i - s.acc) r = .ok data ∧
      At ⟨{ s.b with data := data }, i + find.length, s.acc + (find.length - repl.length)⟩
        (front ++ (m ++ repl)) junk' behind := by
  obtain ⟨cellsBehind, hdata⟩ := h.holds.data
  obtain ⟨left, hleft, hclose⟩ := closeUp_spec front junk m
    ((find ++ behind).map some ++ some 0 :: cellsBehind) h.pos h.acc
    (by rw [hi, h.pos, List.length_append, Nat.cast_add] : i = s.pos + m.length)
  have hdata' : s.b.data = (front ++ (junk ++ m)).map some ++
      ((find ++ behind).map some ++ some 0 :: cellsBehind) := by
    rw [hdata]
    simp only [List.map_append, List.append_assoc]
  obtain ⟨old, junk', hsplit, hold⟩ := exists_split (left ++ find) (n := repl.length) (by
    rw [List.length_append]
    omega)
  have hclosed : (front ++ (m ++ left)).map some ++ ((find ++ behind).map some ++
      some 0 :: cellsBehind) = (front ++ m).map some ++ (old.map some ++
        ((junk' ++ behind).map some ++ some 0 :: cellsBehind)) := by
    have hmap := congrArg (fun l => (front ++ m).map some ++ (l.map some ++
      (behind.map some ++ some 0 :: cellsBehind))) hsplit
    simpa only [List.map_append, List.append_assoc] using hmap
  have hlens := congrArg List.length hsplit
  simp only [List.length_append] at hlens
  have hput := hr.put ((front ++ m).map some) (old.map some)
    ((junk' ++ behind).map some ++ some 0 :: cellsBehind) (i := i - s.acc)
    (by rw [hi, h.acc, List.length_map]; simp only [List.length_append]; omega)
    (by rw [List.length_map, hold])
  rw [← hclosed] at hput
  refine ⟨junk', _, (front ++ (m ++ repl) ++ junk' ++ behind).map some ++ some 0 :: cellsBehind,
    by rw [hdata', hclose], ?_, ⟨?_, ?_, ?_⟩⟩
  · rw [hput]
    simp only [List.map_append, List.append_assoc]
  · exact h.holds.overwrite hdata (by simp only [List.length_append]; omega)
  · rw [hi]
    simp only [List.length_append]
    omega
  · rw [h.acc]
    dsimp only
    omega

/-- The text is done but for what is left, which is to stay. -/
def Shrinking.Left (s : Shrinking) (text : Bytes) : Prop :=
  ∃ front junk behind, s.At front junk behind ∧ text = front ++ behind

/-- The loop of the replacement by a shorter string. -/
theorem shrinking_spec {b : Tagbstring} {turns : ℕ} (hb : b.Holds (pre ++ rest))
    (hf : f.Holds find) (hr : r.Holds repl) (hne : find ≠ []) (hlen : repl.length ≤ find.length)
    (hturns : rest.length < turns) :
    ∃ s, loop (Shrinking.turn binstr f r (f.slen - r.slen)) turns ⟨b, pre.length, 0⟩ = .ok s ∧
      s.Left (pre ++ replaceFrom find repl 0 rest) := by
  have hpos := List.length_pos_iff.mpr hne
  refine loop_ends
    (fun s : Shrinking => ∃ pieces behind junk, Cut find rest pieces behind ∧
      s.At (pre ++ glue repl pieces) junk behind)
    (fun s => (s.b.slen - s.pos).toNat)
    (fun s : Shrinking => s.Left (pre ++ replaceFrom find repl 0 rest)) ?_
    ⟨[], rest, [], Cut.start find rest, by simpa using hb, by simp, rfl⟩ (by
      rw [hb.slen, List.length_append]
      dsimp only
      omega)
  rintro s ⟨pieces, behind, junk, hcut, hat⟩
  obtain ⟨p, hp, hfound⟩ := binstr_spec hat.holds hf (List.prefix_append _ behind).length_le
  rw [Shrinking.turn, hat.pos, hp, ok_bind]
  rcases hcut.next hne hfound with ⟨m, behind', rfl, rfl, hcut'⟩ | ⟨rfl, hdone⟩
  · obtain ⟨junk', closed, data, hclosed, hdata, hat'⟩ := hat.step hr hlen rfl
    rw [← hat.pos, hclosed, hf.slen, hr.slen, if_neg (by omega), ok_bind, hdata, ok_bind]
    refine .inl ⟨_, rfl, ⟨pieces ++ [m], behind', junk', hcut', ?_⟩, ?_⟩
    · rw [glue_snoc, ← List.append_assoc]
      exact hat'
    · have hslen := hat.holds.slen
      have hat := hat.pos
      simp only [List.length_append] at hslen hat ⊢
      omega
  · rw [if_pos (by decide)]
    refine .inr ⟨s, rfl, _, junk, behind, hat, ?_⟩
    rw [hdone, List.append_assoc]

/-- What is left is moved as well. -/
theorem Shrinking.finish_spec {s : Shrinking} {text : Bytes} (h : s.Left text) :
    ∃ b, s.finish = .ok (true, b) ∧ b.Holds text := by
  obtain ⟨front, junk, behind, hat, rfl⟩ := h
  have hslen := hat.holds.slen
  have hpos := hat.pos
  have hlen := hat.acc
  simp only [List.length_append] at hslen hpos
  rw [Shrinking.finish]
  split_ifs with hacc
  · obtain ⟨cellsBehind, hdata⟩ := hat.holds.data
    obtain ⟨left, hleft, hclose⟩ := closeUp_spec front junk behind (some 0 :: cellsBehind)
      hat.pos hat.acc (by omega : s.b.slen = s.pos + behind.length)
    have hcell : left.map some ++ some 0 :: cellsBehind ≠ [] := by simp
    obtain ⟨c, cellsLeft, hcell⟩ := List.exists_cons_of_ne_nil hcell
    obtain ⟨b', hb', hholds, -⟩ := @terminate_holds (front ++ behind) c cellsLeft s.b.mlen
      (s.b.slen - s.acc) ((front ++ (behind ++ left)).map some ++ some 0 :: cellsBehind)
      (by rw [← hcell]; simp only [List.map_append, List.append_assoc])
      (by rw [List.length_append]; omega)
      (by
        rw [hat.holds.mlen, hdata]
        simp only [List.length_append, List.length_map] at hleft ⊢
        omega) hat.holds.small
    refine ⟨b', ?_, hholds⟩
    rw [hdata, List.append_assoc front, hclose, ok_bind]
    exact hb'
  · obtain rfl : junk = [] := by
      have := hat.acc
      exact List.length_eq_zero_iff.mp (by omega)
    refine ⟨s.b, rfl, ?_⟩
    have := hat.holds
    rwa [List.append_nil] at this

/-! ### Collecting the occurrences -/

/-- Where the occurrences behind the pieces of a text are, for a text that starts at `n`. -/
def cuts (find : Bytes) : ℤ → List Bytes → List ℤ
  | _, [] => []
  | n, m :: ms => (n + m.length) :: cuts find (n + m.length + find.length) ms

/-- The places in the pieces behind others are shifted by their length. -/
theorem cuts_append (find : Bytes) (n : ℤ) (ms more : List Bytes) :
    cuts find n (ms ++ more) = cuts find n ms ++ cuts find (n + (glue find ms).length) more := by
  induction ms generalizing n with
  | nil => simp [cuts]
  | cons m ms ih =>
      have hglue :
          (glue find (m :: ms)).length = m.length + find.length + (glue find ms).length := by
        rw [glue, List.flatMap_cons, List.length_append, List.length_append]
        rfl
      rw [List.cons_append, cuts, cuts, ih, hglue, List.cons_append]
      congr 3
      push_cast
      omega

/-- One place for each piece. -/
theorem length_cuts (find : Bytes) (n : ℤ) (ms : List Bytes) :
    (cuts find n ms).length = ms.length := by
  induction ms generalizing n with
  | nil => rfl
  | cons m ms ih => rw [cuts, List.length_cons, List.length_cons, ih]

/-- The place behind some pieces and one more. -/
theorem cuts_getElem? (find : Bytes) (n : ℤ) (ms : List Bytes) (x : Bytes) (more : List Bytes) :
    (cuts find n (ms ++ x :: more))[ms.length]? = some (n + (glue find ms).length + x.length) := by
  rw [cuts_append, List.getElem?_append_right (by rw [length_cuts]), length_cuts, Nat.sub_self]
  rfl

/-- The array holds the places of the occurrences, and has room for another two entries or
has to grow. -/
structure Index.At (s : Index) (find pre : Bytes) (e : ℤ) (pieces : List Bytes) : Prop where
  pos : s.pos = (pre ++ glue find pieces).length
  slen : s.slen = pieces.length
  acc : s.acc = pieces.length * e
  small : s.acc ≤ intMax
  d : ∃ free, s.d = (cuts find pre.length pieces).map some ++ free
  size : s.mlen < s.d.length
  static : s.static = true → s.mlen = 32 ∧ s.d.length = 33
  room : s.slen < s.mlen

/-- The array becomes larger, unless there is no memory or there are too many occurrences. -/
theorem Index.At.grow_spec {s : Index} {e : ℤ} {pieces : List Bytes}
    (h : s.At find pre e pieces) (A : Allocator) :
    (∃ s', s.grow A = .ok (some s') ∧ s'.At find pre e pieces ∧ s'.slen + 1 < s'.mlen) ∨
    (s.grow A = .ok none ∧ (A.Ample → 134217727 ≤ pieces.length)) := by
  have hslen := h.slen
  have hroom := h.room
  obtain ⟨free, hd⟩ := h.d
  rw [Index.grow]
  split_ifs with hfull hmany hstatic
  · exact .inl ⟨s, rfl, h, by omega⟩
  · exact .inr ⟨rfl, fun _ => by omega⟩
  · -- the array on the stack is copied to a new one
    obtain ⟨hmlen, hsize⟩ := h.static hstatic
    have hcells : Memory.cells s.d 0 33 = .ok s.d := by
      have := cells_append [] s.d [] (i := 0) (n := 33) rfl (by rw [hsize]; rfl)
      rwa [List.append_nil] at this
    obtain ⟨old, new, hsplit, hold⟩ :=
      exists_split (alloc (8 * (s.mlen + s.mlen) / 4) : Block ℤ) (n := 33) (by
        rw [length_alloc]
        omega)
    have hstore : Memory.store (alloc (8 * (s.mlen + s.mlen) / 4)) 0 s.d = .ok (s.d ++ new) := by
      rw [hsplit]
      exact store_append [] old new s.d rfl (by rw [hsize, hold])
    have hlen := length_store hstore
    rw [length_alloc] at hlen
    dsimp only
    split_ifs with hmem
    · refine .inl ⟨{ s with d := s.d ++ new, static := false, mlen := s.mlen + s.mlen }, by
        rw [hcells, ok_bind, hstore, ok_bind]
        rfl, ⟨h.pos, h.slen, h.acc, h.small, ⟨free ++ new, ?_⟩, ?_, fun hs => ?_, ?_⟩, ?_⟩
      · rw [hd, List.append_assoc]
      · dsimp only
        omega
      · cases hs
      · dsimp only
        omega
      · dsimp only
        omega
    · exact .inr ⟨rfl, fun hA => absurd (hA.realloc _) hmem⟩
  · obtain ⟨free', heq, hlen⟩ := resize_append ((cuts find pre.length pieces).map some) free
      (n := 8 * (s.mlen + s.mlen) / 4) (by rw [List.length_map, length_cuts]; omega)
    rw [← hd] at heq
    dsimp only
    split_ifs with hmem
    · refine .inl ⟨{ s with d := resize s.d (8 * (s.mlen + s.mlen) / 4), mlen := s.mlen + s.mlen },
        rfl, ⟨h.pos, h.slen, h.acc, h.small, ⟨free', heq⟩, ?_, fun hs => absurd hs hstatic, ?_⟩, ?_⟩
      · dsimp only
        rw [heq]
        omega
      · dsimp only
        omega
      · dsimp only
        omega
    · exact .inr ⟨rfl, fun hA => absurd (hA.realloc _) hmem⟩

/-- Another place is entered. -/
theorem Index.At.store {s : Index} {e : ℤ} {pieces : List Bytes} (h : s.At find pre e pieces)
    (m : Bytes) {p : ℤ} (hp : p = (pre ++ glue find pieces ++ m).length) :
    ∃ free d, Memory.store s.d s.slen [some p] = .ok d ∧ d.length = s.d.length ∧
      d = (cuts find pre.length (pieces ++ [m])).map some ++ free := by
  have hslen := h.slen
  have hroom := h.room
  have hsize := h.size
  obtain ⟨free, hd⟩ := h.d
  have hlen := congrArg List.length hd
  rw [List.length_append, List.length_map, length_cuts] at hlen
  obtain ⟨c, free', rfl⟩ := List.exists_cons_of_ne_nil (l := free) (by
    rintro rfl
    rw [List.length_nil] at hlen
    omega)
  have hstore := store_cell ((cuts find pre.length pieces).map some) free' c (some p)
    (i := s.slen) (by rw [hslen, List.length_map, length_cuts])
  rw [← hd] at hstore
  refine ⟨free', _, hstore, length_store hstore, ?_⟩
  rw [cuts_append, List.map_append, List.append_assoc, hp]
  simp only [cuts, List.length_append, Nat.cast_add]
  rfl

/-- What the search for the occurrences ends with: the places of all of them, or nothing, if
the text with the new strings is too long. -/
def Collected (A : Allocator) (find repl pre rest : Bytes) (e : ℤ) (o : Option Index) : Prop :=
  (o = none ∧ (A.Ample → 134217727 ≤ (pre ++ replaceFrom find repl 0 rest).length)) ∨
  ∃ s pieces behind, o = some s ∧ s.At find pre e pieces ∧ rest = glue find pieces ++ behind ∧
    replaceFrom find repl 0 rest = glue repl pieces ++ behind

/-- **The search for the occurrences.** -/
theorem collect_spec {b : Tagbstring} {turns : ℕ} (A : Allocator) (hb : b.Holds (pre ++ rest))
    (hf : f.Holds find) (hne : find ≠ []) {e : ℤ} (he : (repl.length : ℤ) = find.length + e)
    (hpos : 0 < e) (hsmall : e ≤ intMax) (hturns : rest.length < turns) :
    ∃ o, loop (Index.turn A binstr b f (-e)) turns ⟨pre.length, alloc 33, true, 32, 0, 0⟩ = .ok o ∧
      Collected A find repl pre rest e o := by
  have hfind := List.length_pos_iff.mpr hne
  have hslen := hb.slen
  have hroom := hb.room
  have hmlen := hb.small
  rw [List.length_append] at hslen hroom
  rw [intMax] at hsmall hmlen
  refine loop_ends
    (fun s : Index => ∃ pieces behind, Cut find rest pieces behind ∧ s.At find pre e pieces)
    (fun s => (b.slen - s.pos).toNat) (Collected A find repl pre rest e) ?_
    ⟨[], rest, Cut.start find rest, by simp, rfl, by simp, by dsimp only; rw [intMax]; omega,
      ⟨_, rfl⟩, by simp, by simp, by simp⟩ (by dsimp only; omega)
  rintro s ⟨pieces, behind, hcut, hat⟩
  have hholds : b.Holds ((pre ++ glue find pieces) ++ behind) := by
    rw [List.append_assoc, ← hcut.text]
    exact hb
  obtain ⟨p, hp, hfound⟩ := binstr_spec hholds hf (List.prefix_append _ behind).length_le
  rw [Index.turn, hat.pos, hp, ok_bind]
  rcases hcut.next hne hfound with ⟨m, behind', rfl, rfl, hcut'⟩ | ⟨rfl, hdone⟩
  · have hlong := hcut'.length_le he
    rw [if_neg (by omega)]
    rcases hat.grow_spec A with ⟨s₁, hgrow, hat₁, hroom₁⟩ | ⟨hgrow, hmany⟩
    · obtain ⟨free, d, hstore, hlen, hd⟩ := hat₁.store m rfl
      rw [hgrow, ok_bind]
      dsimp only
      rw [hstore, ok_bind, sub_neg_eq_add]
      have hend : ((pre ++ glue find pieces ++ m).length : ℤ) + f.slen =
          (pre ++ glue find (pieces ++ [m])).length := by
        rw [hf.slen, glue_snoc]
        simp only [List.length_append]
        omega
      have hfits : (pre ++ glue find (pieces ++ [m])).length ≤ pre.length + rest.length := by
        rw [hcut'.text]
        simp only [List.length_append]
        omega
      have hcount : ((pieces ++ [m]).length : ℤ) = pieces.length + 1 := by
        rw [List.length_append, List.length_singleton, Nat.cast_add, Nat.cast_one]
      have hmul : ((pieces ++ [m]).length : ℤ) * e = s₁.acc + e := by
        rw [hat₁.acc, hcount, add_mul, one_mul]
      have hnonneg : 0 ≤ s₁.acc := by
        rw [hat₁.acc]
        exact mul_nonneg (Int.natCast_nonneg _) hpos.le
      have hacc := hat₁.small
      rw [intMax] at hacc
      rw [hend, int_eq (x := ((pre ++ glue find (pieces ++ [m])).length : ℤ))
        (by rw [intMax]; omega) (by rw [intMax]; omega)]
      by_cases hover : s₁.acc + e ≤ intMax
      · rw [int_eq (by rw [intMax]; omega) hover, if_neg (by omega)]
        refine .inl ⟨_, rfl, ⟨pieces ++ [m], behind', hcut', rfl, ?_, hmul.symm, hover,
          ⟨free, hd⟩, ?_, fun hs => ?_, ?_⟩, ?_⟩
        · rw [hcount, ← hat₁.slen]
        · rw [hlen]
          exact hat₁.size
        · rw [hlen]
          exact hat₁.static hs
        · dsimp only
          exact hroom₁
        · have hold := hat.pos
          rw [glue_snoc] at hfits ⊢
          simp only [List.length_append] at hold hfits ⊢
          omega
      · have := int_neg (x := s₁.acc + e) (by omega) (by omega)
        rw [if_pos (.inr this)]
        refine .inr ⟨none, rfl, .inl ⟨rfl, fun _ => ?_⟩⟩
        rw [intMax] at hover
        rw [List.length_append]
        omega
    · rw [hgrow, ok_bind]
      refine .inr ⟨none, rfl, .inl ⟨rfl, fun hA => ?_⟩⟩
      have hcount := hmany hA
      have hmul : (pieces.length : ℤ) ≤ pieces.length * e := by
        nlinarith
      have := hcut.length_le he
      rw [List.length_append]
      omega
  · rw [if_pos (by decide)]
    exact .inr ⟨some s, rfl, .inr ⟨s, pieces, behind, rfl, hat, hcut.text, hdone repl⟩⟩

/-! ### Moving the pieces -/

/-- Before a turn of the loop that moves the pieces: `x` is to be moved next, what comes
behind it is in place. -/
structure Placing.At (find repl pre final : Bytes) (e : ℤ) (spare : Block UInt8) (s : Placing)
    (ms : List Bytes) (x done : Bytes) : Prop where
  i : s.i + 1 = ms.length
  acc : s.acc = ms.length * e
  data : ∃ gap : Block UInt8, (gap.length : ℤ) = ms.length * e ∧
    s.data = (pre ++ glue find ms ++ x).map some ++ (gap ++ (done.map some ++ spare))
  final : final = pre ++ glue repl ms ++ (x ++ done)

/-- A piece is moved to the right. -/
theorem slide_spec (before : Block UInt8) (x : Bytes) (gap behind : Block UInt8) {src dst : ℤ}
    (hsrc : src = before.length) (hdst : dst = src + gap.length) :
    ∃ left : Block UInt8, left.length = gap.length ∧
      slide (before ++ (x.map some ++ (gap ++ behind))) dst src x.length =
        .ok (before ++ (left ++ (x.map some ++ behind))) := by
  rw [slide]
  split_ifs with hx
  · exact move_right _ _ gap _ _ _ _ hsrc (by rw [List.length_map]) hdst
  · obtain rfl : x = [] := List.length_eq_zero_iff.mp (by omega)
    exact ⟨gap, rfl, rfl⟩

/-- **A turn of the loop that moves the pieces.** -/
theorem Placing.At.step {s : Placing} {final : Bytes} {e : ℤ} {spare : Block UInt8}
    {ms : List Bytes} {m x done : Bytes} {d : Block ℤ}
    (h : s.At find repl pre final e spare (ms ++ [m]) x done) (hf : f.Holds find)
    (hr : r.Holds repl) (he : (repl.length : ℤ) = find.length + e) (hpos : 0 < e)
    (hdi : load d s.i = .ok (pre.length + (glue find ms).length + m.length))
    (hnext : load d (s.i + 1) = .ok (pre.length + (glue find (ms ++ [m])).length + x.length)) :
    ∃ s', s.turn d f r (-e) = .ok (.inl s') ∧
      s'.At find repl pre final e spare ms m (repl ++ (x ++ done)) ∧ s'.i = s.i - 1 := by
  obtain ⟨gap, hgap, hdata⟩ := h.data
  have hcount : ((ms ++ [m]).length : ℤ) = ms.length + 1 := by
    rw [List.length_append, List.length_singleton, Nat.cast_add, Nat.cast_one]
  have hi := h.i
  have hacc := h.acc
  rw [hcount, add_mul, one_mul] at hgap hacc
  have hnonneg : 0 ≤ (ms.length : ℤ) * e := mul_nonneg (Int.natCast_nonneg _) hpos.le
  have hl : (pre.length : ℤ) + (glue find (ms ++ [m])).length + x.length -
      (pre.length + (glue find ms).length + m.length + f.slen) = x.length := by
    rw [hf.slen, glue_snoc]
    simp only [List.length_append]
    omega
  -- the piece behind the occurrence is moved
  have hpieces : s.data = (pre ++ glue find ms ++ m ++ find).map some ++
      (x.map some ++ (gap ++ (done.map some ++ spare))) := by
    rw [hdata, glue_snoc]
    simp only [List.map_append, List.append_assoc]
  obtain ⟨left, hleft, hslide⟩ := slide_spec ((pre ++ glue find ms ++ m ++ find).map some) x gap
    (done.map some ++ spare)
    (by rw [hf.slen, List.length_map]; simp only [List.length_append]; omega :
      (pre.length + (glue find ms).length + m.length + f.slen : ℤ) = _)
    (by omega : (pre.length + (glue find ms).length + m.length + f.slen + s.acc : ℤ) = _)
  rw [← hpieces] at hslide
  -- the new string goes before it
  obtain ⟨gap', old, hsplit, hgap'⟩ := exists_split (find.map some ++ left)
    (n := ((ms.length : ℤ) * e).toNat) (by
      rw [List.length_append, List.length_map]
      omega)
  have hlens := congrArg List.length hsplit
  rw [List.length_append, List.length_append, List.length_map] at hlens
  have hput := hr.put ((pre ++ glue find ms ++ m).map some ++ gap') old
    (x.map some ++ (done.map some ++ spare))
    (i := pre.length + (glue find ms).length + m.length + f.slen + s.acc - r.slen) (by
      rw [hf.slen, hr.slen, List.length_append, List.length_map]
      simp only [List.length_append]
      omega) (by omega)
  have hmoved : (pre ++ glue find ms ++ m ++ find).map some ++
      (left ++ (x.map some ++ (done.map some ++ spare))) =
      ((pre ++ glue find ms ++ m).map some ++ gap') ++
        (old ++ (x.map some ++ (done.map some ++ spare))) := by
    have hmap := congrArg (fun l => (pre ++ glue find ms ++ m).map some ++
      (l ++ (x.map some ++ (done.map some ++ spare)))) hsplit
    simpa only [List.map_append, List.append_assoc] using hmap
  refine ⟨⟨s.i - 1, s.acc + -e, ((pre ++ glue find ms ++ m).map some ++ gap') ++
    (repl.map some ++ (x.map some ++ (done.map some ++ spare)))⟩, ?_,
    ⟨?_, ?_, ⟨gap', ?_, ?_⟩, ?_⟩, rfl⟩
  · rw [Placing.turn, if_neg (by omega), hdi, ok_bind]
    dsimp only
    rw [hnext, ok_bind, hl, hslide, ok_bind, hmoved, hput, ok_bind]
    rfl
  · dsimp only
    omega
  · dsimp only
    omega
  · omega
  · simp only [List.map_append, List.append_assoc]
  · rw [h.final, glue_snoc]
    simp only [List.append_assoc]

/-- **The loop that moves the pieces.** -/
theorem placing_spec {e : ℤ} {pieces : List Bytes} {behind : Bytes} {d free : Block ℤ}
    {gap spare : Block UInt8} {turns : ℕ} (hf : f.Holds find) (hr : r.Holds repl)
    (he : (repl.length : ℤ) = find.length + e) (hpos : 0 < e)
    (hd : d = (cuts find pre.length (pieces ++ [behind])).map some ++ free)
    (hgap : (gap.length : ℤ) = pieces.length * e) (hturns : pieces.length < turns) :
    ∃ data, loop (Placing.turn d f r (-e)) turns ⟨pieces.length - 1, pieces.length * e,
        (pre ++ glue find pieces ++ behind).map some ++ (gap ++ spare)⟩ = .ok data ∧
      data = (pre ++ glue repl pieces ++ behind).map some ++ spare := by
  refine loop_ends
    (fun s : Placing => ∃ ms x more done, pieces ++ [behind] = ms ++ x :: more ∧
      s.At find repl pre (pre ++ glue repl pieces ++ behind) e spare ms x done)
    (fun s => (s.i + 1).toNat)
    (fun data : Block UInt8 => data = (pre ++ glue repl pieces ++ behind).map some ++ spare) ?_
    ⟨pieces, behind, [], [], rfl, by simp, rfl, ⟨gap, hgap, rfl⟩, by simp⟩ (by simpa using hturns)
  rintro s ⟨ms, x, more, done, heq, hat⟩
  have hi := hat.i
  have hload : ∀ {i : ℤ} {ms x more}, pieces ++ [behind] = ms ++ x :: more → i = ms.length →
      load d i = .ok (pre.length + (glue find ms).length + x.length) := by
    rintro i ms x more hsplit rfl
    rw [hd, hsplit]
    exact load_text free (Int.natCast_nonneg _) (cuts_getElem? find _ ms x more)
  rcases List.eq_nil_or_concat ms with rfl | ⟨ms, m, rfl⟩
  · obtain ⟨gap', hgap', hdata'⟩ := hat.data
    obtain rfl : gap' = [] := List.length_eq_zero_iff.mp (by simpa using hgap')
    refine .inr ⟨s.data, ?_, ?_⟩
    · rw [List.length_nil] at hi
      rw [Placing.turn.eq_def, if_pos (by omega)]
    · rw [hdata', hat.final]
      simp only [glue_nil, List.append_nil, List.nil_append, List.map_append, List.append_assoc]
  · rw [List.concat_eq_append] at heq hat hi
    have hcount : ((ms ++ [m]).length : ℤ) = ms.length + 1 := by
      rw [List.length_append, List.length_singleton, Nat.cast_add, Nat.cast_one]
    have hsplit : pieces ++ [behind] = ms ++ m :: (x :: more) := by
      rw [heq, List.append_assoc]
      rfl
    obtain ⟨s', hs', hat', hi'⟩ := hat.step hf hr he hpos (hload hsplit (by omega))
      (hload heq (by omega))
    exact .inl ⟨s', hs', ⟨ms, m, x :: more, _, hsplit, hat'⟩, by omega⟩

/-- The size that is asked for is a sum that has not wrapped around, or no size at all. -/
theorem int_succ_cases {x : ℤ} (h0 : 0 ≤ x) (hx : x < 4294967295) :
    (x < intMax ∧ int x = x ∧ int (int x + 1) = x + 1) ∨
      (intMax ≤ x ∧ int (int x + 1) ≤ 0) := by
  by_cases hlt : x < intMax
  · have hint : int x = x := int_eq (by rw [intMax]; omega) hlt.le
    exact .inl ⟨hlt, hint, by rw [hint]; exact int_eq (by rw [intMax]; omega) (by omega)⟩
  · refine .inr ⟨by omega, ?_⟩
    by_cases heq : x = intMax
    · rw [heq]
      decide
    · rw [intMax] at hlt heq
      rw [int_wrap (x := x) (by rw [intMax]; omega) (by omega),
        int_eq (by rw [intMax]; omega) (by rw [intMax]; omega)]
      omega

/-- **Replacing by a longer string**, once the occurrences are known: there is room for all
of the new text, or the string stays as it was. -/
theorem expand_spec {b : Tagbstring} {s : Index} {e : ℤ} {pieces : List Bytes} {behind : Bytes}
    {turns : ℕ} (A : Allocator) (hb : b.Holds (pre ++ (glue find pieces ++ behind)))
    (hf : f.Holds find) (hr : r.Holds repl) (he : (repl.length : ℤ) = find.length + e)
    (hpos : 0 < e) (hat : s.At find pre e pieces) (hturns : pieces.length < turns) :
    ∃ d, Memory.store s.d s.slen [some b.slen] = .ok d ∧
      ((∃ b' data b'', balloc A b (int (int (b.slen + s.acc) + 1)) = .ok (true, b') ∧
        loop (Placing.turn d f r (-e)) turns ⟨s.slen - 1, s.acc, b'.data⟩ = .ok data ∧
        terminate ⟨b'.mlen, b'.slen + s.acc, data⟩ = .ok (true, b'') ∧
        b''.Holds (pre ++ (glue repl pieces ++ behind))) ∨
      (balloc A b (int (int (b.slen + s.acc) + 1)) = .ok (false, b) ∧
        (A.Ample → 134217727 ≤ (pre ++ (glue repl pieces ++ behind)).length))) := by
  have hslen := hb.slen
  have hacc := hat.acc
  have hroom := hb.room
  have hsmall := hb.small
  have haccsmall := hat.small
  have hnonneg : 0 ≤ (pieces.length : ℤ) * e := mul_nonneg (Int.natCast_nonneg _) hpos.le
  have hlong := length_glue he pieces
  rw [← List.append_assoc] at hslen hroom ⊢
  obtain ⟨free, d, hstore, -, hd⟩ := hat.store behind (p := b.slen) hslen
  refine ⟨d, hstore, ?_⟩
  simp only [List.length_append] at hslen hroom
  rw [intMax] at hsmall haccsmall
  have hsum := @int_succ_cases (b.slen + s.acc) (by omega) (by omega)
  rcases balloc_cases hb A (int_le (int (b.slen + s.acc) + 1)) with
    ⟨b', hok, hholds, hpos', hle, -⟩ | ⟨hfail, hample⟩
  · obtain ⟨hlt, -, hsize⟩ | ⟨-, hneg⟩ := hsum
    · rw [hsize] at hle
      obtain ⟨rest, hdata⟩ := hholds.data
      have hmlen := hholds.mlen
      rw [hdata] at hmlen
      simp only [List.length_append, List.length_map, List.length_cons] at hmlen
      obtain ⟨gap, c, spare, hsplit, hgap⟩ := exists_split_cell (some 0 :: rest)
        (n := ((pieces.length : ℤ) * e).toNat) (by
          rw [List.length_cons]
          omega)
      obtain ⟨data, hrun, rfl⟩ := @placing_spec find repl pre f r e pieces behind d free gap
        (c :: spare) turns hf hr he hpos hd (by omega) hturns
      obtain ⟨b'', hb'', hholds'', -⟩ := @terminate_holds (pre ++ glue repl pieces ++ behind) c
        spare b'.mlen (b'.slen + s.acc) _ rfl (by
          rw [hholds.slen]
          simp only [List.length_append]
          omega) (by
          have := congrArg List.length hsplit
          simp only [List.length_append, List.length_cons, List.length_map] at this ⊢
          omega) hholds.small
      refine .inl ⟨b', _, b'', hok, ?_, hb'', hholds''⟩
      rw [hat.slen, hacc, hdata, hsplit, ← List.append_assoc pre]
      exact hrun
    · omega
  · refine .inr ⟨hfail, fun hA => ?_⟩
    obtain ⟨-, -, hsize⟩ | ⟨hlarge, -⟩ := hsum
    · have := hample hA
      omega
    · rw [intMax] at hlarge
      simp only [List.length_append]
      omega

end

/-- **Find and replace.** All occurrences from a position on are replaced, in the order in
which they are found; or the string stays as it was, and that only happens when there is
nothing to look for, or there is no memory for the result. -/
theorem bfindreplace_cases {b f r : Tagbstring} {text find repl : Bytes} (hb : b.Holds text)
    (hf : f.Holds find) (hr : r.Holds repl) (A : ℕ → Allocator) (pos : ℤ) :
    (∃ b', bfindreplace A b f r pos = .ok (true, b') ∧
      b'.Holds (Yogigen.bfindreplace text find repl pos)) ∨
    (bfindreplace A b f r pos = .ok (false, b) ∧ (pos < 0 ∨ find = [] ∨
      (Plenty A → 134217727 ≤ (Yogigen.bfindreplace text find repl pos).length))) := by
  have hslen := hb.slen
  have hvalid := hb.valid
  rw [bfindreplace, findreplaceengine, Yogigen.bfindreplace]
  by_cases hbad : pos < 0 ∨ find = []
  · refine .inr ⟨if_pos ?_, by tauto⟩
    rcases hbad with h | rfl
    · exact .inl h
    · exact .inr (.inl (by rw [hf.slen]; rfl))
  · obtain ⟨hpos, hne⟩ := not_or.mp hbad
    have hfind := List.length_pos_iff.mpr hne
    rw [if_neg hbad, if_neg (by rw [hf.slen, hr.slen]; omega), hf.slen]
    by_cases hroom : (text.length : ℤ) - find.length < pos
    · rw [if_pos (by omega), replaceFrom_none, List.take_append_drop]
      · exact .inl ⟨b, rfl, hb⟩
      · intro q hq
        have := (occursAt_drop_iff.mp hq).length_le hne
        omega
    · rw [if_neg (by omega)]
      obtain ⟨pre, rest, rfl, hpre⟩ := exists_split text (n := pos.toNat) (by omega)
      obtain rfl : pos = pre.length := by omega
      rw [← hpre, List.take_left, List.drop_left]
      have hturns : rest.length < (b.slen + 1).toNat := by
        rw [hslen, List.length_append]
        omega
      by_cases heq : repl.length = find.length
      · obtain ⟨b', hrun, hholds⟩ := overwrite_spec hb hf hr hne heq hturns
        refine .inl ⟨b', ?_, hholds⟩
        rw [if_pos (by rw [hr.slen]; omega), hrun]
        rfl
      · rw [if_neg (by rw [hr.slen]; omega)]
        by_cases hless : repl.length < find.length
        · obtain ⟨s, hrun, hleft⟩ := shrinking_spec hb hf hr hne hless.le hturns
          obtain ⟨b', hfinish, hholds⟩ := Shrinking.finish_spec hleft
          refine .inl ⟨b', ?_, hholds⟩
          rw [hf.slen] at hrun
          rw [if_pos (by rw [hr.slen]; omega), hrun]
          exact hfinish
        · have he : (repl.length : ℤ) = find.length + (r.slen - find.length) := by
            rw [hr.slen]
            omega
          have hdelta : (find.length : ℤ) - r.slen = -(r.slen - find.length) := by
            omega
          have hsmall : r.slen - find.length ≤ intMax := by
            have := hr.room
            have := hr.small
            rw [hr.slen]
            omega
          have hgrow : 0 < r.slen - find.length := by
            rw [hr.slen]
            omega
          obtain ⟨o, hrun, hcollected⟩ := collect_spec (A 0) hb hf hne he hgrow hsmall hturns
          rw [if_neg (by omega), hdelta, hrun, ok_bind]
          rcases hcollected with ⟨rfl, hlarge⟩ | ⟨s, pieces, behind, rfl, hat, rfl, hdone⟩
          · exact .inr ⟨rfl, .inr (.inr fun h => hlarge (h 0))⟩
          · rw [hdone]
            have hcount := length_le_glue hne pieces
            obtain ⟨d, hstore, ⟨b', data, b'', hballoc, hplace, hterm, hholds⟩ | ⟨hfail, hlarge⟩⟩ :=
              @expand_spec find repl pre f r b s _ pieces behind (b.slen + 1).toNat (A 1) hb hf hr
                he hgrow hat (by rw [List.length_append] at hturns; omega)
            · refine .inl ⟨b'', ?_, hholds⟩
              dsimp only
              rw [hstore, ok_bind, hballoc, ok_bind]
              dsimp only
              rw [if_pos rfl, hplace, ok_bind]
              exact hterm
            · refine .inr ⟨?_, .inr (.inr fun h => hlarge (h 1))⟩
              dsimp only
              rw [hstore, ok_bind, hfail]
              rfl

end Tagbstring

end Yogigen
