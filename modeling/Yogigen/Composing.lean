import Yogigen.Buffers
import Yogigen.Substitution

/-!
# Composing a Phrase in Memory

`substitute_and_prettify` once more, on the strings themselves: the copy of the format that
becomes the phrase, and the strings of the table entries, each in a block of its own. It
refines the function on lists of bytes: with enough memory every call and every sequence of
calls does what that function does, on tables that go on to hold the same texts, and no
access leaves a block or reads what was not written.

Without memory for the copy of the format, `out` is NULL, which the string functions leave
alone, but the capitalisation does not.

## Main results

* `bstrchrp_eq`, `bstrrchrp_eq`: searching in memory.
* `storedStep_refines`, `storedCapitalise_refines`: one position, and the capitals.
* `storedSubstitute_refines`, `storedCalls_refines`: one call, and any number of calls.
-/

open Memory Printf

namespace Yogigen

namespace Tagbstring

/-! ### Searching for a byte -/

/-- `memchr`, with the index of the byte, or -1. -/
def memchr (m : Block UInt8) (c : UInt8) : ℕ → ℤ → Except Violation ℤ
  | 0, _ => .ok (-1)
  | n + 1, i => do
      let a ← load m i
      if a = c then return i else memchr m c n (i + 1)

/-- `bstrchrp`. -/
def bstrchrp (b : Tagbstring) (c : UInt8) (pos : ℤ) : Except Violation ℤ :=
  if b.slen ≤ pos ∨ pos < 0 then .ok (-1) else memchr b.data c (b.slen - pos).toNat pos

/-- The loop of `bstrrchrp`, over the bytes before `n`. -/
def lastBefore (m : Block UInt8) (c : UInt8) : ℕ → Except Violation ℤ
  | 0 => .ok (-1)
  | i + 1 => do
      let a ← load m i
      if a = c then return i else lastBefore m c i

/-- `bstrrchrp`; `bstrrchr` starts at the last byte. -/
def bstrrchrp (b : Tagbstring) (c : UInt8) (pos : ℤ) : Except Violation ℤ :=
  if b.slen ≤ pos ∨ pos < 0 then .ok (-1) else lastBefore b.data c (pos + 1).toNat

/-- `memchr` finds the first occurrence in the text. -/
theorem memchr_eq (before behind : Bytes) (rest : Block UInt8) (c : UInt8) {i : ℤ}
    (hi : i = before.length) :
    memchr ((before ++ behind).map some ++ rest) c behind.length i =
      .ok ((behind.idxOf? c).elim (-1) fun k => i + k) := by
  induction behind generalizing before i with
  | nil => rfl
  | cons a behind ih =>
      have hload : load ((before ++ a :: behind).map some ++ rest) i = .ok a := by
        refine load_text rest (by omega) ?_
        rw [hi, Int.toNat_natCast, List.getElem?_append_right le_rfl, Nat.sub_self,
          List.getElem?_cons_zero]
      rw [List.length_cons, memchr, hload, ok_bind, List.idxOf?_cons]
      by_cases h : a = c
      · rw [if_pos h, if_pos (beq_iff_eq.mpr h)]
        exact congrArg Except.ok (add_zero i).symm
      · have hnext := ih (before ++ [a]) (i := i + 1) (by
          rw [hi, List.length_append, List.length_singleton, Nat.cast_add, Nat.cast_one])
        rw [List.append_assoc, List.singleton_append] at hnext
        rw [if_neg h, if_neg (by rwa [beq_iff_eq]), hnext]
        cases behind.idxOf? c with
        | none => rfl
        | some k =>
            refine congrArg Except.ok ?_
            simp only [Option.elim, Option.map]
            omega

/-- `bstrchrp` in memory is the search on lists of bytes. -/
theorem bstrchrp_eq {b : Tagbstring} {s : Bytes} (h : b.Holds s) (c : UInt8) (pos : ℤ) :
    bstrchrp b c pos = .ok (Yogigen.bstrchrp s c pos) := by
  obtain ⟨rest, hdata⟩ := h.data
  rw [bstrchrp, Yogigen.bstrchrp, h.slen]
  split_ifs with hout
  · rfl
  · obtain ⟨before, behind, rfl, hbefore⟩ := exists_split s (n := pos.toNat) (by omega)
    have hlen : (((before ++ behind).length : ℤ) - pos).toNat = behind.length := by
      rw [List.length_append]
      omega
    rw [hdata, hlen, ← hbefore, List.drop_left, memchr_eq _ _ _ _ (by omega)]
    cases behind.idxOf? c <;> rfl

/-- So is the loop of `bstrrchrp`. -/
theorem lastBefore_eq (s : Bytes) (rest : Block UInt8) (c : UInt8) {i : ℕ} (hi : i < s.length) :
    lastBefore (s.map some ++ rest) c (i + 1) = .ok (lastAt s c i) := by
  have hload : ∀ k : ℕ, k ≤ i → load (s.map some ++ rest) k = .ok (s[k]?.getD 0) := by
    intro k hk
    have hlt : k < s.length := by omega
    refine load_text rest (Int.natCast_nonneg k) ?_
    rw [Int.toNat_natCast, List.getElem?_eq_getElem hlt]
    rfl
  have hget : ∀ k : ℕ, k ≤ i → (s[k]?.getD 0 = c ↔ s[k]? = some c) := by
    intro k hk
    rw [List.getElem?_eq_getElem (by omega), Option.getD_some, Option.some.injEq]
  induction i with
  | zero =>
      rw [lastBefore, hload 0 le_rfl, ok_bind, lastAt]
      by_cases h : s[0]? = some c
      · rw [if_pos h, if_pos ((hget 0 le_rfl).mpr h)]
        rfl
      · rw [if_neg h, if_neg (mt (hget 0 le_rfl).mp h)]
        rfl
  | succ i ih =>
      rw [lastBefore, hload (i + 1) le_rfl, ok_bind, lastAt]
      by_cases h : s[i + 1]? = some c
      · rw [if_pos h, if_pos ((hget (i + 1) le_rfl).mpr h)]
        rfl
      · rw [if_neg h, if_neg (mt (hget (i + 1) le_rfl).mp h)]
        exact ih (by omega) (fun k hk => hload k (by omega)) fun k hk => hget k (by omega)

/-- And `bstrrchrp` itself. -/
theorem bstrrchrp_eq {b : Tagbstring} {s : Bytes} (h : b.Holds s) (c : UInt8) (pos : ℤ) :
    bstrrchrp b c pos = .ok (Yogigen.bstrrchrp s c pos) := by
  obtain ⟨rest, hdata⟩ := h.data
  rw [bstrrchrp, Yogigen.bstrrchrp, h.slen]
  split_ifs with hout
  · rfl
  · rw [hdata, show (pos + 1).toNat = pos.toNat + 1 by omega]
    exact lastBefore_eq s _ c (by omega)

/-! ### Stored tables -/

/-- `struct expression`, with its strings. -/
structure StoredExpression where
  type : UInt8
  flags : UInt8
  field1 : Tagbstring
  field2 : Tagbstring

/-- The string of an expression for a mode. -/
def StoredExpression.field (e : StoredExpression) (mode : Bool) : Tagbstring :=
  if mode then e.field2 else e.field1

/-- The expression with another string in one of its fields. -/
def StoredExpression.setField (e : StoredExpression) (mode : Bool) (b : Tagbstring) :
    StoredExpression :=
  if mode then { e with field2 := b } else { e with field1 := b }

/-- The entries of the four tables. -/
abbrev StoredTables := ExprType → List StoredExpression

/-- Write through the pointer that `get_expression` returned. -/
def StoredTables.set (T : StoredTables) (idx : UInt16) (type : ExprType) (e : StoredExpression) :
    StoredTables :=
  Function.update T type ((T type).set idx.toNat e)

/-- The lookup of `substitute_and_prettify`. -/
def storedLookup (T : StoredTables) (s : SubstitutionData) (i : Fin 8) : Option StoredExpression :=
  (T (s.types i))[(s.ins i).toUInt16.toNat]?

/-! ### Substitution -/

/-- A function of the library, which leaves NULL alone; its status is not looked at. -/
def unlessNull (f : Tagbstring → Status) : Option Tagbstring → Except Violation (Option Tagbstring)
  | none => .ok none
  | some b => do
      let (_, b) ← f b
      return some b

/-- `bstrchr`, on a string that may be NULL. -/
def findUnlessNull (c : UInt8) : Option Tagbstring → Except Violation ℤ
  | none => .ok (-1)
  | some b => bstrchrp b c 0

/-- `binsert` of a string that may be NULL. -/
def prefixWith (A : Allocator) (insert : Tagbstring) :
    Option Tagbstring → Except Violation Tagbstring
  | none => .ok insert
  | some fill => do
      let (_, insert) ← binsert A insert 0 fill 32
      return insert

/-- One iteration of the loop of `substitute_and_prettify`; `none` is the failed check. -/
def storedStep (A : Allocator) (T : StoredTables) (s : SubstitutionData) (i : Fin 8)
    (out : Option Tagbstring) : Except Violation (Option (StoredTables × Option Tagbstring)) :=
  match storedLookup T s i with
  | none => .ok none
  | some expr => do
      let insert := expr.field (s.modes i)
      let pos ← findUnlessNull 37 out
      if s.flags i = .indefArt ∧ expr.flags = aOflagAn then do
        let fill ← bfromcstr A (ascii "n ")
        let insert ← prefixWith A insert fill
        let T := T.set (s.ins i).toUInt16 (s.types i) (expr.setField (s.modes i) insert)
        let out ← unlessNull (fun b => bdelete b (pos - 1) 3) out
        let out ← unlessNull (fun b => binsert A b (pos - 1) insert 32) out
        return some (T, out)
      else do
        let out ← unlessNull (fun b => bdelete b pos 2) out
        let out ← unlessNull (fun b => binsert A b pos insert 32) out
        return some (T, out)

/-- The loop of `substitute_and_prettify` from position `i`, with `n` positions after it. -/
def storedLoop (A : Allocator) (s : SubstitutionData) (n i : ℕ) (T : StoredTables)
    (out : Option Tagbstring) : Except Violation (Option (StoredTables × Option Tagbstring)) :=
  if hi : i < 8 then do
    let r ← storedStep A T s ⟨i, hi⟩ out
    match r with
    | none => return none
    | some (T, out) =>
        match n with
        | 0 => return some (T, out)
        | n + 1 => storedLoop A s n (i + 1) T out
  else .error .outOfBounds

/-- Capitalise a lowercase byte. -/
def storedCapitaliseAt (out : Tagbstring) (i : ℤ) : Except Violation Tagbstring := do
  let c ← load out.data i
  if islower c then do
    let data ← store out.data i [some (toupper c)]
    return { out with data := data }
  else return out

/-- A turn of the loop over the dots. -/
def dotTurn (s : Tagbstring × ℤ) : Except Violation ((Tagbstring × ℤ) ⊕ Tagbstring) :=
  if s.2 = -1 then .ok (.inr s.1)
  else do
    let out ← storedCapitaliseAt s.1 (s.2 + 2)
    let dotPos ← bstrrchrp out 46 (s.2 - 1)
    return .inl (out, dotPos)

/-- The capitalisation of `substitute_and_prettify`. -/
def storedCapitalise (out : Tagbstring) : Except Violation Tagbstring := do
  let out ← storedCapitaliseAt out 0
  let last ← bstrrchrp out 46 (out.slen - 1)
  let dotPos ← bstrrchrp out 46 (last - 1)
  loop dotTurn (out.slen + 2).toNat (out, dotPos)

/-- `substitute_and_prettify`, for data whose format has the string `str`. -/
def storedSubstitute (A : Allocator) (T : StoredTables) (str : Tagbstring) (s : SubstitutionData) :
    Except Violation (Option (Tagbstring × StoredTables)) := do
  let out ← bstrcpy A str
  let r ← storedLoop A s (s.count.toInt - 1).toNat 0 T out
  match r with
  | none => return none
  | some (T, out) =>
      match out with
      | none => .error .outOfBounds
      | some out => do
          let out ← storedCapitalise out
          return some (out, T)

/-! ### Tables that hold the same texts -/

/-- Both fields hold their texts. -/
structure StoredExpression.Holds (m : StoredExpression) (e : Expression) : Prop where
  type : m.type = e.type
  flags : m.flags = e.flags
  field1 : m.field1.Holds e.field1
  field2 : m.field2.Holds e.field2

/-- Stored tables with the entries of the tables. -/
def StoredTables.Hold (T : StoredTables) (y : YogiGen) : Prop :=
  ∀ type, List.Forall₂ StoredExpression.Holds (T type) (y.table type).entries

/-- Either of them does. -/
theorem StoredExpression.Holds.field {m : StoredExpression} {e : Expression} (h : m.Holds e)
    (mode : Bool) : (m.field mode).Holds (e.field mode) := by
  cases mode with
  | false => exact h.field1
  | true => exact h.field2

/-- Another string in a field holds the other text. -/
theorem StoredExpression.Holds.setField {m : StoredExpression} {e : Expression} (h : m.Holds e)
    (mode : Bool) {b : Tagbstring} {text : Bytes} (hb : b.Holds text) :
    (m.setField mode b).Holds (e.setField mode text) := by
  cases mode with
  | false => exact ⟨h.type, h.flags, hb, h.field2⟩
  | true => exact ⟨h.type, h.flags, h.field1, hb⟩

/-- The same entries are found. -/
theorem StoredTables.Hold.lookup {T : StoredTables} {y : YogiGen} (h : T.Hold y)
    (s : SubstitutionData) (i : Fin 8) :
    Option.Rel StoredExpression.Holds (storedLookup T s i) (Yogigen.lookup y s i) := by
  have hall := h (s.types i)
  have hlen := hall.length_eq
  rw [storedLookup, Yogigen.lookup, getExpression_eq]
  by_cases hi : (s.ins i).toUInt16.toNat < (T (s.types i)).length
  · have hi' := hlen ▸ hi
    rw [List.getElem?_eq_getElem hi, List.getElem?_eq_getElem hi']
    exact .some ((List.forall₂_iff_get.mp hall).2 _ hi hi')
  · rw [not_lt] at hi
    rw [List.getElem?_eq_none hi, List.getElem?_eq_none (hlen ▸ hi)]
    exact .none

/-- An entry is changed in both models. -/
theorem StoredTables.Hold.set {T : StoredTables} {y : YogiGen} (h : T.Hold y) (idx : UInt16)
    (type : ExprType) {m : StoredExpression} {e : Expression} (he : m.Holds e) :
    (T.set idx type m).Hold (y.setExpression idx type e) := by
  intro type'
  rw [StoredTables.set, table_setExpression, Function.update_apply]
  by_cases htype : type' = type
  · rw [if_pos htype, if_pos htype]
    refine List.forall₂_iff_get.mpr ⟨?_, fun i hi hi' => ?_⟩
    · rw [List.length_set, List.length_set]
      exact (h type).length_eq
    · simp only [List.get_eq_getElem, List.getElem_set]
      split_ifs
      · exact he
      · exact (List.forall₂_iff_get.mp (h type)).2 i (by simpa using hi) (by simpa using hi')
  · rw [if_neg htype, if_neg htype]
    exact h type'

/-! ### Lengths -/

/-- No text of the tables is longer than `n`. -/
def Modest (n : ℕ) (y : YogiGen) : Prop :=
  ∀ type, ∀ e ∈ (y.table type).entries, ∀ mode, (e.field mode).length ≤ n

/-- Tables whose strings are in blocks of just the size that they need. -/
def storeTables (y : YogiGen) : StoredTables := fun type =>
  (y.table type).entries.map fun e => ⟨e.type, e.flags, stored e.field1, stored e.field2⟩

/-- The stored tables hold the texts. -/
theorem storeTables_hold {n : ℕ} {y : YogiGen} (h : Modest n y) (hn : (n : ℤ) < intMax) :
    (storeTables y).Hold y := by
  intro type
  refine List.forall₂_map_left_iff.mpr (List.forall₂_same.mpr fun e he => ⟨rfl, rfl, ?_, ?_⟩)
  · have := h type e he false
    exact stored_holds (by rw [Expression.field, if_neg (by decide)] at this; omega)
  · have := h type e he true
    exact stored_holds (by rw [Expression.field, if_pos rfl] at this; omega)

/-- Every text that is looked up is short. -/
theorem Modest.lookup {n : ℕ} {y : YogiGen} (h : Modest n y) {s : SubstitutionData} {i : Fin 8}
    {e : Expression} (he : Yogigen.lookup y s i = some e) (mode : Bool) :
    (e.field mode).length ≤ n := by
  rw [Yogigen.lookup, getExpression_eq] at he
  exact h _ e (List.mem_of_getElem? he) mode

/-- Grown tables have no shorter texts. -/
theorem Modest.of_grows {n : ℕ} {y y' : YogiGen} (hgrows : Grows y y') (h : Modest n y') :
    Modest n y := by
  intro type e he mode
  obtain ⟨i, hi, rfl⟩ := List.getElem_of_mem he
  have hlen := (hgrows type).length_eq
  have hext := (List.forall₂_iff_get.mp (hgrows type)).2 i hi (hlen ▸ hi)
  exact (hext.text mode).trans (h type _ (List.getElem_mem (hlen ▸ hi)) mode)

/-- A larger bound is one, too. -/
theorem Modest.mono {n m : ℕ} {y : YogiGen} (h : Modest n y) (hle : n ≤ m) : Modest m y :=
  fun type e he mode => (h type e he mode).trans hle

/-- With a short text in a field, both are short. -/
theorem length_setField_le {e : Expression} {text : Bytes} {n : ℕ}
    (h : ∀ mode, (e.field mode).length ≤ n) (htext : text.length ≤ n) (mode mode' : Bool) :
    ((e.setField mode text).field mode').length ≤ n := by
  by_cases hmode : mode' = mode
  · rw [hmode, field_setField]
    exact htext
  · have hother : (e.setField mode text).field mode' = e.field mode' := by
      cases mode <;> cases mode' <;> first | rfl | exact absurd rfl hmode
    rw [hother]
    exact h mode'

/-- An entry with short texts keeps the tables modest. -/
theorem Modest.setExpression {n : ℕ} {y : YogiGen} (h : Modest n y) {idx : UInt16}
    {type : ExprType} {e : Expression} (he : ∀ mode, (e.field mode).length ≤ n) :
    Modest n (y.setExpression idx type e) := by
  intro type' e' he' mode
  rw [table_setExpression] at he'
  split_ifs at he' with htype
  · rcases List.mem_or_eq_of_mem_set he' with hmem | rfl
    · exact h type e' hmem mode
    · exact he mode
  · exact h type' e' he' mode

/-- A deletion makes no text longer. -/
theorem length_bdelete_le (s : Bytes) (pos len : ℤ) :
    (Yogigen.bdelete s pos len).length ≤ s.length := by
  rw [Yogigen.bdelete]
  generalize (if pos < 0 then len + pos else len) = l
  generalize (if pos < 0 then 0 else pos) = p
  split_ifs with hpos
  · rw [List.length_append, List.length_take, List.length_drop]
    omega
  · exact le_rfl

/-- An insertion makes it longer by what is inserted, and by the filler. -/
theorem length_binsert_le (s t : Bytes) (pos : ℤ) (fill : UInt8) :
    (Yogigen.binsert s pos t fill).length ≤ max s.length pos.toNat + t.length := by
  rw [Yogigen.binsert]
  split_ifs with hneg
  · omega
  · simp only [List.length_append, List.length_take, List.length_replicate, List.length_drop]
    omega

/-- A search finds a place in the text, or none. -/
theorem bstrchr_range (s : Bytes) (c : UInt8) : -1 ≤ bstrchr s c ∧ bstrchr s c ≤ s.length := by
  rw [bstrchr, Yogigen.bstrchrp]
  split_ifs with hout
  · omega
  · rw [Int.toNat_zero, List.drop_zero]
    cases h : s.idxOf? c with
    | none => dsimp only; omega
    | some k =>
        have hk : k < s.length := by
          rw [List.idxOf?, List.findIdx?_eq_some_iff_findIdx_eq] at h
          exact h.1
        dsimp only
        omega

/-! ### One position -/

section

variable {A : Allocator} (hA : A.Ample)

include hA

/-- With enough memory an insertion that is not too long does what it is to do. -/
theorem binsert_ample {b b2 : Tagbstring} {s t : Bytes} (h : b.Holds s) (h2 : b2.Holds t) {pos : ℤ}
    (hpos : pos + t.length < intMax) (hlen : (s.length : ℤ) + t.length < intMax) (fill : UInt8) :
    ∃ ok b', binsert A b pos b2 fill = .ok (ok, b') ∧
      b'.Holds (Yogigen.binsert s pos t fill) := by
  have hmax := intMax_eq
  have hle := length_binsert_le s t pos fill
  rcases binsert_cases h h2 A (by omega : pos ≤ intMax) fill with
    ⟨b', hok, hholds, -⟩ | ⟨hfail, hwhy⟩
  · exact ⟨true, b', hok, hholds⟩
  · refine ⟨false, b, hfail, ?_⟩
    rcases hwhy hA with hneg | hlong
    · rw [Yogigen.binsert, if_pos hneg]
      exact h
    · omega

/-- The text is written into the phrase, in the place of `len` bytes. -/
theorem write_refines {out insert : Tagbstring} {o t : Bytes} (hout : out.Holds o)
    (hinsert : insert.Holds t) {pos len : ℤ} (hlow : -2 ≤ pos) (hhigh : pos ≤ o.length)
    (h0 : 0 ≤ len) (hlen : len ≤ 3) (hroom : (o.length : ℤ) + t.length + 3 < intMax) :
    ∃ mid out', unlessNull (fun b => bdelete b pos len) (some out) = .ok mid ∧
      unlessNull (fun b => binsert A b pos insert 32) mid = .ok (some out') ∧
      out'.Holds (Yogigen.binsert (Yogigen.bdelete o pos len) pos t 32) := by
  have hmax := intMax_eq
  have hshort := length_bdelete_le o pos len
  obtain ⟨ok, b, hdel, hb⟩ : ∃ ok b, bdelete out pos len = .ok (ok, b) ∧
      b.Holds (Yogigen.bdelete o pos len) := by
    rcases bdelete_cases hout (by omega : -intMax ≤ pos + len) (by omega) with
      ⟨b, hdel, hb⟩ | ⟨hdel, hsame⟩
    · exact ⟨true, b, hdel, hb⟩
    · exact ⟨false, out, hdel, by rwa [hsame]⟩
  obtain ⟨ok', b', hins, hb'⟩ := binsert_ample hA hb hinsert (by omega : pos + t.length < intMax)
    (by omega) 32
  refine ⟨some b, b', ?_, ?_, hb'⟩
  · rw [unlessNull, hdel]
    rfl
  · rw [unlessNull, hins]
    rfl

/-- **One position in memory.** -/
theorem storedStep_refines {T : StoredTables} {y : YogiGen} {s : SubstitutionData} {i : Fin 8}
    {out : Tagbstring} {o : Bytes} {n : ℕ} (hT : T.Hold y) (hout : out.Holds o) (hn : Modest n y)
    (hroom : (o.length : ℤ) + n + 5 < intMax) :
    (substituteStep y s i o = none ∧ storedStep A T s i (some out) = .ok none) ∨
    ∃ y' o' T' out', substituteStep y s i o = some (y', o') ∧
      storedStep A T s i (some out) = .ok (some (T', some out')) ∧ T'.Hold y' ∧ out'.Holds o' ∧
      Modest (n + 2) y' ∧ o'.length ≤ o.length + n + 2 := by
  have hrel := hT.lookup s i
  rw [substituteStep, storedStep]
  cases hl : lookup y s i with
  | none =>
      rw [hl] at hrel
      generalize storedLookup T s i = found at hrel ⊢
      cases hrel
      exact .inl ⟨rfl, rfl⟩
  | some e =>
      have hfield := hn.lookup hl (s.modes i)
      rw [hl] at hrel
      generalize storedLookup T s i = found at hrel ⊢
      obtain ⟨he⟩ := hrel
      rename_i m
      have hinsert := he.field (s.modes i)
      have hrange := bstrchr_range o 37
      have hmax := intMax_eq
      have hfind : findUnlessNull 37 (some out) = .ok (bstrchr o 37) := bstrchrp_eq hout 37 0
      dsimp only
      rw [hfind, ok_bind, he.flags]
      by_cases hart : s.flags i = .indefArt ∧ e.flags = aOflagAn
      · -- the string of the table gets the prefix before it is inserted
        obtain ⟨fill, hfill, hfillholds⟩ : ∃ fill, bfromcstr A (ascii "n ") = .ok (some fill) ∧
            fill.Holds [110, 32] := by
          rcases @bfromcstr_cases (ascii "n ") A (by decide) with hok | ⟨-, hnot⟩
          · exact hok
          · exact absurd hA hnot
        obtain ⟨ok, prefixed, hprefix, hprefixed⟩ := binsert_ample hA hinsert hfillholds
          (by simp; omega : (0 : ℤ) + ([110, 32] : Bytes).length < intMax)
          (by simp; omega) 32
        have hlen : (Yogigen.binsert (e.field (s.modes i)) 0 [110, 32] 32).length =
            2 + (e.field (s.modes i)).length := length_binsert_zero _ _ _
        obtain ⟨mid, out', hdel, hins, hout'⟩ := write_refines hA hout hprefixed
          (by omega : -2 ≤ bstrchr o 37 - 1) (by omega) (by omega : (0 : ℤ) ≤ 3) le_rfl (by omega)
        have hpre : prefixWith A (m.field (s.modes i)) (some fill) = .ok prefixed := by
          rw [prefixWith, hprefix]
          rfl
        rw [if_pos hart, if_pos hart, hfill, ok_bind, hpre, ok_bind, hdel, ok_bind, hins, ok_bind]
        refine .inr ⟨_, _, _, out', rfl, rfl, hT.set _ _ (he.setField _ hprefixed), hout', ?_, ?_⟩
        · have hmore := hn.mono (Nat.le_add_right n 2)
          exact hmore.setExpression (length_setField_le (fun mode => hmore.lookup hl mode)
            (by omega) (s.modes i))
        · have h1 := length_binsert_le (Yogigen.bdelete o (bstrchr o 37 - 1) 3)
            (Yogigen.binsert (e.field (s.modes i)) 0 [110, 32] 32) (bstrchr o 37 - 1) 32
          have h2 := length_bdelete_le o (bstrchr o 37 - 1) 3
          omega
      · obtain ⟨mid, out', hdel, hins, hout'⟩ := write_refines hA hout hinsert
          (by omega : -2 ≤ bstrchr o 37) (by omega) (by omega : (0 : ℤ) ≤ 2) (by omega) (by omega)
        rw [if_neg hart, if_neg hart, hdel, ok_bind, hins, ok_bind]
        refine .inr ⟨_, _, _, out', rfl, rfl, hT, hout', hn.mono (Nat.le_add_right n 2), ?_⟩
        have h1 := length_binsert_le (Yogigen.bdelete o (bstrchr o 37) 2) (e.field (s.modes i))
          (bstrchr o 37) 32
        have h2 := length_bdelete_le o (bstrchr o 37) 2
        omega

/-- What a call on lists of bytes returns, and what it returns in memory. -/
def Agrees (r : Option (YogiGen × Bytes)) (r' : Option (StoredTables × Option Tagbstring)) : Prop :=
  (r = none ∧ r' = none) ∨
    ∃ y o T out, r = some (y, o) ∧ r' = some (T, some out) ∧ T.Hold y ∧ out.Holds o

/-- One position of the loop, with room for those that are left. -/
theorem storedStep_room {s : SubstitutionData} {q i : ℕ} {T : StoredTables} {y : YogiGen}
    {out : Tagbstring} {o : Bytes} {m : ℕ} (hT : T.Hold y) (hout : out.Holds o) (hm : Modest m y)
    (hq : m + 2 * (8 - i) ≤ q) (hroom : (o.length : ℤ) + (8 - i : ℕ) * q + 5 < intMax)
    (hi : i < 8) :
    (substituteStep y s ⟨i, hi⟩ o = none ∧ storedStep A T s ⟨i, hi⟩ (some out) = .ok none) ∨
    ∃ y' o' T' out', substituteStep y s ⟨i, hi⟩ o = some (y', o') ∧
      storedStep A T s ⟨i, hi⟩ (some out) = .ok (some (T', some out')) ∧ T'.Hold y' ∧
      out'.Holds o' ∧ Modest (m + 2) y' ∧
      (o'.length : ℤ) + (8 - (i + 1) : ℕ) * q + 5 < intMax := by
  have hleft : 8 - i = (8 - (i + 1)) + 1 := by omega
  rw [hleft, Nat.cast_succ, add_mul, one_mul] at hroom
  have hnonneg : 0 ≤ ((8 - (i + 1) : ℕ) : ℤ) * q :=
    mul_nonneg (Int.natCast_nonneg _) (Int.natCast_nonneg q)
  rcases storedStep_refines hA hT hout hm (by omega : (o.length : ℤ) + m + 5 < intMax) with
    hnone | ⟨y', o', T', out', hs, hs', hT', hout', hm', hlen⟩
  · exact .inl hnone
  · exact .inr ⟨y', o', T', out', hs, hs', hT', hout', hm', by omega⟩

/-- **The loop in memory**: from each position on, texts of `m` bytes may still grow by two
bytes in each turn, and the phrase by the longest of them. -/
theorem storedLoop_refines {s : SubstitutionData} {q n i : ℕ} {T : StoredTables} {y : YogiGen}
    {out : Tagbstring} {o : Bytes} {m : ℕ} {r : Option (YogiGen × Bytes)} (hT : T.Hold y)
    (hout : out.Holds o) (hm : Modest m y) (hq : m + 2 * (8 - i) ≤ q)
    (hroom : (o.length : ℤ) + (8 - i : ℕ) * q + 5 < intMax)
    (hrun : substituteLoop s n i y o = .ok r) :
    ∃ r', storedLoop A s n i T (some out) = .ok r' ∧ Agrees r r' := by
  induction n generalizing i T y out o m with
  | zero =>
      rw [substituteLoop] at hrun
      rw [storedLoop]
      by_cases hi : i < 8
      · rw [dif_pos hi] at hrun ⊢
        rcases storedStep_room hA hT hout hm hq hroom hi with
          ⟨hs, hs'⟩ | ⟨y', o', T', out', hs, hs', hT', hout', -, -⟩
        · rw [hs] at hrun
          obtain rfl := Except.ok.inj hrun
          rw [hs', ok_bind]
          exact ⟨none, rfl, .inl ⟨rfl, rfl⟩⟩
        · rw [hs] at hrun
          obtain rfl := Except.ok.inj hrun
          rw [hs', ok_bind]
          exact ⟨_, rfl, .inr ⟨y', o', T', out', rfl, rfl, hT', hout'⟩⟩
      · rw [dif_neg hi] at hrun
        cases hrun
  | succ n ih =>
      rw [substituteLoop] at hrun
      rw [storedLoop]
      by_cases hi : i < 8
      · rw [dif_pos hi] at hrun ⊢
        rcases storedStep_room hA hT hout hm hq hroom hi with
          ⟨hs, hs'⟩ | ⟨y', o', T', out', hs, hs', hT', hout', hm', hroom'⟩
        · rw [hs] at hrun
          obtain rfl := Except.ok.inj hrun
          rw [hs', ok_bind]
          exact ⟨none, rfl, .inl ⟨rfl, rfl⟩⟩
        · rw [hs] at hrun
          rw [hs', ok_bind]
          exact ih hT' hout' hm' (by omega) hroom' hrun
      · rw [dif_neg hi] at hrun
        cases hrun

end

/-! ### Capitals -/

/-- A byte of the phrase, or its terminator. -/
theorem storedCapitaliseAt_refines {out : Tagbstring} {o o' : Bytes} {i : ℕ} (hout : out.Holds o)
    (h : capitaliseAt o i = some o') :
    ∃ out', storedCapitaliseAt out i = .ok out' ∧ out'.Holds o' := by
  obtain ⟨rest, hdata⟩ := hout.data
  rw [capitaliseAt] at h
  cases hget : o[i]? with
  | none =>
      -- only the terminator can be looked at behind the text
      simp only [hget] at h
      split_ifs at h with hi
      obtain rfl := Option.some.inj h
      have hload : load out.data i = .ok 0 := by
        rw [hdata]
        exact load_append _ _ _ (by rw [List.length_map, hi])
      refine ⟨out, ?_, hout⟩
      rw [storedCapitaliseAt, hload, ok_bind]
      rfl
  | some c =>
      simp only [hget] at h
      obtain rfl := Option.some.inj h
      have hi := (List.getElem?_eq_some_iff.mp hget).1
      have hload : load out.data i = .ok c := by
        rw [hdata]
        exact load_text _ (Int.natCast_nonneg i) (by rwa [Int.toNat_natCast])
      rw [storedCapitaliseAt, hload, ok_bind]
      split_ifs with hlower
      · obtain ⟨front, d, behind, rfl, hfront⟩ := exists_split_cell o hi
        subst hfront
        have hset : (front ++ d :: behind).set front.length (toupper c) =
            front ++ (toupper c :: behind) := by
          rw [List.set_append_right _ _ le_rfl, Nat.sub_self, List.set_cons_zero]
        have hstore := @store_text _ (front ++ d :: behind) front [d] behind [toupper c]
          (some 0 :: rest) front.length rfl rfl rfl
        rw [← hdata] at hstore
        have hholds := @Holds.overwrite out _ (front ++ (toupper c :: behind)) rest hout hdata
          (by rw [List.length_append, List.length_append]; rfl)
        refine ⟨_, ?_, by rw [hset]; exact hholds⟩
        rw [List.map_singleton] at hstore
        rw [hstore]
        rfl
      · exact ⟨out, rfl, hout⟩

/-- The loop finds a place or returns -1. -/
theorem lastAt_ge (b : Bytes) (c : UInt8) (i : ℕ) : -1 ≤ lastAt b c i := by
  rcases lastAt_cases b c i with ⟨h, -⟩ | ⟨k, -, h, -⟩
  · exact h.ge
  · omega

/-- So does the search. -/
theorem bstrrchrp_ge (b : Bytes) (c : UInt8) (pos : ℤ) : -1 ≤ Yogigen.bstrrchrp b c pos := by
  rw [Yogigen.bstrrchrp]
  split_ifs
  · exact le_rfl
  · exact lastAt_ge b c pos.toNat

/-- The loop over the dots in memory. -/
theorem storedDots_refines {turns : ℕ} {out : Tagbstring} {o o' : Bytes} {dotPos : ℤ}
    (hout : out.Holds o) (hlow : -1 ≤ dotPos) (hturns : dotPos + 1 < turns)
    (h : capitaliseDots o dotPos = some o') :
    ∃ out', loop dotTurn turns (out, dotPos) = .ok out' ∧ out'.Holds o' := by
  induction turns generalizing out o dotPos with
  | zero => omega
  | succ turns ih =>
      rw [capitaliseDots] at h
      rw [loop, dotTurn]
      dsimp only
      by_cases hdone : dotPos = -1
      · rw [if_pos (by omega)] at h
        obtain rfl := Option.some.inj h
        rw [if_pos hdone]
        exact ⟨out, rfl, hout⟩
      · rw [if_neg (by omega)] at h
        cases hcap : capitaliseAt o (dotPos.toNat + 2) with
        | none => simp [hcap] at h
        | some o₁ =>
            obtain ⟨out₁, hout₁, hholds⟩ := storedCapitaliseAt_refines hout hcap
            have hindex : ((dotPos.toNat + 2 : ℕ) : ℤ) = dotPos + 2 := by omega
            have hle := bstrrchrp_le o₁ 46 (dotPos - 1)
            rw [hindex] at hout₁
            simp only [hcap] at h
            rw [if_neg hdone, hout₁, ok_bind, bstrrchrp_eq hholds, ok_bind]
            exact ih hholds (bstrrchrp_ge _ _ _) (by omega) h

/-- **Capitalisation in memory.** -/
theorem storedCapitalise_refines {out : Tagbstring} {o o' : Bytes} (hout : out.Holds o)
    (h : capitalise o = some o') :
    ∃ out', storedCapitalise out = .ok out' ∧ out'.Holds o' := by
  rw [capitalise] at h
  cases hcap : capitaliseAt o 0 with
  | none => simp [hcap] at h
  | some o₁ =>
      obtain ⟨out₁, hout₁, hholds⟩ := storedCapitaliseAt_refines hout hcap
      have hle := bstrrchrp_le o₁ 46 (bstrrchr o₁ 46 - 1)
      have hlast := bstrrchrp_le o₁ 46 (o₁.length - 1)
      have hslen := hholds.slen
      simp only [hcap] at h
      rw [bstrrchr] at h hle
      rw [storedCapitalise, ← Nat.cast_zero, hout₁, ok_bind, hslen, bstrrchrp_eq hholds, ok_bind,
        bstrrchrp_eq hholds, ok_bind]
      exact storedDots_refines hholds (bstrrchrp_ge _ _ _) (by omega) h

/-! ### Calls -/

/-- **One call** in memory returns the same phrase, or fails as well, and the tables hold the
same texts afterwards. -/
theorem storedSubstitute_refines {A : Allocator} (hA : A.Ample) {T : StoredTables} {y : YogiGen}
    {str : Tagbstring} {s : SubstitutionData} {n : ℕ} {r : Option (Bytes × YogiGen)}
    (hT : T.Hold y) (hstr : str.Holds s.str) (hn : Modest n y)
    (hroom : s.str.length + 8 * (n + 16) + 5 < 2147483647)
    (hrun : substituteAndPrettify y s = .ok r) :
    (r = none ∧ storedSubstitute A T str s = .ok none) ∨
    ∃ o y' out T', r = some (o, y') ∧ storedSubstitute A T str s = .ok (some (out, T')) ∧
      out.Holds o ∧ T'.Hold y' := by
  have hmax := intMax_eq
  obtain ⟨copy, hcopy, hcopied⟩ : ∃ copy, bstrcpy A str = .ok (some copy) ∧ copy.Holds s.str := by
    rcases bstrcpy_cases hstr A with hok | ⟨-, hnot⟩
    · exact hok
    · exact absurd hA hnot
  rw [substituteAndPrettify] at hrun
  rw [storedSubstitute, hcopy, ok_bind]
  cases hloop : substituteLoop s (s.count.toInt - 1).toNat 0 y s.str with
  | error e =>
      rw [hloop] at hrun
      cases hrun
  | ok found =>
      obtain ⟨found', hfound', hagrees⟩ := storedLoop_refines hA hT hcopied hn
        (by omega : n + 2 * (8 - 0) ≤ n + 16) (by push_cast; omega) hloop
      rw [hfound', ok_bind]
      rw [hloop] at hrun
      rcases hagrees with ⟨rfl, rfl⟩ | ⟨y', o, T', out, rfl, rfl, hT', hout⟩
      · exact .inl ⟨(Except.ok.inj hrun).symm, rfl⟩
      · cases hcap : capitalise o with
        | none =>
            dsimp only at hrun
            rw [hcap] at hrun
            cases hrun
        | some o' =>
            obtain ⟨out', hout', hholds⟩ := storedCapitalise_refines hout hcap
            dsimp only at hrun ⊢
            rw [hcap] at hrun
            obtain rfl := Except.ok.inj hrun
            rw [hout', ok_bind]
            exact .inr ⟨o', y', out', T', rfl, rfl, hholds, hT'⟩

/-- Calls one after the other on lists of bytes, each on the tables that the one before it
has left, with the phrases that they return. -/
inductive Composes : YogiGen → List (SubstitutionData × Bytes) → YogiGen → Prop
  | nil (y : YogiGen) : Composes y [] y
  | cons {y y₁ y' : YogiGen} {s : SubstitutionData} {o : Bytes}
      {calls : List (SubstitutionData × Bytes)} :
      substituteAndPrettify y s = .ok (some (o, y₁)) → Composes y₁ calls y' →
      Composes y ((s, o) :: calls) y'

/-- The calls in memory, with the strings that they return. -/
def storedCalls (A : Allocator) :
    StoredTables → List (Tagbstring × SubstitutionData) →
      Except Violation (Option (List Tagbstring × StoredTables))
  | T, [] => .ok (some ([], T))
  | T, (str, s) :: calls => do
      let r ← storedSubstitute A T str s
      match r with
      | none => return none
      | some (out, T) => do
          let rest ← storedCalls A T calls
          match rest with
          | none => return none
          | some (outs, T) => return some (out :: outs, T)

/-- Phrases only put bytes before the texts. -/
theorem Composes.grows {y y' : YogiGen} {calls : List (SubstitutionData × Bytes)}
    (h : Composes y calls y') : Grows y y' := by
  induction h with
  | nil y => exact .refl y
  | cons hcall _ ih =>
      obtain ⟨out₀, hloop, -⟩ := substituteAndPrettify_ok_iff.mp hcall
      exact (substituteLoop_grows hloop).trans ih

/-- **Any number of calls** in memory return the same phrases one after the other, as long as
the texts of the tables, which the articles make longer, do not come near the largest integer. -/
theorem storedCalls_refines {A : Allocator} (hA : A.Ample) {T : StoredTables} {y y' : YogiGen}
    {calls : List (SubstitutionData × Bytes)} {strs : List Tagbstring} {n : ℕ} (hT : T.Hold y)
    (hrun : Composes y calls y') (hn : Modest n y')
    (hstrs : List.Forall₂ (fun str call => str.Holds call.1.str) strs calls)
    (hroom : ∀ call ∈ calls, call.1.str.length + 8 * (n + 16) + 5 < 2147483647) :
    ∃ outs T', storedCalls A T (strs.zip (calls.map Prod.fst)) = .ok (some (outs, T')) ∧
      List.Forall₂ (fun out call => out.Holds call.2) outs calls ∧ T'.Hold y' := by
  induction hrun generalizing T strs with
  | nil y =>
      obtain rfl := List.forall₂_nil_right_iff.mp hstrs
      exact ⟨[], T, rfl, .nil, hT⟩
  | @cons y y₁ y' s o calls hcall hrest ih =>
      obtain ⟨str, strs, hstr, hstrs', rfl⟩ := List.forall₂_cons_right_iff.mp hstrs
      obtain ⟨out₀, hloop, -⟩ := substituteAndPrettify_ok_iff.mp hcall
      have hgrows := (substituteLoop_grows hloop).trans hrest.grows
      rcases storedSubstitute_refines hA hT hstr (hn.of_grows hgrows)
        (hroom _ List.mem_cons_self) hcall with
        ⟨hnone, -⟩ | ⟨o', y₁', out, T₁, heq, hout, hholds, hT₁⟩
      · cases hnone
      · obtain ⟨rfl, rfl⟩ := Prod.mk.inj (Option.some.inj heq)
        obtain ⟨outs, T', hcalls, hall, hT'⟩ := ih hT₁ hn hstrs'
          fun call hmem => hroom call (List.mem_cons_of_mem _ hmem)
        refine ⟨out :: outs, T', ?_, .cons hholds hall, hT'⟩
        rw [List.map_cons, List.zip_cons_cons, storedCalls, hout, ok_bind]
        dsimp only
        rw [hcalls, ok_bind]
        rfl

/-- Tables with one noun. -/
def owlWith (text : Bytes) : YogiGen where
  verbs := .ofRows []
  adjs := .ofRows []
  cepts := .ofRows []
  objs := .ofRows [⟨3, 1, text, ascii "owls"⟩]
  formats := .ofRows []
  conn := ⟨none, [], 0, maxConnNumber, 0⟩

/-- The noun with its article. -/
def owlData : SubstitutionData :=
  { SubstitutionData.build with
    str := ascii "a %s."
    count := 1
    types := fun _ => .object
    flags := fun _ => .indefArt
    ins := fun _ => 0 }

/-- The state with a short text is modest. -/
theorem modest_owlWith {text : Bytes} (h : text.length ≤ 8) : Modest 8 (owlWith text) := by
  intro type e he mode
  cases type with
  | object =>
      obtain rfl : e = ⟨3, 1, text, ascii "owls"⟩ := List.mem_singleton.mp he
      cases mode with
      | false => exact h
      | true => exact (by decide : (ascii "owls").length ≤ 8)
  | verb | adjective | concept => cases he

/-- Two phrases, the second from the text that the first one has left. -/
theorem storedCalls_refines_owl :
    ∃ outs T', storedCalls ⟨true, fun _ => true, fun _ => true⟩
        (storeTables (owlWith (ascii "owl")))
        ([stored (ascii "a %s."), stored (ascii "a %s.")].zip [owlData, owlData]) =
          .ok (some (outs, T')) ∧
      List.Forall₂ (fun (out : Tagbstring) (call : SubstitutionData × Bytes) => out.Holds call.2)
        outs [(owlData, ascii "An owl."), (owlData, ascii "An n owl.")] ∧
      T'.Hold (owlWith (ascii "n n owl")) := by
  have hfirst : substituteAndPrettify (owlWith (ascii "owl")) owlData =
      .ok (some (ascii "An owl.", owlWith (ascii "n owl"))) := by
    decide +kernel
  have hsecond : substituteAndPrettify (owlWith (ascii "n owl")) owlData =
      .ok (some (ascii "An n owl.", owlWith (ascii "n n owl"))) := by
    decide +kernel
  exact storedCalls_refines (n := 8) ⟨rfl, fun _ => rfl, fun _ => rfl⟩
    (storeTables_hold (modest_owlWith (by decide +kernel)) (by decide))
    (.cons hfirst (.cons hsecond (.nil _))) (modest_owlWith (by decide +kernel))
    (.cons (stored_holds (by decide)) (.cons (stored_holds (by decide)) .nil)) (by decide +kernel)

end Tagbstring

end Yogigen
