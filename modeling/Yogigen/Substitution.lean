import Yogigen.Selection

/-!
# Substituting Expressions

`substitute_and_prettify`: the expressions of the substitution data are looked up again
and written into the format one after another, each at the first `%` that is left, and
the result is capitalised.

An indefinite article in front of an expression that wants `an` is corrected by writing
`n ` in front of the text of the expression, and this text is the field of the table
entry itself.

## Main results

* `substituteLoop_ok_iff`: the loop succeeds when every position has an entry.
* `substituteLoop_tables_iff`: the loop leaves the tables alone exactly when no position
  needs the article corrected.
* `capitalise_isSome`: capitalisation stays within the string.
-/

namespace Yogigen

/-! ### Table entries -/

/-- The text of an expression for a mode. -/
def Expression.field (e : Expression) (mode : Bool) : Bytes :=
  if mode then e.field2 else e.field1

/-- The expression with another text in one of its fields. -/
def Expression.setField (e : Expression) (mode : Bool) (text : Bytes) : Expression :=
  if mode then { e with field2 := text } else { e with field1 := text }

/-- Write through the pointer that `get_expression` returned. -/
def YogiGen.setExpression (y : YogiGen) (idx : UInt16) (type : ExprType) (e : Expression) :
    YogiGen :=
  y.setTable ((y.table type).set idx.toNat e) type

/-! ### Substitution -/

/-- The lookup of `substitute_and_prettify`: the stored index is read as a `uint16_t`. -/
def lookup (y : YogiGen) (s : SubstitutionData) (i : Fin 8) : Option Expression :=
  getExpression y (s.ins i).toUInt16 (s.types i)

/-- A position at which the article is corrected. -/
def Articled (y : YogiGen) (s : SubstitutionData) (i : Fin 8) : Prop :=
  s.flags i = .indefArt ∧ ∃ e, lookup y s i = some e ∧ e.flags = aOflagAn

/-- One iteration of the loop of `substitute_and_prettify`; `none` is the failed check. -/
def substituteStep (y : YogiGen) (s : SubstitutionData) (i : Fin 8) (out : Bytes) :
    Option (YogiGen × Bytes) :=
  match lookup y s i with
  | none => none
  | some expr =>
      let insert := expr.field (s.modes i)
      let pos := bstrchr out 37
      if s.flags i = .indefArt ∧ expr.flags = aOflagAn then
        -- the insertion is the table's own string, and the entry keeps the prefix
        let insert := binsert insert 0 [110, 32] 32
        some (y.setExpression (s.ins i).toUInt16 (s.types i) (expr.setField (s.modes i) insert),
          binsert (bdelete out (pos - 1) 3) (pos - 1) insert 32)
      else some (y, binsert (bdelete out pos 2) pos insert 32)

/-- The loop of `substitute_and_prettify` from position `i`, with `n` positions after it:
a `do` loop, which takes position `i` in any case. -/
def substituteLoop (s : SubstitutionData) (n i : ℕ) (y : YogiGen) (out : Bytes) :
    Except Fault (Option (YogiGen × Bytes)) :=
  if hi : i < 8 then
    match substituteStep y s ⟨i, hi⟩ out with
    | none => .ok none
    | some (y, out) =>
        match n with
        | 0 => .ok (some (y, out))
        | n + 1 => substituteLoop s n (i + 1) y out
  else .error .outOfBounds

/-! ### Capitalisation -/

/-- Capitalise a lowercase byte. The terminator can be looked at; `none` is an access
past it. -/
def capitaliseAt (out : Bytes) (i : ℕ) : Option Bytes :=
  match out[i]? with
  | some c => some (if islower c then out.set i (toupper c) else out)
  | none => if i = out.length then some out else none

/-- The loop finds nothing behind its start. -/
theorem lastAt_le (b : Bytes) (c : UInt8) (i : ℕ) : lastAt b c i ≤ i := by
  induction i with
  | zero =>
      rw [lastAt]
      split_ifs <;> simp
  | succ i ih =>
      rw [lastAt]
      split_ifs
      · exact le_rfl
      · omega

/-- A backward search does not go forward. -/
theorem bstrrchrp_le (b : Bytes) (c : UInt8) (pos : ℤ) : bstrrchrp b c pos ≤ max pos (-1) := by
  rw [bstrrchrp]
  split_ifs with hpos
  · exact le_max_right _ _
  · have := lastAt_le b c pos.toNat
    omega

/-- The search for the next dot ends before the last one. -/
theorem bstrrchrp_before {b : Bytes} {c : UInt8} {pos : ℤ} (h : ¬ pos < 0) :
    (bstrrchrp b c (pos - 1) + 1).toNat < (pos + 1).toNat := by
  have := bstrrchrp_le b c (pos - 1)
  omega

/-- The loop over the dots before the last one, from the last of them backwards. A search
returns a position or `BSTR_ERR`, which is negative. -/
def capitaliseDots (out : Bytes) (dotPos : ℤ) : Option Bytes :=
  if dotPos < 0 then some out
  else
    match capitaliseAt out (dotPos.toNat + 2) with
    | none => none
    | some out => capitaliseDots out (bstrrchrp out 46 (dotPos - 1))
termination_by (dotPos + 1).toNat
decreasing_by exact bstrrchrp_before ‹_›

/-- The capitalisation of `substitute_and_prettify`. -/
def capitalise (out : Bytes) : Option Bytes :=
  match capitaliseAt out 0 with
  | none => none
  | some out => capitaliseDots out (bstrrchrp out 46 (bstrrchr out 46 - 1))

/-- `substitute_and_prettify`. -/
def substituteAndPrettify (y : YogiGen) (s : SubstitutionData) :
    Except Fault (Option (Bytes × YogiGen)) :=
  match substituteLoop s (s.count.toInt - 1).toNat 0 y s.str with
  | .error e => .error e
  | .ok none => .ok none
  | .ok (some (y, out)) =>
      match capitalise out with
      | none => .error .outOfBounds
      | some out => .ok (some (out, y))

/-! ### Bounds of the capitalisation -/

/-- Capitals do not change the length. -/
theorem capitaliseAt_length {out out' : Bytes} {i : ℕ} (h : capitaliseAt out i = some out') :
    out'.length = out.length := by
  rw [capitaliseAt] at h
  split at h
  · obtain rfl := Option.some.inj h
    split_ifs
    · exact List.length_set
    · rfl
  · split_ifs at h
    obtain rfl := Option.some.inj h
    rfl

/-- A byte of the text or its terminator can be written. -/
theorem capitaliseAt_isSome {out : Bytes} {i : ℕ} (h : i ≤ out.length) :
    ∃ out', capitaliseAt out i = some out' := by
  rw [capitaliseAt]
  split
  · exact ⟨_, rfl⟩
  · next hnone =>
      have hlen := List.getElem?_eq_none_iff.mp hnone
      exact ⟨out, if_pos (by omega)⟩

/-- So can those behind the dots. -/
theorem capitaliseDots_isSome (out : Bytes) (dotPos : ℤ)
    (h : 0 ≤ dotPos → dotPos + 2 ≤ out.length) :
    ∃ out', capitaliseDots out dotPos = some out' := by
  rw [capitaliseDots]
  split_ifs with hneg
  · exact ⟨out, rfl⟩
  · obtain ⟨out₁, h₁⟩ := capitaliseAt_isSome (show dotPos.toNat + 2 ≤ out.length by omega)
    have hlen := capitaliseAt_length h₁
    have hle := bstrrchrp_le out₁ 46 (dotPos - 1)
    rw [h₁]
    exact capitaliseDots_isSome out₁ (bstrrchrp out₁ 46 (dotPos - 1)) fun _ => by omega
termination_by (dotPos + 1).toNat
decreasing_by exact bstrrchrp_before hneg

/-- **Capitalisation stays within the string**: only dots before the last one count, and
two bytes after such a dot there is at least the terminator. -/
theorem capitalise_isSome (out : Bytes) : ∃ out', capitalise out = some out' := by
  obtain ⟨out₁, h₁⟩ := capitaliseAt_isSome (Nat.zero_le out.length)
  have hlast := bstrrchrp_le out₁ 46 (out₁.length - 1)
  have hle := bstrrchrp_le out₁ 46 (bstrrchr out₁ 46 - 1)
  rw [capitalise, h₁]
  exact capitaliseDots_isSome out₁ _ fun hpos => by
    rw [bstrrchr] at hpos hle ⊢
    omega

/-! ### How the tables grow -/

/-- An entry whose texts have not become shorter, and nothing else has changed. -/
structure Expression.Extends (e e' : Expression) : Prop where
  type : e'.type = e.type
  flags : e'.flags = e.flags
  text : ∀ mode, (e.field mode).length ≤ (e'.field mode).length

/-- Tables whose entries have been extended. -/
def Grows (y y' : YogiGen) : Prop :=
  ∀ type, List.Forall₂ Expression.Extends (y.table type).entries (y'.table type).entries

/-- An expression extends itself. -/
theorem Expression.Extends.refl (e : Expression) : e.Extends e :=
  ⟨rfl, rfl, fun _ => le_rfl⟩

/-- Extensions one after another. -/
theorem Expression.Extends.trans {e e' e'' : Expression} (h : e.Extends e')
    (h' : e'.Extends e'') : e.Extends e'' :=
  ⟨h'.type.trans h.type, h'.flags.trans h.flags, fun mode => (h.text mode).trans (h'.text mode)⟩

/-- The tables as they are. -/
theorem Grows.refl (y : YogiGen) : Grows y y :=
  fun _ => List.forall₂_same.mpr fun e _ => .refl e

/-- Growth after growth. -/
theorem Grows.trans {y y' y'' : YogiGen} (h : Grows y y') (h' : Grows y' y'') : Grows y y'' := by
  intro type
  have hlen := (h type).length_eq
  have hlen' := (h' type).length_eq
  refine List.forall₂_iff_get.mpr ⟨hlen.trans hlen', fun i hi hi'' => ?_⟩
  have hfst := (List.forall₂_iff_get.mp (h type)).2 i hi (hlen ▸ hi)
  have hsnd := (List.forall₂_iff_get.mp (h' type)).2 i (hlen ▸ hi) hi''
  exact hfst.trans hsnd

/-- `get_expression` is an index into the table. -/
theorem getExpression_eq (y : YogiGen) (idx : UInt16) (type : ExprType) :
    getExpression y idx type = (y.table type).entries[idx.toNat]? := by
  rw [getExpression]
  split_ifs with h
  · rfl
  · rw [UInt16.lt_iff_toNat_lt, Table.toNat_count, not_lt] at h
    exact (List.getElem?_eq_none h).symm

/-- What is found in grown tables extends what was there before. -/
theorem Grows.lookup {y y' : YogiGen} (h : Grows y y') (s : SubstitutionData) (i : Fin 8) :
    Option.Rel Expression.Extends (lookup y s i) (lookup y' s i) := by
  rw [Yogigen.lookup, Yogigen.lookup, getExpression_eq, getExpression_eq]
  have hlen := (h (s.types i)).length_eq
  by_cases hi : (s.ins i).toUInt16.toNat < (y.table (s.types i)).entries.length
  · have hi' := hlen ▸ hi
    rw [List.getElem?_eq_getElem hi, List.getElem?_eq_getElem hi']
    exact .some ((List.forall₂_iff_get.mp (h (s.types i))).2 _ hi hi')
  · rw [not_lt] at hi
    rw [List.getElem?_eq_none hi, List.getElem?_eq_none (hlen ▸ hi)]
    exact .none

/-- Growth changes nothing about which entries are found. -/
theorem Grows.isSome_lookup {y y' : YogiGen} (h : Grows y y') (s : SubstitutionData)
    (i : Fin 8) : (Yogigen.lookup y' s i).isSome = (Yogigen.lookup y s i).isSome := by
  have hrel := h.lookup s i
  generalize Yogigen.lookup y s i = found at hrel ⊢
  generalize Yogigen.lookup y' s i = found' at hrel ⊢
  cases hrel <;> rfl

/-- Writing the prefix into an entry extends it. -/
theorem extends_setField {e : Expression} {mode : Bool} {text : Bytes}
    (h : (e.field mode).length ≤ text.length) : e.Extends (e.setField mode text) := by
  cases mode with
  | false =>
      refine ⟨rfl, rfl, ?_⟩
      rintro (_ | _)
      · exact h
      · exact le_rfl
  | true =>
      refine ⟨rfl, rfl, ?_⟩
      rintro (_ | _)
      · exact le_rfl
      · exact h

@[simp] theorem field_setField (e : Expression) (mode : Bool) (text : Bytes) :
    (e.setField mode text).field mode = text := by
  cases mode <;> rfl

/-- The length after an insertion at the start. -/
theorem length_binsert_zero (b blk : Bytes) (fill : UInt8) :
    (binsert b 0 blk fill).length = blk.length + b.length := by
  rw [binsert_zero, List.length_append]

/-- Only the table of the type is changed. -/
theorem table_setExpression (y : YogiGen) (idx : UInt16) (type type' : ExprType)
    (e : Expression) : ((y.setExpression idx type e).table type').entries =
      if type' = type then (y.table type).entries.set idx.toNat e
      else (y.table type').entries := by
  cases type <;> cases type' <;> rfl

/-- An extended entry lets the tables grow. -/
theorem grows_setExpression {y : YogiGen} {idx : UInt16} {type : ExprType} {e e' : Expression}
    (h : getExpression y idx type = some e) (he : e.Extends e') :
    Grows y (y.setExpression idx type e') := by
  intro type'
  rw [table_setExpression]
  split_ifs with htype
  · subst htype
    rw [getExpression_eq] at h
    refine List.forall₂_iff_get.mpr ⟨List.length_set.symm, fun i hi hi' => ?_⟩
    simp only [List.get_eq_getElem, List.getElem_set]
    split_ifs with hidx
    · subst hidx
      rw [List.getElem?_eq_getElem hi, Option.some.injEq] at h
      exact h ▸ he
    · exact .refl _
  · exact List.forall₂_same.mpr fun e _ => .refl e

/-! ### The loop -/

/-- The entry of a position, with the prefix of a corrected article. -/
def Expression.withPrefix (e : Expression) (mode : Bool) : Expression :=
  e.setField mode (binsert (e.field mode) 0 [110, 32] 32)

/-- The prefix extends an entry. -/
theorem Expression.extends_withPrefix (e : Expression) (mode : Bool) :
    e.Extends (e.withPrefix mode) :=
  extends_setField (by rw [length_binsert_zero]; exact Nat.le_add_left ..)

/-- By two bytes. -/
theorem Expression.length_withPrefix (e : Expression) (mode : Bool) :
    ((e.withPrefix mode).field mode).length = (e.field mode).length + 2 := by
  rw [withPrefix, field_setField, length_binsert_zero, Nat.add_comm]
  rfl

/-- **One position**: an entry was found, and it has the prefix now if the article was
corrected. -/
theorem substituteStep_cases {y y' : YogiGen} {s : SubstitutionData} {i : Fin 8}
    {out out' : Bytes} (h : substituteStep y s i out = some (y', out')) :
    ∃ e, lookup y s i = some e ∧
      ((Articled y s i ∧
          y' = y.setExpression (s.ins i).toUInt16 (s.types i) (e.withPrefix (s.modes i))) ∨
        (¬ Articled y s i ∧ y' = y)) := by
  rw [substituteStep] at h
  cases hl : lookup y s i with
  | none => simp [hl] at h
  | some e =>
      refine ⟨e, rfl, ?_⟩
      simp only [hl] at h
      split_ifs at h with hart
      · obtain ⟨rfl, -⟩ := Prod.mk.inj (Option.some.inj h)
        exact .inl ⟨⟨hart.1, e, hl, hart.2⟩, rfl⟩
      · obtain ⟨rfl, -⟩ := Prod.mk.inj (Option.some.inj h)
        refine .inr ⟨?_, rfl⟩
        rintro ⟨hflag, e', he', hflags⟩
        obtain rfl := Option.some.inj (hl.symm.trans he')
        exact hart ⟨hflag, hflags⟩

/-- A position succeeds if and only if it is found in the tables. -/
theorem substituteStep_isSome_iff {y : YogiGen} {s : SubstitutionData} {i : Fin 8}
    (out : Bytes) : (substituteStep y s i out).isSome ↔ (lookup y s i).isSome := by
  rw [substituteStep]
  cases lookup y s i with
  | none => rfl
  | some e =>
      dsimp only
      split_ifs <;> rfl

/-- A step finds its entry. -/
theorem lookup_of_step {y : YogiGen} {s : SubstitutionData} {i : Fin 8} {out : Bytes}
    {r : YogiGen × Bytes} (h : substituteStep y s i out = some r) : (lookup y s i).isSome :=
  (substituteStep_isSome_iff out).mp (Option.isSome_of_eq_some h)

/-- And fails for no other reason. -/
theorem step_of_lookup {y : YogiGen} {s : SubstitutionData} {i : Fin 8} (out : Bytes)
    (h : (lookup y s i).isSome) : ∃ r, substituteStep y s i out = some r :=
  Option.isSome_iff_exists.mp ((substituteStep_isSome_iff out).mpr h)

/-- Without a corrected article a position changes nothing. -/
theorem substituteStep_eq_self {y y' : YogiGen} {s : SubstitutionData} {i : Fin 8}
    {out out' : Bytes} (h : substituteStep y s i out = some (y', out'))
    (hno : ¬ Articled y s i) : y' = y := by
  obtain ⟨e, -, ⟨hart, -⟩ | ⟨-, rfl⟩⟩ := substituteStep_cases h
  · exact absurd hart hno
  · rfl

/-- **One step** of the loop lets the tables grow. -/
theorem substituteStep_grows {y y' : YogiGen} {s : SubstitutionData} {i : Fin 8}
    {out out' : Bytes} (h : substituteStep y s i out = some (y', out')) : Grows y y' := by
  obtain ⟨e, hl, ⟨-, rfl⟩ | ⟨-, rfl⟩⟩ := substituteStep_cases h
  · exact grows_setExpression hl (e.extends_withPrefix (s.modes i))
  · exact .refl _

/-- A corrected article shows for ever: the tables do not grow back. -/
theorem not_back_of_articled {y y₁ y' : YogiGen} {s : SubstitutionData} {i : Fin 8}
    {out out' : Bytes} (h : substituteStep y s i out = some (y₁, out'))
    (hart : Articled y s i) (hgrows : Grows y₁ y') : ¬ Grows y' y := by
  obtain ⟨e, hl, ⟨-, rfl⟩ | ⟨hno, -⟩⟩ := substituteStep_cases h
  · intro hback
    have hset : lookup (y.setExpression (s.ins i).toUInt16 (s.types i)
        (e.withPrefix (s.modes i))) s i = some (e.withPrefix (s.modes i)) := by
      rw [lookup, getExpression_eq] at hl
      rw [lookup, getExpression_eq, table_setExpression, if_pos rfl]
      rw [List.getElem?_set_self (List.getElem?_eq_some_iff.mp hl).1]
    have hrel := (hgrows.trans hback).lookup s i
    rw [hset, hl] at hrel
    obtain ⟨hext⟩ := hrel
    have htext := hext.text (s.modes i)
    rw [Expression.length_withPrefix] at htext
    omega
  · exact absurd hart hno

/-- The last iteration of a loop that succeeds. -/
theorem substituteLoop_zero_iff {s : SubstitutionData} {i : ℕ} {y : YogiGen} {out : Bytes}
    {r : YogiGen × Bytes} :
    substituteLoop s 0 i y out = .ok (some r) ↔
      ∃ hi : i < 8, substituteStep y s ⟨i, hi⟩ out = some r := by
  rw [substituteLoop]
  by_cases hi : i < 8
  · rw [dif_pos hi]
    cases hs : substituteStep y s ⟨i, hi⟩ out <;> simp [hi, hs]
  · simp [hi]

/-- An iteration of a loop that succeeds, with the iterations after it. -/
theorem substituteLoop_succ_iff {s : SubstitutionData} {n i : ℕ} {y : YogiGen} {out : Bytes}
    {r : YogiGen × Bytes} :
    substituteLoop s (n + 1) i y out = .ok (some r) ↔
      ∃ (hi : i < 8) (y₁ : YogiGen) (out₁ : Bytes),
        substituteStep y s ⟨i, hi⟩ out = some (y₁, out₁) ∧
        substituteLoop s n (i + 1) y₁ out₁ = .ok (some r) := by
  rw [substituteLoop]
  by_cases hi : i < 8
  · rw [dif_pos hi]
    cases hs : substituteStep y s ⟨i, hi⟩ out with
    | none => simp [hs]
    | some r₁ =>
        obtain ⟨y₁, out₁⟩ := r₁
        simp [hi, hs]
  · simp [hi]

/-- So does the whole loop. -/
theorem substituteLoop_grows {s : SubstitutionData} {n i : ℕ} {y y' : YogiGen}
    {out out' : Bytes} (h : substituteLoop s n i y out = .ok (some (y', out'))) :
    Grows y y' := by
  induction n generalizing i y out with
  | zero =>
      obtain ⟨hi, hs⟩ := substituteLoop_zero_iff.mp h
      exact substituteStep_grows hs
  | succ n ih =>
      obtain ⟨hi, y₁, out₁, hs, hrest⟩ := substituteLoop_succ_iff.mp h
      exact (substituteStep_grows hs).trans (ih hrest)

/-- Without a corrected article the loop changes nothing. -/
theorem substituteLoop_eq_self {s : SubstitutionData} {n i : ℕ} {y y' : YogiGen}
    {out out' : Bytes} (h : substituteLoop s n i y out = .ok (some (y', out')))
    (hno : ∀ k : Fin 8, i ≤ k.val → k.val ≤ i + n → ¬ Articled y s k) : y' = y := by
  induction n generalizing i y out with
  | zero =>
      obtain ⟨hi, hs⟩ := substituteLoop_zero_iff.mp h
      exact substituteStep_eq_self hs (hno ⟨i, hi⟩ le_rfl le_rfl)
  | succ n ih =>
      obtain ⟨hi, y₁, out₁, hs, hrest⟩ := substituteLoop_succ_iff.mp h
      obtain rfl := substituteStep_eq_self hs (hno ⟨i, hi⟩ le_rfl (Nat.le_add_right ..))
      exact ih hrest fun k hk hk' => hno k (by omega) (by omega)

/-- A corrected article leaves tables that are not the ones before. -/
theorem substituteLoop_not_back {s : SubstitutionData} {n i : ℕ} {y y' : YogiGen}
    {out out' : Bytes} (h : substituteLoop s n i y out = .ok (some (y', out'))) {k : Fin 8}
    (hk : i ≤ k.val) (hk' : k.val ≤ i + n) (hart : Articled y s k) : ¬ Grows y' y := by
  induction n generalizing i y out with
  | zero =>
      obtain ⟨hi, hs⟩ := substituteLoop_zero_iff.mp h
      obtain rfl : k = ⟨i, hi⟩ := Fin.ext (by dsimp only; omega)
      exact not_back_of_articled hs hart (.refl _)
  | succ n ih =>
      obtain ⟨hi, y₁, out₁, hs, hrest⟩ := substituteLoop_succ_iff.mp h
      by_cases hhere : Articled y s ⟨i, hi⟩
      · exact not_back_of_articled hs hhere (substituteLoop_grows hrest)
      · have hne : k.val ≠ i := by
          rintro rfl
          exact hhere hart
        obtain rfl := substituteStep_eq_self hs hhere
        exact ih hrest (by omega) (by omega) hart

/-- **When the tables stay as they are**: the loop keeps them exactly if none of its
positions has its article corrected. -/
theorem substituteLoop_tables_iff {s : SubstitutionData} {n i : ℕ} {y y' : YogiGen}
    {out out' : Bytes} (h : substituteLoop s n i y out = .ok (some (y', out'))) :
    (∀ type, y'.table type = y.table type) ↔
      ∀ k : Fin 8, i ≤ k.val → k.val ≤ i + n → ¬ Articled y s k := by
  constructor
  · intro heq k hk hk' hart
    refine substituteLoop_not_back h hk hk' hart fun type => ?_
    rw [heq]
    exact List.forall₂_same.mpr fun e _ => .refl e
  · intro hno type
    rw [substituteLoop_eq_self h hno]

/-- **When the loop succeeds**: every position it visits is found in the tables. -/
theorem substituteLoop_ok_iff {s : SubstitutionData} {n i : ℕ} {y : YogiGen} {out : Bytes}
    (hn : i + n < 8) :
    (∃ r, substituteLoop s n i y out = .ok (some r)) ↔
      ∀ k : Fin 8, i ≤ k.val → k.val ≤ i + n → (lookup y s k).isSome := by
  induction n generalizing i y out with
  | zero =>
      constructor
      · rintro ⟨r, h⟩ k hk hk'
        obtain ⟨hi, hs⟩ := substituteLoop_zero_iff.mp h
        obtain rfl : k = ⟨i, hi⟩ := Fin.ext (by dsimp only; omega)
        exact lookup_of_step hs
      · intro hall
        have hi : i < 8 := by omega
        obtain ⟨r, hr⟩ := step_of_lookup out (hall ⟨i, hi⟩ le_rfl le_rfl)
        exact ⟨r, substituteLoop_zero_iff.mpr ⟨hi, hr⟩⟩
  | succ n ih =>
      constructor
      · rintro ⟨r, h⟩ k hk hk'
        obtain ⟨hi, y₁, out₁, hs, hrest⟩ := substituteLoop_succ_iff.mp h
        by_cases heq : k.val = i
        · obtain rfl : k = ⟨i, hi⟩ := Fin.ext heq
          exact lookup_of_step hs
        · rw [← (substituteStep_grows hs).isSome_lookup s k]
          exact (ih (by omega)).mp ⟨r, hrest⟩ k (by omega) (by omega)
      · intro hall
        have hi : i < 8 := by omega
        obtain ⟨⟨y₁, out₁⟩, hs⟩ := step_of_lookup out (hall ⟨i, hi⟩ le_rfl (Nat.le_add_right ..))
        have hlater : ∀ k : Fin 8, i + 1 ≤ k.val → k.val ≤ i + 1 + n → (lookup y₁ s k).isSome := by
          intro k hk hk'
          rw [(substituteStep_grows hs).isSome_lookup s k]
          exact hall k (by omega) (by omega)
        obtain ⟨r, hrest⟩ := (ih (by omega)).mpr hlater
        exact ⟨r, substituteLoop_succ_iff.mpr ⟨hi, y₁, out₁, hs, hrest⟩⟩

/-- The loop stays within the eight positions. -/
theorem substituteLoop_not_error (s : SubstitutionData) {n i : ℕ} (y : YogiGen) (out : Bytes)
    (hn : i + n < 8) : ∃ r, substituteLoop s n i y out = .ok r := by
  have hi : i < 8 := by omega
  rw [substituteLoop.eq_def, dif_pos hi]
  cases substituteStep y s ⟨i, hi⟩ out with
  | none => exact ⟨none, rfl⟩
  | some r₁ =>
      cases n with
      | zero => exact ⟨some (r₁.1, r₁.2), rfl⟩
      | succ n => exact substituteLoop_not_error s r₁.1 r₁.2 (by omega)

/-- The loop is followed by the capitalisation, which always succeeds. -/
theorem substituteAndPrettify_ok_iff {y y' : YogiGen} {s : SubstitutionData} {out : Bytes} :
    substituteAndPrettify y s = .ok (some (out, y')) ↔
      ∃ out₀, substituteLoop s (s.count.toInt - 1).toNat 0 y s.str = .ok (some (y', out₀)) ∧
        capitalise out₀ = some out := by
  rw [substituteAndPrettify]
  cases substituteLoop s (s.count.toInt - 1).toNat 0 y s.str with
  | error e => simp
  | ok r =>
      cases r with
      | none => simp
      | some r =>
          obtain ⟨y₁, out₁⟩ := r
          obtain ⟨out₂, hcap⟩ := capitalise_isSome out₁
          simp only [hcap, Except.ok.injEq, Option.some.injEq, Prod.mk.injEq]
          constructor
          · rintro ⟨rfl, rfl⟩
            exact ⟨out₁, ⟨rfl, rfl⟩, hcap⟩
          · rintro ⟨out₀, ⟨rfl, rfl⟩, hout⟩
            exact ⟨Option.some.inj (hcap.symm.trans hout), rfl⟩

/-- With eight positions at most, nothing is read outside of the arrays. -/
theorem substituteAndPrettify_not_error {y : YogiGen} {s : SubstitutionData}
    (hn : (s.count.toInt - 1).toNat < 8) : ∃ r, substituteAndPrettify y s = .ok r := by
  obtain ⟨r, hr⟩ := substituteLoop_not_error s y s.str ((Nat.zero_add _).trans_lt hn)
  rw [substituteAndPrettify, hr]
  cases r with
  | none => exact ⟨none, rfl⟩
  | some r =>
      obtain ⟨out₂, hcap⟩ := capitalise_isSome r.2
      exact ⟨some (out₂, r.1), by simp only [hcap]⟩

end Yogigen
