import Yogigen.Casts
import Yogigen.Filling

/-!
# Indefinite Articles

A position with the flag `FSTR_INDEF_ART` wants `an` in front of an expression that is
marked with `A_OFLAG_AN`. `process_formats` notes the flag at the first position of a slot
only. `substitute_and_prettify` then replaces the byte before the placeholder by `n ` and
keeps this prefix in the table entry, where later positions find it.

A position is read where its placeholder was: what stands before it, the text that has
been written, and whether the phrase still begins with both. Capitalisation changes the case
of letters in the finished text, so the phrase is read up to the case of its letters.

## Main results

* `LoopStage.step`: what the iterations have done to the texts of the entries.
* `insertsLoaded_iff`, `readsArticle_iff`: when one position is written as intended.
* `articles_iff`: when all of them are, as a condition on the format, the tables and the
  expressions that the draws deal.
-/

open Printf Filling Supply.Reader

namespace Yogigen

/-! ### The texts of the entries -/

/-- Two positions that write the same text of the same entry. -/
def SameText (s : SubstitutionData) (i j : Fin 8) : Prop :=
  s.types i = s.types j ∧ s.ins i = s.ins j ∧ s.modes i = s.modes j

/-- No position before position `k` corrects the article of the text that position `i`
writes. -/
def Untouched (y : YogiGen) (s : SubstitutionData) (k : ℕ) (i : Fin 8) : Prop :=
  ∀ j : Fin 8, j.val < k → Articled y s j → ¬ SameText s j i

/-- A position is untouched for one more turn unless that turn corrects its text. -/
theorem untouched_succ_iff {y : YogiGen} {s : SubstitutionData} {k : ℕ} (hk : k < 8)
    {i : Fin 8} : Untouched y s (k + 1) i ↔
      Untouched y s k i ∧ (Articled y s ⟨k, hk⟩ → ¬ SameText s ⟨k, hk⟩ i) := by
  constructor
  · intro h
    exact ⟨fun j hj => h j (by omega), h ⟨k, hk⟩ (Nat.lt_succ_self k)⟩
  · rintro ⟨h, hlast⟩ j hj
    by_cases heq : j = ⟨k, hk⟩
    · exact heq ▸ hlast
    · exact h j ((lt_succ_iff_of_ne hk heq).mp hj)

/-- The tables when the turn of position `k` comes: the flags are as they were, and a text
is as it was unless its article has been corrected, which made it longer. -/
def LoopStage (y y' : YogiGen) (s : SubstitutionData) (k : ℕ) : Prop :=
  ∀ i e, lookup y s i = some e → ∃ e', lookup y' s i = some e' ∧ e'.flags = e.flags ∧
    (Untouched y s k i → e'.field (s.modes i) = e.field (s.modes i)) ∧
    (¬ Untouched y s k i → (e.field (s.modes i)).length < (e'.field (s.modes i)).length)

/-- Before the first turn the tables are as loaded. -/
theorem stage_zero (y : YogiGen) (s : SubstitutionData) : LoopStage y y s 0 :=
  fun _ e he => ⟨e, he, rfl, fun _ => rfl, fun h => absurd (fun _ hj => absurd hj (by omega)) h⟩

/-- What is found after an entry has been written. -/
theorem lookup_setExpression {y : YogiGen} {s : SubstitutionData} {i k : Fin 8}
    {e e' : Expression} (hk : lookup y s k = some e) :
    lookup (y.setExpression (s.ins k).toUInt16 (s.types k) e') s i =
      if s.types i = s.types k ∧ s.ins i = s.ins k then some e' else lookup y s i := by
  rw [lookup, getExpression_eq, table_setExpression]
  rw [lookup_eq_some_iff] at hk
  split_ifs with htype hboth hboth
  · rw [hboth.2]
    exact List.getElem?_set_self (List.getElem?_eq_some_iff.mp hk).1
  · have hne : (s.ins k).toUInt16.toNat ≠ (s.ins i).toUInt16.toNat := by
      intro heq
      have hins : s.ins k = s.ins i := congrArg UInt16.toInt16 (UInt16.toNat_inj.mp heq)
      exact hboth ⟨htype, hins.symm⟩
    rw [List.getElem?_set_ne hne, lookup, getExpression_eq, htype]
  · exact absurd hboth.1 htype
  · rw [lookup, getExpression_eq]

/-- A position is corrected in the tables of its turn if it is in those of the start. -/
theorem LoopStage.articled_iff {y y' : YogiGen} {s : SubstitutionData} {k : ℕ}
    (h : LoopStage y y' s k) {i : Fin 8} {e e' : Expression} (he : lookup y s i = some e)
    (he' : lookup y' s i = some e') :
    (s.flags i = .indefArt ∧ e'.flags = aOflagAn) ↔ Articled y s i := by
  obtain ⟨e₁, he₁, hflags, -⟩ := h i e he
  obtain rfl := Option.some.inj (he'.symm.trans he₁)
  rw [hflags, Articled, he]
  simp

/-- **One iteration** makes the text it corrects longer, and no other. -/
theorem LoopStage.step {y y' : YogiGen} {s : SubstitutionData} {k : ℕ} (h : LoopStage y y' s k)
    {hk : k < 8} {e e' : Expression} (he : lookup y s ⟨k, hk⟩ = some e)
    (he' : lookup y' s ⟨k, hk⟩ = some e') :
    LoopStage y (tablesAfter y' s ⟨k, hk⟩ e') s (k + 1) := by
  intro i eᵢ heᵢ
  obtain ⟨e₁, he₁, hflags, hsame, hlonger⟩ := h i eᵢ heᵢ
  have harticled := h.articled_iff he he'
  rw [tablesAfter, untouched_succ_iff hk]
  split_ifs with hart
  · rw [lookup_setExpression he']
    split_ifs with hentry
    · -- the entry has been written
      obtain rfl : e₁ = e' := by
        have hfound : lookup y' s i = lookup y' s ⟨k, hk⟩ := by
          rw [lookup, lookup, hentry.1, hentry.2]
        exact Option.some.inj (he₁.symm.trans (hfound.trans he'))
      refine ⟨_, rfl, ((e₁.extends_withPrefix _).flags).trans hflags, ?_, ?_⟩
      · rintro ⟨huntouched, hother⟩
        have hmode : s.modes i ≠ s.modes ⟨k, hk⟩ := fun hmode =>
          hother (harticled.mp hart) ⟨hentry.1.symm, hentry.2.symm, hmode.symm⟩
        rw [field_withPrefix_of_ne e₁ hmode]
        exact hsame huntouched
      · intro htouched
        by_cases hmode : s.modes i = s.modes ⟨k, hk⟩
        · have hle : (eᵢ.field (s.modes i)).length ≤ (e₁.field (s.modes i)).length := by
            by_cases huntouched : Untouched y s k i
            · rw [hsame huntouched]
            · exact (hlonger huntouched).le
          rw [← hmode, field_withPrefix, List.length_append]
          simp only [List.length_cons]
          omega
        · rw [field_withPrefix_of_ne e₁ hmode]
          refine hlonger fun huntouched => htouched ⟨huntouched, fun _ hst => hmode hst.2.2.symm⟩
    · refine ⟨e₁, he₁, hflags, fun huntouched => hsame huntouched.1, fun htouched => ?_⟩
      exact hlonger fun huntouched => htouched
        ⟨huntouched, fun _ hst => hentry ⟨hst.1.symm, hst.2.1.symm⟩⟩
  · refine ⟨e₁, he₁, hflags, fun huntouched => hsame huntouched.1, fun htouched => ?_⟩
    exact hlonger fun huntouched => htouched
      ⟨huntouched, fun hart' => absurd (harticled.mpr hart') hart⟩

/-! ### One turn -/

/-- The turn of a position whose loop goes on to its end: what it finds, and what stands
in the output before and after it. -/
structure LoopTurn (y : YogiGen) (s : SubstitutionData) (lit : ℕ → Bytes) (n : ℕ) (k : Fin 8)
    (e e' : Expression) : Prop where
  start : lookup y s k = some e
  flags : e'.flags = e.flags
  same : Untouched y s k k → e'.field (s.modes k) = e.field (s.modes k)
  longer : ¬ Untouched y s k k → (e.field (s.modes k)).length < (e'.field (s.modes k)).length
  part : partAt y s (template lit n) k = if s.flags k = .indefArt ∧ e'.flags = aOflagAn
    then .fixed ([110, 32] ++ e'.field (s.modes k)) else .plain (e'.field (s.modes k))
  free : 37 ∉ before lit (partAt y s (template lit n)) k
  output : (turn y s (template lit n) k).map Prod.snd =
    some (before lit (partAt y s (template lit n)) k ++
      (ascii "%s" ++ (lit (k + 1) ++ placeholders lit (k + 1) (n - (k + 1)))))
  next : (turn y s (template lit n) (k + 1)).map Prod.snd =
    some (through lit (partAt y s (template lit n)) k ++
      (lit (k + 1) ++ placeholders lit (k + 1) (n - (k + 1))))

/-- The tables an iteration leaves. -/
theorem tables_of_step {y y' : YogiGen} {s : SubstitutionData} {i : Fin 8} {out out' : Bytes}
    (h : substituteStep y s i out = some (y', out')) :
    ∃ e, lookup y s i = some e ∧ y' = tablesAfter y s i e := by
  obtain ⟨e, he, hcases⟩ := substituteStep_cases h
  refine ⟨e, he, ?_⟩
  have hiff : Articled y s i ↔ s.flags i = .indefArt ∧ e.flags = aOflagAn := by
    rw [Articled, he]
    simp
  rw [tablesAfter]
  rcases hcases with ⟨hart, rfl⟩ | ⟨hno, rfl⟩
  · rw [if_pos (hiff.mp hart)]
  · rw [if_neg fun hart => hno (hiff.mpr hart)]

/-- The turns only put bytes before the texts. -/
theorem turn_grows {y y' : YogiGen} {s : SubstitutionData} {out out' : Bytes} {k : ℕ}
    (h : turn y s out k = some (y', out')) : Grows y y' := by
  induction k generalizing y' out' with
  | zero =>
      obtain ⟨rfl, -⟩ := Prod.mk.inj (Option.some.inj h)
      exact .refl y
  | succ k ih =>
      obtain ⟨hk, y₁, out₁, hturn, hstep⟩ := turn_succ_iff.mp h
      exact (ih hturn).trans (substituteStep_grows hstep)

/-- **The tables of every turn.** -/
theorem stage_of_turn {y y' : YogiGen} {s : SubstitutionData} {out out' : Bytes} {k : ℕ}
    (h : turn y s out k = some (y', out')) : LoopStage y y' s k := by
  induction k generalizing y' out' with
  | zero =>
      obtain ⟨rfl, -⟩ := Prod.mk.inj (Option.some.inj h)
      exact stage_zero y s
  | succ k ih =>
      obtain ⟨hk, y₁, out₁, hturn, hstep⟩ := turn_succ_iff.mp h
      obtain ⟨e', he', rfl⟩ := tables_of_step hstep
      have hfound := (turn_grows hturn).isSome_lookup s ⟨k, hk⟩
      rw [he', Option.isSome_some] at hfound
      obtain ⟨e, he⟩ := Option.isSome_iff_exists.mp hfound.symm
      exact (ih hturn).step he he'

/-- **Every turn of a loop that ends.** -/
theorem exists_turn {y y' : YogiGen} {s : SubstitutionData} {lit : ℕ → Bytes} {n : ℕ}
    {out : Bytes} (hy : NoPercent y) (hlit : ∀ k ≤ n, 37 ∉ lit k)
    (h : turn y s (template lit n) n = some (y', out)) (k : Fin 8) (hk : k.val < n) :
    ∃ e e', LoopTurn y s lit n k e e' := by
  obtain ⟨⟨y₂, out₂⟩, hnext⟩ := turn_of_le (show k.val + 1 ≤ n from hk) h
  obtain ⟨hk8, y₁, out₁, hturn, hstep⟩ := turn_succ_iff.mp hnext
  obtain ⟨e', he', rfl⟩ := tables_of_step hstep
  have hfound := (turn_grows hturn).isSome_lookup s k
  rw [he', Option.isSome_some] at hfound
  obtain ⟨e, he⟩ := Option.isSome_iff_exists.mp hfound.symm
  obtain ⟨e₁, he₁, hflags, hsame, hlonger⟩ := stage_of_turn hturn k e he
  obtain rfl := Option.some.inj (he'.symm.trans he₁)
  obtain ⟨-, hfree, rfl⟩ := turn_template hy hlit hk.le hturn
  obtain ⟨-, -, rfl⟩ := turn_template hy hlit (show k.val + 1 ≤ n from hk) hnext
  have hpart := partAt_eq hturn he'
  obtain ⟨m, hm⟩ : ∃ m, n - k.val = m + 1 := ⟨n - k.val - 1, by omega⟩
  have hleft : n - (k.val + 1) = m := by omega
  refine ⟨e, e', he, hflags, hsame, hlonger, hpart, hfree, ?_, ?_⟩
  · rw [hturn, hm, hleft]
    rfl
  · rw [hnext, before, List.append_assoc]
    rfl

section

variable {y : YogiGen} {s : SubstitutionData} {lit : ℕ → Bytes} {n : ℕ} {k : Fin 8}
  {e e' : Expression}

/-- Whether a turn corrects an article can be told from the selection and the entry. -/
theorem LoopTurn.articled_iff (h : LoopTurn y s lit n k e e') :
    Articled y s k ↔ s.flags k = .indefArt ∧ e.flags = aOflagAn := by
  rw [Articled, h.start]
  simp

/-- A text that is as long as it was has not been touched. -/
theorem LoopTurn.untouched_iff (h : LoopTurn y s lit n k e e') :
    Untouched y s k k ↔ e'.field (s.modes k) = e.field (s.modes k) := by
  refine ⟨h.same, fun heq => ?_⟩
  by_contra htouched
  have hlt := h.longer htouched
  rw [heq] at hlt
  exact lt_irrefl _ hlt

/-- A corrected position has a fixed part, with the prefix. -/
theorem LoopTurn.part_of_articled (h : LoopTurn y s lit n k e e') (hart : Articled y s k) :
    partAt y s (template lit n) k = .fixed ([110, 32] ++ e'.field (s.modes k)) := by
  rw [h.part, h.flags, if_pos (h.articled_iff.mp hart)]

/-- Any other position has the text of its entry. -/
theorem LoopTurn.part_of_not_articled (h : LoopTurn y s lit n k e e') (hno : ¬ Articled y s k) :
    partAt y s (template lit n) k = .plain (e'.field (s.modes k)) := by
  rw [h.part, h.flags, if_neg fun hart => hno (h.articled_iff.mpr hart)]

/-- The positions with a fixed part are the corrected ones. -/
theorem LoopTurn.fixed_iff (h : LoopTurn y s lit n k e e') :
    (∃ text, partAt y s (template lit n) k = .fixed text) ↔ Articled y s k := by
  by_cases hart : Articled y s k
  · exact iff_of_true ⟨_, h.part_of_articled hart⟩ hart
  · rw [h.part_of_not_articled hart]
    exact iff_of_false (by simp) hart

/-- Nothing is written where an empty text is found that has not been touched. -/
theorem LoopTurn.blank_iff (h : LoopTurn y s lit n k e e') :
    partAt y s (template lit n) k = .plain [] ↔
      ¬ Articled y s k ∧ Untouched y s k k ∧ e.field (s.modes k) = [] := by
  by_cases hart : Articled y s k
  · rw [h.part_of_articled hart]
    exact iff_of_false (by simp) fun hno => hno.1 hart
  · rw [h.part_of_not_articled hart, Segment.plain.injEq, and_iff_right hart]
    constructor
    · intro hnil
      by_cases huntouched : Untouched y s k k
      · exact ⟨huntouched, (h.same huntouched).symm.trans hnil⟩
      · have hlt := h.longer huntouched
        rw [hnil] at hlt
        exact absurd hlt (Nat.not_lt_zero _)
    · rintro ⟨huntouched, hnil⟩
      exact (h.same huntouched).trans hnil

/-- The placeholder of position `k` and the text before it are found in one way only. -/
theorem LoopTurn.output_unique (h : LoopTurn y s lit n k e e') {p rest : Bytes} (hp : 37 ∉ p)
    (hout : (turn y s (template lit n) k).map Prod.snd = some (p ++ (ascii "%s" ++ rest))) :
    p = before lit (partAt y s (template lit n)) k ∧
      rest = lit (k + 1) ++ placeholders lit (k + 1) (n - (k + 1)) := by
  have hascii : ∀ u : Bytes, ascii "%s" ++ u = 37 :: 115 :: u := fun _ => rfl
  rw [h.output, Option.some.injEq, hascii, hascii] at hout
  obtain ⟨hleft, hright⟩ := split_unique h.free hp hout
  exact ⟨hleft.symm, (List.cons.inj hright).2.symm⟩

end

/-- The byte before a placeholder that is corrected is the last one written at position
`k`: between the two stand empty pieces and empty texts only. -/
def EatenAt (y : YogiGen) (s : SubstitutionData) (lit : ℕ → Bytes) (n : ℕ) (k : Fin 8) : Prop :=
  ∃ j : Fin 8, k < j ∧ j.val < n ∧ Articled y s j ∧
    (∀ i : ℕ, k.val < i → i ≤ j.val → lit i = []) ∧
    ∀ i : Fin 8, k < i → i < j → ¬ Articled y s i ∧ Untouched y s i i ∧
      ∃ e, lookup y s i = some e ∧ e.field (s.modes i) = []

/-- What is eaten can be told from the selection, too. -/
theorem eaten_iff {y : YogiGen} {s : SubstitutionData} {lit : ℕ → Bytes} {n : ℕ} (hn : n ≤ 8)
    (hturn : ∀ k : Fin 8, k.val < n → ∃ e e', LoopTurn y s lit n k e e') (k : Fin 8) :
    Eaten lit (partAt y s (template lit n)) k n ↔ EatenAt y s lit n k := by
  constructor
  · rintro ⟨j, hkj, hj, hfixed, hlit, hpart⟩
    obtain ⟨_, _, ht⟩ := hturn ⟨j, by omega⟩ hj
    refine ⟨⟨j, by omega⟩, hkj, hj, ht.fixed_iff.mp hfixed, hlit, fun i hki hij => ?_⟩
    have hij' : i.val < j := hij
    obtain ⟨e, _, hti⟩ := hturn i (by omega)
    obtain ⟨hno, huntouched, hnil⟩ := hti.blank_iff.mp (hpart i hki hij)
    exact ⟨hno, huntouched, e, hti.start, hnil⟩
  · rintro ⟨j, hkj, hj, hart, hlit, hblank⟩
    obtain ⟨_, _, ht⟩ := hturn j hj
    refine ⟨j, hkj, hj, ht.fixed_iff.mpr hart, hlit, fun i hki hij => ?_⟩
    obtain ⟨_, _, hti⟩ := hturn ⟨i, by omega⟩ (show i < n by omega)
    obtain ⟨hno, huntouched, e, he, hnil⟩ := hblank ⟨i, by omega⟩ hki hij
    obtain rfl := Option.some.inj (hti.start.symm.trans he)
    exact hti.blank_iff.mpr ⟨hno, huntouched, hnil⟩

/-! ### How a position is read -/

/-- The text of position `k` is written as it was loaded: what stands before the first
placeholder that is left, then the text, then the rest. -/
def InsertsLoaded (y : YogiGen) (s : SubstitutionData) (out : Bytes) (k : Fin 8) : Prop :=
  ∃ e p rest, lookup y s k = some e ∧ 37 ∉ p ∧
    (turn y s out k).map Prod.snd = some (p ++ (ascii "%s" ++ rest)) ∧
    (turn y s out (k + 1)).map Prod.snd = some (p ++ e.field (s.modes k) ++ rest)

/-- The placeholder of position `k` directly follows an indefinite article. -/
def AfterArticle (lit : ℕ → Bytes) (k : ℕ) : Prop :=
  (∃ q, lit k = q ++ ascii "a ") ∨ (k = 0 ∧ lit 0 = ascii "A ")

/-- `an X` for an expression that is marked so, and else `a X`; `c` is the `a`. -/
def article (c : UInt8) (e : Expression) (mode : Bool) : Bytes :=
  c :: ((if e.flags = aOflagAn then ascii "n " else ascii " ") ++ e.field mode)

/-- The article before position `k` is turned into the one of its expression, which follows
as it was loaded, and the phrase begins like this, up to the case of letters. -/
def ReadsArticle (y : YogiGen) (s : SubstitutionData) (out phrase : Bytes) (k : Fin 8) : Prop :=
  ∃ e q c rest, lookup y s k = some e ∧ (c = 97 ∨ c = 65) ∧ 37 ∉ q ++ [c, 32] ∧
    (turn y s out k).map Prod.snd = some (q ++ [c, 32] ++ (ascii "%s" ++ rest)) ∧
    (turn y s out (k + 1)).map Prod.snd = some (q ++ article c e (s.modes k) ++ rest) ∧
    (q ++ article c e (s.modes k)).map toupper <+: phrase.map toupper

/-- Behind an article the text so far ends in its letter and a blank. -/
theorem before_afterArticle {lit : ℕ → Bytes} {part : ℕ → Segment UInt8} {k : ℕ}
    (h : AfterArticle lit k) :
    ∃ q c, (c = 97 ∨ c = 65) ∧ before lit part k = q ++ [c, 32] := by
  rcases h with ⟨q, hq⟩ | ⟨rfl, hlit⟩
  · cases k with
    | zero => exact ⟨q, 97, .inl rfl, hq⟩
    | succ k =>
        refine ⟨(part k).after (before lit part k) ++ q, 97, .inl rfl, ?_⟩
        rw [before, hq, ← List.append_assoc]
        rfl
  · exact ⟨[], 65, .inr rfl, hlit⟩

/-- The article is not what ends in `n`. -/
theorem getLast?_article (q : Bytes) (c : UInt8) (e : Expression) (mode : Bool) :
    (q ++ article c e mode).getLast?.map toupper = some 78 ↔
      (e.field mode).getLast?.map toupper = some 78 := by
  have hn : ascii "n " = [110, 32] := by decide
  have hblank : ascii " " = [32] := by decide
  have hupper : toupper 32 ≠ 78 := by decide
  rw [article, hn, hblank]
  generalize e.field mode = text
  rcases List.eq_nil_or_concat text with rfl | ⟨t, b, rfl⟩
  · split_ifs
    · simp [hupper]
    · simp [hupper]
  · have hlast : ∀ g : Bytes, q ++ c :: (g ++ t.concat b) = q ++ c :: (g ++ t) ++ [b] := by
      simp
    rw [hlast, List.concat_eq_append, List.getLast?_concat, List.getLast?_concat]

/-- An entry that is not marked is never touched. -/
theorem untouched_of_not_an {y : YogiGen} {s : SubstitutionData} {k : Fin 8} {e : Expression}
    (he : lookup y s k = some e) (hflags : e.flags ≠ aOflagAn) (m : ℕ) : Untouched y s m k := by
  rintro j - ⟨-, e', he', hflags'⟩ ⟨htype, hins, -⟩
  rw [lookup, htype, hins] at he'
  obtain rfl := Option.some.inj (he.symm.trans he')
  exact hflags hflags'

/-- Whatever corrects a byte starts with the prefix. -/
theorem partAt_fixed {y : YogiGen} {s : SubstitutionData} {out text : Bytes} {j : ℕ}
    (h : partAt y s out j = .fixed text) : ∃ c rest, text = 110 :: c :: rest := by
  rw [partAt] at h
  cases hturn : turn y s out j with
  | none => simp [hturn] at h
  | some r =>
      simp only [hturn] at h
      split_ifs at h with hj
      cases he : lookup r.1 s ⟨j, hj⟩ with
      | none => simp [he] at h
      | some e =>
          simp only [he, partOf] at h
          split_ifs at h
          exact ⟨32, e.field (s.modes ⟨j, hj⟩), (Segment.fixed.inj h).symm⟩

section

variable {y : YogiGen} {s : SubstitutionData} {lit : ℕ → Bytes} {n : ℕ} {k : Fin 8}
  {e e' : Expression}

/-- **A position without correction** is written as it was loaded if no position before it
corrected its text. -/
theorem insertsLoaded_iff (h : LoopTurn y s lit n k e e') (hno : ¬ Articled y s k) :
    InsertsLoaded y s (template lit n) k ↔ Untouched y s k k := by
  have hthrough : through lit (partAt y s (template lit n)) k =
      before lit (partAt y s (template lit n)) k ++ e'.field (s.modes k) := by
    rw [through, h.part_of_not_articled hno, Segment.after]
  rw [h.untouched_iff]
  constructor
  · rintro ⟨e₁, p, rest, he₁, hp, hout, hnext⟩
    obtain rfl := Option.some.inj (h.start.symm.trans he₁)
    obtain ⟨rfl, rfl⟩ := h.output_unique hp hout
    rw [h.next, Option.some.injEq, hthrough] at hnext
    exact List.append_cancel_left (List.append_cancel_right hnext)
  · intro heq
    rw [heq] at hthrough
    exact ⟨e, _, _, h.start, h.free, h.output, by rw [h.next, hthrough]⟩

/-- What is read at a position after an article. -/
theorem readsArticle_iff_through (h : LoopTurn y s lit n k e e') {q phrase : Bytes} {c : UInt8}
    (hc : c = 97 ∨ c = 65)
    (hq : before lit (partAt y s (template lit n)) k = q ++ [c, 32]) :
    ReadsArticle y s (template lit n) phrase k ↔
      through lit (partAt y s (template lit n)) k = q ++ article c e (s.modes k) ∧
        (through lit (partAt y s (template lit n)) k).map toupper <+: phrase.map toupper := by
  constructor
  · rintro ⟨e₁, q₁, c₁, rest, he₁, -, hp, hout, hnext, hphrase⟩
    obtain rfl := Option.some.inj (h.start.symm.trans he₁)
    obtain ⟨hbefore, rfl⟩ := h.output_unique hp hout
    obtain ⟨rfl, hcs⟩ := List.append_inj' (hbefore.trans hq) rfl
    obtain rfl := (List.cons.inj hcs).1
    rw [h.next, Option.some.injEq] at hnext
    have hthrough := List.append_cancel_right hnext
    exact ⟨hthrough, hthrough ▸ hphrase⟩
  · rintro ⟨hthrough, hphrase⟩
    have hfree := h.free
    have hout := h.output
    rw [hq] at hfree hout
    exact ⟨e, q, c, _, h.start, hc, hfree, hout, by rw [h.next, hthrough], hthrough ▸ hphrase⟩

/-- What is written after an article is what is wanted if a marked expression is corrected
and its text has not been touched. -/
theorem through_eq_iff (h : LoopTurn y s lit n k e e') {q : Bytes} {c : UInt8}
    (hq : before lit (partAt y s (template lit n)) k = q ++ [c, 32]) :
    through lit (partAt y s (template lit n)) k = q ++ article c e (s.modes k) ↔
      (e.flags = aOflagAn → s.flags k = .indefArt ∧ Untouched y s k k) := by
  have hn : ascii "n " = [110, 32] := by decide
  have hblank : ascii " " = [32] := by decide
  rw [article, hn, hblank]
  by_cases hflags : e.flags = aOflagAn
  · rw [if_pos hflags]
    simp only [hflags, forall_const]
    by_cases hart : s.flags k = .indefArt
    · have harticled := h.articled_iff.mpr ⟨hart, hflags⟩
      have hthrough : through lit (partAt y s (template lit n)) k =
          q ++ (c :: ([110, 32] ++ e'.field (s.modes k))) := by
        rw [through, h.part_of_articled harticled, hq, Segment.after, if_neg (by simp)]
        simp
      rw [hthrough, List.append_cancel_left_eq, List.cons_inj_right, List.append_cancel_left_eq,
        h.untouched_iff]
      exact (and_iff_right hart).symm
    · have hno : ¬ Articled y s k := fun harticled => hart (h.articled_iff.mp harticled).1
      rw [through, h.part_of_not_articled hno, hq, Segment.after]
      simp [hart]
  · have hno : ¬ Articled y s k := fun harticled => hflags (h.articled_iff.mp harticled).2
    have huntouched := untouched_of_not_an h.start hflags k
    rw [through, h.part_of_not_articled hno, hq, Segment.after, h.same huntouched, if_neg hflags]
    simp [hflags]

/-- **A position after an article** is read as intended if a marked expression is noted at
this position and its text has not been touched, and if no correction that follows at once
replaces the last byte, unless by itself. -/
theorem readsArticle_iff (h : LoopTurn y s lit n k e e') (hn : n ≤ 8) (hk : k.val < n)
    (hturn : ∀ k : Fin 8, k.val < n → ∃ e e', LoopTurn y s lit n k e e')
    (hafter : AfterArticle lit k) {phrase : Bytes}
    (hphrase : phrase.map toupper =
      (before lit (partAt y s (template lit n)) n).map toupper) :
    ReadsArticle y s (template lit n) phrase k ↔
      (e.flags = aOflagAn → s.flags k = .indefArt ∧ Untouched y s k k) ∧
        (EatenAt y s lit n k → (e.field (s.modes k)).getLast?.map toupper = some 78) := by
  obtain ⟨q, c, hc, hq⟩ := @before_afterArticle lit (partAt y s (template lit n)) k hafter
  rw [readsArticle_iff_through h hc hq, through_eq_iff h hq, ← eaten_iff hn hturn k, hphrase]
  refine and_congr_right fun hfits => ?_
  have hthrough := (through_eq_iff h hq).mpr hfits
  have hne : through lit (partAt y s (template lit n)) k ≠ [] := by
    rw [hthrough, article]
    simp
  have hupper : toupper 110 = 78 := by decide
  rw [through_prefix_iff toupper hne (fun j text => partAt_fixed) hk, hupper, hthrough,
    List.getLast?_map, getLast?_article]

end

/-! ### The expressions that are dealt -/

section

variable (y : YogiGen) (f : FormatString) (σ : Cast)

/-- The expression at a position. -/
def Cast.expression (k : ℕ) : Option Expression :=
  getExpression y (σ.id (f.descriptor k)) (f.descriptor k).type

/-- The article of a position is corrected: the position is the first one of its slot, it
has the flag, and its expression is marked. -/
def Corrects (k : ℕ) : Prop :=
  First f.data k ∧ (f.descriptor k).flag = .indefArt ∧
    ∃ e, σ.expression y f k = some e ∧ e.flags = aOflagAn

/-- Two positions at which the same text of the same expression stands. -/
def SharesText (i j : ℕ) : Prop :=
  (f.descriptor i).type = (f.descriptor j).type ∧
    σ.id (f.descriptor i) = σ.id (f.descriptor j) ∧
    (f.descriptor i).mode = (f.descriptor j).mode

/-- The text of a position has not been corrected at any position before it. -/
def Uncorrected (k : ℕ) : Prop :=
  ∀ j < k, Corrects y f σ j → ¬ SharesText f σ j k

/-- A correction follows a position at once: between the two stand empty pieces and empty
texts only. -/
def CorrectedAfter (lit : ℕ → Bytes) (n k : ℕ) : Prop :=
  ∃ j, k < j ∧ j < n ∧ Corrects y f σ j ∧ (∀ i, k < i → i ≤ j → lit i = []) ∧
    ∀ i, k < i → i < j → ¬ Corrects y f σ i ∧ Uncorrected y f σ i ∧
      ∃ e, σ.expression y f i = some e ∧ e.field (f.descriptor i).mode = []

end

section

variable {y : YogiGen} {f : FormatString} {σ : Cast} {n : ℕ}

/-- The entry of a position is the expression of its slot. -/
theorem lookup_cast {i : Fin 8} (hi : i.val < n) :
    lookup y ((σ.data f.data n).withFormat f) i = σ.expression y f i := by
  rw [Cast.expression, getExpression_eq]
  exact Cast.lookup_data y σ hi

/-- The field of a position is that of its descriptor. -/
theorem modes_cast {i : Fin 8} (hi : i.val < n) :
    ((σ.data f.data n).withFormat f).modes i = (f.descriptor i).mode :=
  if_pos hi

/-- The flag is recorded at the first position of a slot only. -/
theorem flags_cast_iff {i : Fin 8} (hi : i.val < n) :
    ((σ.data f.data n).withFormat f).flags i = .indefArt ↔
      First f.data i ∧ (f.descriptor i).flag = .indefArt := by
  show (if i.val < n ∧ First f.data i ∧ (f.descriptor i).flag = .indefArt then FstrFlag.indefArt
    else .noFlags) = .indefArt ↔ _
  simp [hi]

/-- The positions that the loop corrects are those of the cast. -/
theorem articled_cast_iff {i : Fin 8} (hi : i.val < n) :
    Articled y ((σ.data f.data n).withFormat f) i ↔ Corrects y f σ i := by
  rw [Articled, flags_cast_iff hi, lookup_cast hi, Corrects, and_assoc]

/-- Positions have one text when their slots and fields are the same. -/
theorem sameText_cast_iff {i j : Fin 8} (hi : i.val < n) (hj : j.val < n) :
    SameText ((σ.data f.data n).withFormat f) i j ↔ SharesText f σ i j := by
  have htypes : ∀ {i : Fin 8}, i.val < n →
      ((σ.data f.data n).withFormat f).types i = (f.descriptor i).type := fun hi => if_pos hi
  have hins : ∀ {i : Fin 8}, i.val < n →
      ((σ.data f.data n).withFormat f).ins i = (σ.id (f.descriptor i)).toInt16 :=
    fun hi => if_pos hi
  rw [SameText, SharesText, htypes hi, htypes hj, hins hi, hins hj, modes_cast hi,
    modes_cast hj]
  have hinj : (σ.id (f.descriptor i)).toInt16 = (σ.id (f.descriptor j)).toInt16 ↔
      σ.id (f.descriptor i) = σ.id (f.descriptor j) := by
    refine ⟨fun h => ?_, fun h => congrArg _ h⟩
    have hid := congrArg Int16.toUInt16 h
    rwa [UInt16.toUInt16_toInt16, UInt16.toUInt16_toInt16] at hid
  rw [hinj]

/-- What no earlier turn has touched, no earlier position of the cast corrects. -/
theorem untouched_cast_iff {k : Fin 8} (hk : k.val < n) :
    Untouched y ((σ.data f.data n).withFormat f) k k ↔ Uncorrected y f σ k := by
  constructor
  · intro h j hj hcorrects hshares
    have hjn : j < n := by omega
    exact h ⟨j, by omega⟩ hj ((articled_cast_iff hjn).mpr hcorrects)
      ((sameText_cast_iff hjn hk).mpr hshares)
  · intro h j hj harticled hsame
    have hjn : j.val < n := by omega
    exact h j hj ((articled_cast_iff hjn).mp harticled) ((sameText_cast_iff hjn hk).mp hsame)

/-- The blanks that are taken are those of the cast, too. -/
theorem eatenAt_cast_iff (hn : n ≤ 8) {lit : ℕ → Bytes} {k : Fin 8} :
    EatenAt y ((σ.data f.data n).withFormat f) lit n k ↔ CorrectedAfter y f σ lit n k := by
  constructor
  · rintro ⟨j, hkj, hjn, hart, hlit, hblank⟩
    refine ⟨j, hkj, hjn, (articled_cast_iff hjn).mp hart, hlit, fun i hki hij => ?_⟩
    have hin : i < n := by omega
    obtain ⟨hno, huntouched, e, he, hnil⟩ := hblank ⟨i, by omega⟩ hki hij
    rw [articled_cast_iff hin] at hno
    rw [untouched_cast_iff hin] at huntouched
    rw [lookup_cast hin] at he
    rw [modes_cast hin] at hnil
    exact ⟨hno, huntouched, e, he, hnil⟩
  · rintro ⟨j, hkj, hjn, hcorrects, hlit, hblank⟩
    have hj : Articled y ((σ.data f.data n).withFormat f) ⟨j, by omega⟩ :=
      (articled_cast_iff hjn).mpr hcorrects
    refine ⟨⟨j, by omega⟩, hkj, hjn, hj, hlit, fun i hki hij => ?_⟩
    have hij' : i.val < j := hij
    have hin : i.val < n := by omega
    rw [articled_cast_iff hin, untouched_cast_iff hin, lookup_cast hin, modes_cast hin]
    exact hblank i hki hij

end

/-! ### All positions -/

/-- Positions without the flag `FSTR_INDEF_ART` are written as they were loaded, and the
others, where they follow an article, with the article their expression wants. -/
structure ReadsWell (y : YogiGen) (f : FormatString) (s : SubstitutionData) (lit : ℕ → Bytes)
    (n : ℕ) (phrase : Bytes) : Prop where
  plain : ∀ k : Fin 8, k.val < n → (f.descriptor k).flag ≠ .indefArt → InsertsLoaded y s f.str k
  article : ∀ k : Fin 8, k.val < n → (f.descriptor k).flag = .indefArt → AfterArticle lit k →
    ReadsArticle y s f.str phrase k

/-- Positions without the flag have texts that no position before them corrected. After an
article, a marked expression stands at the first position of its slot and has not been
corrected before, and no correction follows at once unless the text ends in `n`. -/
structure ArticlesFit (y : YogiGen) (f : FormatString) (σ : Cast) (lit : ℕ → Bytes)
    (n : ℕ) : Prop where
  plain : ∀ k < n, (f.descriptor k).flag ≠ .indefArt → Uncorrected y f σ k
  noted : ∀ k < n, (f.descriptor k).flag = .indefArt → AfterArticle lit k →
    ∀ e, σ.expression y f k = some e → e.flags = aOflagAn →
      First f.data k ∧ Uncorrected y f σ k
  kept : ∀ k < n, (f.descriptor k).flag = .indefArt → AfterArticle lit k →
    CorrectedAfter y f σ lit n k → ∀ e, σ.expression y f k = some e →
      (e.field (f.descriptor k).mode).getLast?.map toupper = some 78

/-- A phrase that is made of the expressions of a cast reads well if these fit. -/
theorem readsWell_iff {y y' : YogiGen} {f : FormatString} {σ : Cast} {lit : ℕ → Bytes} {n : ℕ}
    {phrase : Bytes} (hn : 0 < n) (hle : n ≤ 8) (hcount : f.count.toNat = n)
    (hstr : f.str = template lit n) (hlit : ∀ k ≤ n, 37 ∉ lit k) (hy : NoPercent y)
    (hphrase : substituteAndPrettify y ((σ.data f.data n).withFormat f) =
      .ok (some (phrase, y'))) :
    ReadsWell y f ((σ.data f.data n).withFormat f) lit n phrase ↔ ArticlesFit y f σ lit n := by
  obtain ⟨final, hloop, hcapital⟩ := substituteAndPrettify_ok_iff.mp hphrase
  have hstr' : ((σ.data f.data n).withFormat f).str = template lit n := hstr
  have hcount' : f.count.toNat ≤ 8 := by rwa [hcount]
  rw [further_positions_withFormat hcount', hcount, hstr'] at hloop
  have hlast := substituteLoop_iff_turn.mp hloop
  rw [Nat.sub_add_cancel hn] at hlast
  have hturn := exists_turn hy hlit hlast
  obtain ⟨-, -, hfinal⟩ := turn_template hy hlit le_rfl hlast
  rw [Nat.sub_self, placeholders, List.append_nil] at hfinal
  have hupper := map_toupper_of_capitalise hcapital
  rw [hfinal] at hupper
  have hplain : ∀ k : Fin 8, k.val < n → (f.descriptor k).flag ≠ .indefArt →
      (InsertsLoaded y ((σ.data f.data n).withFormat f) f.str k ↔ Uncorrected y f σ k) := by
    intro k hk hflag
    obtain ⟨e, e', ht⟩ := hturn k hk
    rw [hstr, ← untouched_cast_iff hk]
    exact insertsLoaded_iff ht fun hart => hflag ((flags_cast_iff hk).mp hart.1).2
  have harticle : ∀ k : Fin 8, k.val < n → (f.descriptor k).flag = .indefArt →
      AfterArticle lit k → ∃ e, σ.expression y f k = some e ∧
      (ReadsArticle y ((σ.data f.data n).withFormat f) f.str phrase k ↔
        (e.flags = aOflagAn → First f.data k ∧ Uncorrected y f σ k) ∧
          (CorrectedAfter y f σ lit n k →
            (e.field (f.descriptor k).mode).getLast?.map toupper = some 78)) := by
    intro k hk hflag hafter
    obtain ⟨e, e', ht⟩ := hturn k hk
    refine ⟨e, (lookup_cast hk).symm.trans ht.start, ?_⟩
    rw [hstr, readsArticle_iff ht hle hk hturn hafter hupper, flags_cast_iff hk,
      and_iff_left hflag, untouched_cast_iff hk, eatenAt_cast_iff hle, modes_cast hk]
  constructor
  · rintro ⟨hreads, hreadsArticle⟩
    refine ⟨fun k hk hflag => ?_, fun k hk hflag hafter e he => ?_,
      fun k hk hflag hafter heaten e he => ?_⟩
    · exact (hplain ⟨k, by omega⟩ hk hflag).mp (hreads ⟨k, by omega⟩ hk hflag)
    · obtain ⟨e₁, he₁, hiff⟩ := harticle ⟨k, by omega⟩ hk hflag hafter
      obtain rfl := Option.some.inj (he.symm.trans he₁)
      exact (hiff.mp (hreadsArticle ⟨k, by omega⟩ hk hflag hafter)).1
    · obtain ⟨e₁, he₁, hiff⟩ := harticle ⟨k, by omega⟩ hk hflag hafter
      obtain rfl := Option.some.inj (he.symm.trans he₁)
      exact (hiff.mp (hreadsArticle ⟨k, by omega⟩ hk hflag hafter)).2 heaten
  · rintro ⟨huncorrected, hnoted, hkept⟩
    refine ⟨fun k hk hflag => (hplain k hk hflag).mpr (huncorrected k hk hflag), ?_⟩
    intro k hk hflag hafter
    obtain ⟨e, he, hiff⟩ := harticle k hk hflag hafter
    exact hiff.mpr ⟨hnoted k hk hflag hafter e he, fun heaten =>
      hkept k hk hflag hafter heaten e he⟩

/-- **When articles are right.** For a format whose placeholders match its count, on tables
without `%`, and for all draws that lead to a phrase: the draws deal expressions to the slots
of the format, and the phrase reads as intended at all positions, up to the case of letters,
if and only if these expressions fit. -/
theorem articles_iff {y y' : YogiGen} {f : FormatString} {s : SubstitutionData}
    {draws : List (Option UInt16)} {lit : ℕ → Bytes} {n : ℕ} {phrase : Bytes} (hn : 0 < n)
    (hcount : f.count.toNat = n) (hstr : f.str = template lit n) (hlit : ∀ k ≤ n, 37 ∉ lit k)
    (hy : NoPercent y) (hs : (processFormats y f).Yields draws (some s))
    (hphrase : substituteAndPrettify y s = .ok (some (phrase, y'))) :
    (∃ σ : Cast, σ.Deals y f.data n draws) ∧
      ∀ σ : Cast, σ.Deals y f.data n draws →
        (ReadsWell y f s lit n phrase ↔ ArticlesFit y f σ lit n) := by
  obtain ⟨s, hsel, rfl⟩ := yields_processFormats_iff.mp hs
  have hle : n ≤ 8 := hcount ▸ hsel.count_le
  rw [hcount] at hsel
  refine ⟨?_, fun σ hσ => ?_⟩
  · obtain ⟨σ, hσ, -⟩ := (selects_iff_deals hle).mp hsel
    exact ⟨σ, hσ⟩
  · obtain rfl := (hσ.selects hle).unique hsel
    exact readsWell_iff hn hle hcount hstr hlit hy hphrase

/-- A database with one object, which wants `an`. -/
def appleDb : Database where
  expressions := [⟨ascii "apple", ascii "tree", 3, 1⟩]
  formats := []

/-- The state with a text for it. -/
def appleWith (text : Bytes) : YogiGen where
  verbs := .ofRows []
  adjs := .ofRows []
  cepts := .ofRows []
  objs := .ofRows [⟨3, 1, text, ascii "tree"⟩]
  formats := .ofRows []
  conn := ⟨none, [], 0, maxConnNumber, 0⟩

/-- The state as loaded. -/
def apple : YogiGen :=
  appleWith (ascii "apple")

/-- The state is one that the program loads from the database. -/
theorem loads_apple : Loads appleDb apple := by
  refine ⟨fun type => ?_, [], .refl _, by decide +kernel⟩
  cases type with
  | object => exact ⟨appleDb.expressions, .refl _, List.pairwise_singleton .., by decide +kernel⟩
  | verb | adjective | concept => exact ⟨[], .refl _, .nil, by decide +kernel⟩

/-- No text of the state has a percent sign. -/
theorem noPercent_apple : NoPercent apple := by
  intro type
  cases type with
  | verb | adjective | concept | object => decide

/-- A field of the first object slot. -/
def anObject (mode : Bool) (flag : FstrFlag) : Descriptor :=
  .first mode .object flag

/-- `Take a %s%s from the %s.`: the object with its article, and its second text twice. -/
def treeFormat : FormatString where
  str := ascii "Take a %s%s from the %s."
  data := pack [anObject false .indefArt, anObject true .noFlags, anObject true .noFlags]
  count := 3

/-- The literal pieces of the format. -/
def treeLit (k : ℕ) : Bytes :=
  [ascii "Take a ", [], ascii " from the ", ascii "."].getD k []

/-- `Take a %s or a %s.`, with the same object twice. -/
def twiceFormat : FormatString where
  str := ascii "Take a %s or a %s."
  data := pack [anObject false .indefArt, anObject false .indefArt]
  count := 2

/-- The literal pieces of the format. -/
def twiceLit (k : ℕ) : Bytes :=
  [ascii "Take a ", ascii " or a ", ascii "."].getD k []

/-- Only the first position is corrected; the second text of the object stays as it is. -/
theorem articles_iff_tree :
    ∃ s y', (processFormats apple treeFormat).Yields [some 0] (some s) ∧
      substituteAndPrettify apple s =
        .ok (some (ascii "Take an appletree from the tree.", y')) ∧
      ReadsWell apple treeFormat s treeLit 3 (ascii "Take an appletree from the tree.") := by
  obtain ⟨s, y', hs, hphrase⟩ : ∃ s y',
      (processFormats apple treeFormat).Yields [some 0] (some s) ∧
      substituteAndPrettify apple s =
        .ok (some (ascii "Take an appletree from the tree.", y')) :=
    ⟨_, appleWith (ascii "n apple"), yields_iff_run.mpr rfl, by decide +kernel⟩
  have hstr : treeFormat.str = template treeLit 3 := by decide
  have hcount : treeFormat.count.toNat = 3 := rfl
  obtain ⟨⟨σ, hσ⟩, hiff⟩ :=
    articles_iff (by decide) hcount hstr (by decide) noPercent_apple hs hphrase
  have hflags : ∀ k < 3, (treeFormat.descriptor k).flag = .indefArt → k = 0 := by
    decide +kernel
  have hmodes : ∀ k < 3, (treeFormat.descriptor k).mode = true ∨ k = 0 := by decide +kernel
  refine ⟨s, y', hs, hphrase, (hiff σ hσ).mpr ⟨fun k hk hflag j hj hcorrects hshares => ?_,
    fun k hk hflag _ e _ _ => ?_, ?_⟩⟩
  · -- only the first position has the flag, and only there stands the first text
    obtain rfl := hflags j (by omega) hcorrects.2.1
    have hmode := hshares.2.2
    rw [(hmodes k hk).resolve_right (by omega)] at hmode
    exact absurd hmode (by decide +kernel)
  · obtain rfl := hflags k hk hflag
    exact ⟨fun j hj => absurd hj (by omega), fun j hj => absurd hj (by omega)⟩
  · rintro k hk - - ⟨j, hkj, hj, hcorrects, -⟩
    exact absurd (hflags j hj hcorrects.2.1) (by omega)

/-- The second position shares its slot with the first one, so its article is not noted,
and the object has kept the prefix of the first correction. -/
theorem articles_fail_apple :
    Loads appleDb apple ∧ NoPercent apple ∧ twiceFormat.count.toNat = 2 ∧
      twiceFormat.str = template twiceLit 2 ∧ (∀ k ≤ 2, 37 ∉ twiceLit k) ∧
      ∃ s, (processFormats apple twiceFormat).Yields [some 0] (some s) ∧
        substituteAndPrettify apple s = .ok (some (ascii "Take an apple or a n apple.",
          appleWith (ascii "n apple"))) ∧
        ¬ ReadsWell apple twiceFormat s twiceLit 2 (ascii "Take an apple or a n apple.") := by
  obtain ⟨s, hs, hphrase⟩ : ∃ s,
      (processFormats apple twiceFormat).Yields [some 0] (some s) ∧
      substituteAndPrettify apple s = .ok (some (ascii "Take an apple or a n apple.",
        appleWith (ascii "n apple"))) :=
    ⟨_, yields_iff_run.mpr rfl, by decide +kernel⟩
  refine ⟨loads_apple, noPercent_apple, rfl, by decide, by decide, s, hs, hphrase,
    fun hreads => ?_⟩
  obtain ⟨s, hsel, rfl⟩ := yields_processFormats_iff.mp hs
  obtain ⟨σ, hσ, rfl⟩ := (selects_iff_deals (by decide)).mp hsel
  have hfit := (readsWell_iff (by decide) (by decide) rfl (by decide) (by decide)
    noPercent_apple hphrase).mp hreads
  have hdescriptor : ∀ k < 2, twiceFormat.descriptor k = anObject false .indefArt := by
    decide +kernel
  have hid : σ.id (twiceFormat.descriptor 1) = 0 := by
    have hadmits := (hσ.admissible 0 (by decide) fun j hj => absurd hj (by omega)).2
    rw [show descriptorAt twiceFormat.data 0 = anObject false .indefArt from
      hdescriptor 0 (by decide)] at hadmits
    have hlt : (σ.id (anObject false .indefArt)).toNat < 1 := UInt16.lt_iff_toNat_lt.mp hadmits
    rw [hdescriptor 1 (by decide), ← UInt16.toNat_inj]
    exact Nat.lt_one_iff.mp hlt
  have hfound : σ.expression apple twiceFormat 1 =
      some ⟨3, 1, ascii "apple", ascii "tree"⟩ := by
    rw [Cast.expression, hid]
    decide +kernel
  have hfirst := (hfit.noted 1 (by decide) (by decide +kernel) (.inl ⟨ascii " or ", by decide⟩)
    _ hfound rfl).1
  exact hfirst 0 (by decide) (by decide +kernel)

end Yogigen
