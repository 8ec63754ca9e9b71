import Yogigen.Selection

/-!
# The Draws behind a Selection

What `process_formats` selects, said in terms of the draws: `Picks` gives the expression
a slot gets for a list of draws, `Advances` what one position does to the substitution
data, `Selects` what a number of positions do. The code selects exactly this
(`yields_processLoop_iff`); where it returns NULL or faults, there is no selection.

## Main results

* `yields_unique_iff`: the retry loop ends with the first draw that is not in use.
* `yields_chooseExpression_iff`: the draws that give a slot its expression.
* `yields_processStep_iff`, `yields_processLoop_iff`: positions and runs of positions.
-/

open Supply Supply.Reader

namespace Yogigen

/-! ### One slot -/

/-- The flags `FSTR_POSTPOS_CEPT` to `FSTR_POSTPOS_OBJ`. -/
def FstrFlag.isPostpos : FstrFlag → Bool
  | .postposCept | .postposAll | .postposObj => true
  | _ => false

/-- The reserved flags. -/
def FstrFlag.isReserved : FstrFlag → Bool
  | .flag6 | .flag7 => true
  | _ => false

/-- An id is kept if it is not in use, and drawn again if it is. -/
inductive Settles (limit : UInt16) (usedIds : Fin 4 → Int16) :
    UInt16 → List (Option UInt16) → UInt16 → Prop
  | keep {id : UInt16} : clashes usedIds id = false → Settles limit usedIds id [] id
  | retry {id rnd id' : UInt16} {draws : List (Option UInt16)} : clashes usedIds id = true →
      Settles limit usedIds (rnd % limit) draws id' →
      Settles limit usedIds id (some rnd :: draws) id'

/-- The id that draws pick for a slot of a type under a flag. -/
inductive Picks (y : YogiGen) (type : ExprType) (usedIds : Fin 4 → Int16) :
    FstrFlag → List (Option UInt16) → UInt16 → Prop
  | plain {flag : FstrFlag} {rnd : UInt16} : flag = .noFlags ∨ flag = .indefArt →
      (y.table type).count ≠ 0 →
      Picks y type usedIds flag [some rnd] (rnd % (y.table type).count)
  | unique {rnd id : UInt16} {draws : List (Option UInt16)} : (y.table type).count ≠ 0 →
      Settles (y.table type).count usedIds (rnd % (y.table type).count) draws id →
      Picks y type usedIds .unique (some rnd :: draws) id
  | postpos {flag : FstrFlag} {rnd₀ rnd posX i : UInt16} : flag.isPostpos = true →
      (y.table type).count ≠ 0 → forwardScan (y.verbs.entries.drop 1) 1 = some posX →
      backwardScan y.verbs.entries ((y.table type).count.toNat - 1) = some i →
      Picks y type usedIds flag [some rnd₀, some rnd]
        (postposId flag (y.table type).count posX (i + 1) rnd)

/-- A turn of the loop settles for an index that does not clash, or draws another one. -/
theorem yields_uniqueBody_iff {limit resId : UInt16} {usedIds : Fin 4 → Int16}
    {used : List (Option UInt16)} {r : UInt16 ⊕ UInt16} :
    (uniqueBody limit usedIds resId).Yields used r ↔
      (clashes usedIds resId = false ∧ used = [] ∧ r = .inr resId) ∨
      (clashes usedIds resId = true ∧ ((used = [none] ∧ r = .inr errorIdx) ∨
        ∃ rnd, used = [some rnd] ∧ r = .inl (rnd % limit))) := by
  rw [uniqueBody]
  split_ifs with hc
  · simp only [hc, Bool.true_eq_false, false_and, false_or, true_and]
    constructor
    · intro h
      obtain ⟨rnd, rest, rfl, h₁⟩ := yields_next_bind_iff.mp h
      cases rnd with
      | none =>
          obtain ⟨rfl, rfl⟩ := yields_pure_iff.mp h₁
          exact .inl ⟨rfl, rfl⟩
      | some rnd =>
          obtain ⟨rfl, rfl⟩ := yields_pure_iff.mp h₁
          exact .inr ⟨rnd, rfl, rfl⟩
    · rintro (⟨rfl, rfl⟩ | ⟨rnd, rfl, rfl⟩)
      · exact yields_next_bind_iff.mpr ⟨none, [], rfl, yields_pure_iff.mpr ⟨rfl, rfl⟩⟩
      · exact yields_next_bind_iff.mpr ⟨some rnd, [], rfl, yields_pure_iff.mpr ⟨rfl, rfl⟩⟩
  · simp [hc]

/-- **The retry loop** ends with the first draw that is not in use. -/
theorem yields_unique_iff {limit id : UInt16} {usedIds : Fin 4 → Int16} (hid : id ≠ errorIdx)
    {draws : List (Option UInt16)} {resId : UInt16} :
    (loop (uniqueBody limit usedIds) resId).Yields draws id ↔
      Settles limit usedIds resId draws id := by
  constructor
  · intro h
    induction draws generalizing resId with
    | nil =>
        rcases yields_loop_iff.mp h with hexit | ⟨u, v, s', hnil, hne, -, -⟩
        · rcases yields_uniqueBody_iff.mp hexit with ⟨hc, -, hr⟩ | ⟨-, ⟨hn, -⟩ | ⟨rnd, hn, -⟩⟩
          · obtain rfl := Sum.inr.inj hr
            exact .keep hc
          · exact absurd hn (by simp)
          · exact absurd hn (by simp)
        · exact absurd (List.append_eq_nil_iff.mp hnil.symm).1 hne
    | cons draw draws ih =>
        rcases yields_loop_iff.mp h with hexit | ⟨u, v, s', huv, -, hbody, hrest⟩
        · rcases yields_uniqueBody_iff.mp hexit with ⟨-, hn, -⟩ | ⟨-, ⟨-, hr⟩ | ⟨rnd, -, hr⟩⟩
          · exact absurd hn (by simp)
          · exact absurd (Sum.inr.inj hr) hid
          · exact absurd hr (by simp)
        · rcases yields_uniqueBody_iff.mp hbody with ⟨-, -, hr⟩ | ⟨hc, ⟨-, hr⟩ | ⟨rnd, rfl, hr⟩⟩
          · exact absurd hr (by simp)
          · exact absurd hr (by simp)
          · obtain ⟨rfl, rfl⟩ := List.cons.inj huv
            obtain rfl := Sum.inl.inj hr
            exact .retry hc (ih hrest)
  · intro h
    induction h with
    | keep hc => exact yields_loop_iff.mpr (.inl (yields_uniqueBody_iff.mpr (.inl ⟨hc, rfl, rfl⟩)))
    | @retry id rnd id' draws hc _ ih =>
        exact yields_loop_iff.mpr (.inr ⟨[some rnd], draws, rnd % limit, rfl, by simp,
          yields_uniqueBody_iff.mpr (.inr ⟨hc, .inr ⟨rnd, rfl, rfl⟩⟩), ih hid⟩)

/-- While every draw gives an id that is in use, the retry loop asks for ever. -/
theorem uniqueLoop_starved {limit : UInt16} {usedIds : Fin 4 → Int16} (n : ℕ) :
    ∀ {draws : ℕ → UInt16} {resId : UInt16}, clashes usedIds resId = true →
      (∀ k, clashes usedIds (draws k % limit) = true) →
      (loop (uniqueBody limit usedIds) resId).run (prefixOf (fun k => some (draws k)) n) =
        .starved := by
  induction n with
  | zero =>
      intro draws resId hc _
      refine run_loop_starved ?_
      rw [uniqueBody, if_pos hc]
      rfl
  | succ n ih =>
      intro draws resId hc hused
      have hbody : (uniqueBody limit usedIds resId).Yields [some (draws 0)]
          (.inl (draws 0 % limit)) :=
        yields_uniqueBody_iff.mpr (.inr ⟨hc, .inr ⟨draws 0, rfl, rfl⟩⟩)
      rw [prefixOf_succ]
      exact (run_loop_again hbody (by simp) _).trans
        (ih (hused 0) fun k => hused (k + 1))

/-- The ids in use are passed over, the first other one is kept. -/
theorem settles_of_first {limit : UInt16} {usedIds : Fin 4 → Int16} (k : ℕ) :
    ∀ {draws : ℕ → UInt16}, (∀ j < k, clashes usedIds (draws j % limit) = true) →
      clashes usedIds (draws k % limit) = false →
      Settles limit usedIds (draws 0 % limit) (prefixOf (fun j => some (draws (j + 1))) k)
        (draws k % limit) := by
  induction k with
  | zero => exact fun _ hfree => .keep hfree
  | succ k ih =>
      intro draws hused hfree
      rw [prefixOf_succ]
      exact .retry (hused 0 (Nat.succ_pos k))
        (ih (fun j hj => hused (j + 1) (by omega)) hfree)

/-- The post-position is drawn once both scans have found a verb. -/
theorem yields_randomPostpos_iff {y : YogiGen} {limit id : UInt16} {flag : FstrFlag}
    (hid : id ≠ errorIdx) {draws : List (Option UInt16)} :
    (randomPostpos y limit flag).Yields draws id ↔
      ∃ posX i rnd, forwardScan (y.verbs.entries.drop 1) 1 = some posX ∧
        backwardScan y.verbs.entries (limit.toNat - 1) = some i ∧ draws = [some rnd] ∧
        id = postposId flag limit posX (i + 1) rnd := by
  rw [randomPostpos]
  cases hf : forwardScan (y.verbs.entries.drop 1) 1 with
  | none => simp
  | some posX =>
      cases hb : backwardScan y.verbs.entries (limit.toNat - 1) with
      | none => simp
      | some i =>
          simp only [Option.some.injEq, exists_and_left]
          constructor
          · intro h
            obtain ⟨rnd, rest, rfl, h₁⟩ := yields_next_bind_iff.mp h
            cases rnd with
            | none =>
                obtain ⟨rfl, rfl⟩ := yields_pure_iff.mp h₁
                exact absurd rfl hid
            | some rnd =>
                obtain ⟨rfl, rfl⟩ := yields_pure_iff.mp h₁
                exact ⟨posX, rfl, i, rfl, rnd, rfl, rfl⟩
          · rintro ⟨_, rfl, _, rfl, rnd, rfl, rfl⟩
            exact yields_next_bind_iff.mpr ⟨some rnd, [], rfl, yields_pure_iff.mpr ⟨rfl, rfl⟩⟩

/-- What follows the first draw of `random_expression_id`. -/
theorem yields_randomExpressionId_iff {y : YogiGen} {type : ExprType} {flag : FstrFlag}
    {usedIds : Fin 4 → Int16} {id : UInt16} (hid : id ≠ errorIdx)
    {draws : List (Option UInt16)} :
    (randomExpressionId y type flag usedIds).Yields draws id ↔
      ∃ rnd rest, draws = some rnd :: rest ∧ (y.table type).count ≠ 0 ∧
        (handleFlag y (y.table type).count flag usedIds (rnd % (y.table type).count)).Yields
          rest id := by
  constructor
  · intro h
    obtain ⟨rnd, rest, rfl, h₁⟩ := yields_next_bind_iff.mp h
    cases rnd with
    | none =>
        obtain ⟨rfl, rfl⟩ := yields_pure_iff.mp h₁
        exact absurd rfl hid
    | some rnd =>
        dsimp only at h₁
        split_ifs at h₁ with h0
        · exact absurd h₁ not_yields_fail
        · exact ⟨rnd, rest, rfl, h0, h₁⟩
  · rintro ⟨rnd, rest, rfl, h0, h⟩
    refine yields_next_bind_iff.mpr ⟨some rnd, rest, rfl, ?_⟩
    dsimp only
    rwa [if_neg h0]

/-- Reserved flags pick nothing. -/
theorem not_picks_reserved {y : YogiGen} {type : ExprType} {usedIds : Fin 4 → Int16}
    {flag : FstrFlag} {draws : List (Option UInt16)} {id : UInt16}
    (hflag : flag.isReserved = true) : ¬ Picks y type usedIds flag draws id := by
  intro h
  cases h with
  | plain hplain => rcases hplain with rfl | rfl <;> simp [FstrFlag.isReserved] at hflag
  | unique => simp [FstrFlag.isReserved] at hflag
  | postpos hpost => cases flag <;> simp [FstrFlag.isReserved, FstrFlag.isPostpos] at hflag hpost

/-- What the flag makes of the first draw. -/
theorem yields_handleFlag_iff {y : YogiGen} {type : ExprType} {flag : FstrFlag}
    {usedIds : Fin 4 → Int16} {rnd id : UInt16} (hid : id ≠ errorIdx)
    (h0 : (y.table type).count ≠ 0) {draws : List (Option UInt16)} :
    (handleFlag y (y.table type).count flag usedIds (rnd % (y.table type).count)).Yields
        draws id ↔
      flag ≠ .indefArt ∧ Picks y type usedIds flag (some rnd :: draws) id := by
  have hpostpos : flag.isPostpos = true →
      ((randomPostpos y (y.table type).count flag).Yields draws id ↔
        Picks y type usedIds flag (some rnd :: draws) id) := by
    intro hflag
    rw [yields_randomPostpos_iff hid]
    constructor
    · rintro ⟨posX, i, rnd', hf, hb, rfl, rfl⟩
      exact .postpos hflag h0 hf hb
    · intro h
      cases h with
      | plain hplain => rcases hplain with rfl | rfl <;> simp [FstrFlag.isPostpos] at hflag
      | unique => simp [FstrFlag.isPostpos] at hflag
      | postpos _ _ hf hb => exact ⟨_, _, _, hf, hb, rfl, rfl⟩
  cases flag with
  | noFlags =>
      simp only [handleFlag, yields_pure_iff, ne_eq, reduceCtorEq, not_false_eq_true, true_and]
      constructor
      · rintro ⟨rfl, rfl⟩
        exact .plain (.inl rfl) h0
      · intro h
        cases h with
        | plain => exact ⟨rfl, rfl⟩
        | postpos hpost => simp [FstrFlag.isPostpos] at hpost
  | unique =>
      simp only [handleFlag, yields_unique_iff hid, ne_eq, reduceCtorEq, not_false_eq_true,
        true_and]
      constructor
      · exact .unique h0
      · intro h
        cases h with
        | plain hplain => simp at hplain
        | unique _ hsettles => exact hsettles
        | postpos hpost => simp [FstrFlag.isPostpos] at hpost
  | postposCept | postposAll | postposObj =>
      simp only [handleFlag, hpostpos rfl, ne_eq, reduceCtorEq, not_false_eq_true, true_and]
  | indefArt => simp [handleFlag, hid]
  | flag6 | flag7 => simpa [handleFlag, hid] using not_picks_reserved rfl

/-- A pick begins with the draw of an id of a table that has entries. -/
theorem Picks.cons_inv {y : YogiGen} {type : ExprType} {usedIds : Fin 4 → Int16}
    {flag : FstrFlag} {draws : List (Option UInt16)} {id : UInt16}
    (h : Picks y type usedIds flag draws id) :
    ∃ rnd rest, draws = some rnd :: rest ∧ (y.table type).count ≠ 0 := by
  cases h with
  | plain _ h0 => exact ⟨_, _, rfl, h0⟩
  | unique h0 => exact ⟨_, _, rfl, h0⟩
  | postpos _ h0 => exact ⟨_, _, rfl, h0⟩

/-- **The choices** are what `random_expression_id` returns. -/
theorem picks_iff_yields {y : YogiGen} {type : ExprType} {flag : FstrFlag}
    {usedIds : Fin 4 → Int16} {id : UInt16} (hid : id ≠ errorIdx) (hart : flag ≠ .indefArt)
    {draws : List (Option UInt16)} :
    (randomExpressionId y type flag usedIds).Yields draws id ↔
      Picks y type usedIds flag draws id := by
  rw [yields_randomExpressionId_iff hid]
  constructor
  · rintro ⟨rnd, rest, rfl, h0, h⟩
    exact ((yields_handleFlag_iff hid h0).mp h).2
  · intro h
    obtain ⟨rnd, rest, rfl, h0⟩ := h.cons_inv
    exact ⟨rnd, rest, rfl, h0, (yields_handleFlag_iff hid h0).mpr ⟨hart, h⟩⟩

/-- Only the flag `FSTR_UNIQUE` looks at the ids in use. -/
theorem Picks.usedIds_irrel {y : YogiGen} {type : ExprType} {flag : FstrFlag}
    {usedIds usedIds' : Fin 4 → Int16} {draws : List (Option UInt16)} {id : UInt16}
    (hflag : flag ≠ .unique) (h : Picks y type usedIds flag draws id) :
    Picks y type usedIds' flag draws id := by
  cases h with
  | plain hplain h0 => exact .plain hplain h0
  | unique => exact absurd rfl hflag
  | postpos hpost h0 hf hb => exact .postpos hpost h0 hf hb

/-- An article slot is picked like one without a flag. -/
theorem picks_indefArt_iff {y : YogiGen} {type : ExprType} {usedIds : Fin 4 → Int16}
    {draws : List (Option UInt16)} {id : UInt16} :
    Picks y type usedIds .indefArt draws id ↔ Picks y type usedIds .noFlags draws id := by
  constructor
  · intro h
    cases h with
    | plain _ h0 => exact .plain (.inl rfl) h0
    | postpos hpost => simp [FstrFlag.isPostpos] at hpost
  · intro h
    cases h with
    | plain _ h0 => exact .plain (.inr rfl) h0
    | postpos hpost => simp [FstrFlag.isPostpos] at hpost

/-- **The expression of a slot** is what the draws pick. -/
theorem yields_chooseExpression_iff {y : YogiGen} {d : Descriptor} {s : SubstitutionData}
    {id : UInt16} (hid : id ≠ errorIdx) {draws : List (Option UInt16)} :
    (chooseExpression y d s).Yields draws (some id) ↔
      Picks y d.type (s.typewiseIdx d.type) d.flag draws id := by
  have hcall : ∀ (flag : FstrFlag) (usedIds : Fin 4 → Int16), flag ≠ .indefArt →
      ((randomExpressionId y d.type flag usedIds >>= fun exprI => pure (some exprI)).Yields
        draws (some id) ↔ Picks y d.type usedIds flag draws id) := by
    intro flag usedIds hart
    rw [yields_bind_pure_iff, ← picks_iff_yields hid hart]
    simp
  have hirrel : ∀ flag : FstrFlag, flag ≠ .unique →
      (Picks y d.type (fun _ => -1) flag draws id ↔
        Picks y d.type (s.typewiseIdx d.type) flag draws id) :=
    fun flag hflag => ⟨Picks.usedIds_irrel hflag, Picks.usedIds_irrel hflag⟩
  obtain ⟨mode, type, typeIdx, flag⟩ := d
  cases flag with
  | noFlags =>
      simp only [chooseExpression]
      rw [hcall _ _ (by simp), hirrel _ (by simp)]
  | indefArt =>
      simp only [chooseExpression]
      rw [hcall _ _ (by simp), hirrel _ (by simp), picks_indefArt_iff]
  | unique =>
      simp only [chooseExpression]
      rw [hcall _ _ (by simp)]
  | postposCept | postposAll | postposObj =>
      simp only [chooseExpression]
      rw [hcall _ _ (by simp), hirrel _ (by simp)]
  | flag6 | flag7 => simpa [chooseExpression] using not_picks_reserved rfl

/-! ### Positions -/

/-- What a position does to the substitution data: the first position of a slot assigns
it, a later one repeats it. -/
inductive Advances (y : YogiGen) (d : Descriptor) (i : Fin 8) (s : SubstitutionData) :
    List (Option UInt16) → SubstitutionData → Prop
  | fresh {draws : List (Option UInt16)} {id : UInt16} : s.slot d = -1 →
      Picks y d.type (s.typewiseIdx d.type) d.flag draws id → id ≠ errorIdx →
      Advances y d i s draws (s.assign i d id)
  | again : s.slot d ≠ -1 → Advances y d i s [] (s.place i d (s.slot d))

/-- What `n` positions from position `i` on do to the substitution data. -/
inductive Selects (y : YogiGen) (data : UInt64) :
    ℕ → SubstitutionData → ℕ → List (Option UInt16) → SubstitutionData → Prop
  | nil (i : ℕ) (s : SubstitutionData) : Selects y data i s 0 [] s
  | cons {i n : ℕ} {s s₁ s₂ : SubstitutionData} {draws₁ draws₂ : List (Option UInt16)}
      (hi : i < 8) : Advances y (decodeByte (byteOf data i)) ⟨i, hi⟩ s draws₁ s₁ →
      Selects y data (i + 1) s₁ n draws₂ s₂ → Selects y data i s (n + 1) (draws₁ ++ draws₂) s₂

/-- **One iteration of `process_formats`.** -/
theorem yields_processStep_iff {y : YogiGen} {data : UInt64} {i : Fin 8}
    {s s' : SubstitutionData} {draws : List (Option UInt16)} :
    (processStep y data i s).Yields draws (some s') ↔
      Advances y (decodeByte (byteOf data i)) i s draws s' := by
  rw [processStep]
  generalize decodeByte (byteOf data i) = d
  split_ifs with hslot
  · constructor
    · intro h
      obtain ⟨u, v, chosen, rfl, hu, h₁⟩ := yields_bind_iff.mp h
      cases chosen with
      | none => exact absurd (yields_pure_iff.mp h₁).2 (by simp)
      | some id =>
          dsimp only at h₁
          split_ifs at h₁ with hid
          · exact absurd (yields_pure_iff.mp h₁).2 (by simp)
          · obtain ⟨rfl, hs⟩ := yields_pure_iff.mp h₁
            obtain rfl := Option.some.inj hs
            rw [List.append_nil]
            exact .fresh hslot ((yields_chooseExpression_iff hid).mp hu) hid
    · intro h
      cases h with
      | again hne => exact absurd hslot hne
      | @fresh _ id _ hpick hid =>
          refine yields_bind_iff.mpr ⟨draws, [], some id, (List.append_nil _).symm,
            (yields_chooseExpression_iff hid).mpr hpick, ?_⟩
          dsimp only
          rw [if_neg hid]
          exact yields_pure_iff.mpr ⟨rfl, rfl⟩
  · constructor
    · intro h
      obtain ⟨rfl, hs⟩ := yields_pure_iff.mp h
      obtain rfl := Option.some.inj hs
      exact .again hslot
    · intro h
      cases h with
      | fresh heq => exact absurd heq hslot
      | again => exact yields_pure_iff.mpr ⟨rfl, rfl⟩

/-- **The loop of `process_formats`.** -/
theorem yields_processLoop_iff {y : YogiGen} {data : UInt64} {n i : ℕ}
    {s s' : SubstitutionData} {draws : List (Option UInt16)} :
    (processLoop y data n i s).Yields draws (some s') ↔ Selects y data i s n draws s' := by
  induction n generalizing i s draws with
  | zero =>
      rw [processLoop, yields_pure_iff, Option.some.injEq]
      constructor
      · rintro ⟨rfl, rfl⟩
        exact .nil i s'
      · intro h
        cases h with
        | nil => exact ⟨rfl, rfl⟩
  | succ n ih =>
      rw [processLoop]
      constructor
      · intro h
        split_ifs at h with hi
        · obtain ⟨u, v, step, rfl, hu, h₁⟩ := yields_bind_iff.mp h
          cases step with
          | none => exact absurd (yields_pure_iff.mp h₁).2 (by simp)
          | some s₁ =>
              have hstep := yields_processStep_iff.mp hu
              exact .cons hi hstep (ih.mp h₁)
        · exact absurd h not_yields_fail
      · intro h
        cases h with
        | @cons _ _ _ s₁ _ draws₁ draws₂ hi hstep hrest =>
            rw [dif_pos hi]
            have hyields : (processStep y data ⟨i, hi⟩ s).Yields draws₁ (some s₁) :=
              yields_processStep_iff.mpr hstep
            exact yields_bind_iff.mpr ⟨draws₁, draws₂, some s₁, rfl, hyields, ih.mpr hrest⟩

/-- **`process_formats`** selects for every position of the format. -/
theorem yields_processFormats_iff {y : YogiGen} {f : FormatString} {s' : SubstitutionData}
    {draws : List (Option UInt16)} :
    (processFormats y f).Yields draws (some s') ↔
      ∃ s, Selects y f.data 0 .build f.count.toNat draws s ∧
        s' = s.withFormat f := by
  rw [processFormats]
  constructor
  · intro h
    obtain ⟨u, v, r, rfl, hu, h₁⟩ := yields_bind_iff.mp h
    cases r with
    | none => exact absurd (yields_pure_iff.mp h₁).2 (by simp)
    | some s =>
        obtain ⟨rfl, hs⟩ := yields_pure_iff.mp h₁
        rw [List.append_nil]
        exact ⟨s, yields_processLoop_iff.mp hu, Option.some.inj hs⟩
  · rintro ⟨s, hs, rfl⟩
    exact yields_bind_iff.mpr ⟨draws, [], some s, (List.append_nil _).symm,
      yields_processLoop_iff.mpr hs, yields_pure_iff.mpr ⟨rfl, rfl⟩⟩

end Yogigen
