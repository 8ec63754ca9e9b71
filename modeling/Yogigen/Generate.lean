import Yogigen.Choices
import Yogigen.Substitution

/-!
# Generating a Phrase

`YogiGen_generate` on the heap object that all request handlers share. A call that cannot
produce a phrase passes the object to `YogiGen_close` before it returns NULL; the pointer
its owner holds stays as it is.

`Chooses` says which format and which expressions a list of draws selects, `Complete`
that all of them are found again when the text is put together.

## Main results

* `composePhrase_succeeds_iff`: the draws that make a phrase.
* `yields_composePhrase_inv`: what is known of a phrase that was made.
* `generate_cases`: a call makes a phrase, or releases the object.
-/

open Supply Supply.Reader

namespace Yogigen

/-! ### The shared object -/

/-- The object behind a `YogiGen *`: its contents while it is allocated, and how often it
has been released. -/
structure Object where
  contents : Option YogiGen
  closes : ℕ
  deriving DecidableEq

/-- The object after `YogiGen_init` and `YogiGen_fetch_all`. -/
def Object.loaded (y : YogiGen) : Object :=
  ⟨some y, 0⟩

/-- `YogiGen_close`, on a pointer that is not NULL. -/
def yogiGenClose (o : Object) : Except Fault Object :=
  match o.contents with
  | some _ => .ok { contents := none, closes := o.closes + 1 }
  | none => .error .useAfterFree

/-! ### Generation -/

/-- The three calls of `YogiGen_generate`, up to the first that returns NULL. -/
def composePhrase (y : YogiGen) : Gen (Option (Bytes × YogiGen)) := do
  let formats ← randomFormats y
  match formats with
  | none => return none
  | some formats => do
      let sData ← processFormats y formats
      match sData with
      | none => return none
      | some sData => ofExcept (substituteAndPrettify y sData)

/-- `YogiGen_generate`. -/
def generate (o : Object) : Gen (Option Bytes × Object) :=
  match o.contents with
  | none => fail .useAfterFree
  | some y => do
      let phrase ← composePhrase y
      match phrase with
      | some (out, y) => return (some out, { o with contents := some y })
      | none => do
          let o ← ofExcept (yogiGenClose o)
          return (none, o)

/-! ### The draws behind a phrase -/

/-- The format and the substitution data that draws select. -/
inductive Chooses (y : YogiGen) : List (Option UInt16) → FormatString → SubstitutionData → Prop
  | intro {rnd : UInt16} {rest : List (Option UInt16)} {f : FormatString}
      {s : SubstitutionData} : y.formats.count ≠ 0 →
      getFormats y (rnd % y.formats.count) = some f →
      Selects y f.data 0 .build f.count.toNat rest s → Chooses y (some rnd :: rest) f s

/-- A format with positions, all of which are found in the tables. -/
def Complete (y : YogiGen) (f : FormatString) (s : SubstitutionData) : Prop :=
  0 < f.count.toNat ∧ ∀ i : Fin 8, i.val < f.count.toNat → (lookup y s i).isSome

/-- Draws that make a phrase. -/
def Succeeds (y : YogiGen) (draws : List (Option UInt16)) : Prop :=
  ∃ f s, Chooses y draws f s ∧ Complete y f s

/-- A format is drawn from a table that is not empty. -/
theorem yields_randomFormats_iff {y : YogiGen} {f : FormatString}
    {draws : List (Option UInt16)} :
    (randomFormats y).Yields draws (some f) ↔
      ∃ rnd, draws = [some rnd] ∧ y.formats.count ≠ 0 ∧
        getFormats y (rnd % y.formats.count) = some f := by
  constructor
  · intro h
    obtain ⟨rnd, rest, rfl, h₁⟩ := yields_next_bind_iff.mp h
    cases rnd with
    | none => exact absurd (yields_pure_iff.mp h₁).2 (by simp)
    | some rnd =>
        dsimp only at h₁
        split_ifs at h₁ with h0
        · exact absurd h₁ not_yields_fail
        · obtain ⟨rfl, hf⟩ := yields_pure_iff.mp h₁
          exact ⟨rnd, rfl, h0, hf.symm⟩
  · rintro ⟨rnd, rfl, h0, hf⟩
    refine yields_next_bind_iff.mpr ⟨some rnd, [], rfl, ?_⟩
    dsimp only
    rw [if_neg h0]
    exact yields_pure_iff.mpr ⟨rfl, hf.symm⟩

/-- Draws select at most one thing. -/
theorem Selects.unique {y : YogiGen} {data : UInt64} {i n : ℕ} {s s₁ s₂ : SubstitutionData}
    {draws : List (Option UInt16)} (h₁ : Selects y data i s n draws s₁)
    (h₂ : Selects y data i s n draws s₂) : s₁ = s₂ := by
  have huniq := (yields_processLoop_iff.mpr h₁).unique (yields_processLoop_iff.mpr h₂)
    (m := []) (n := []) rfl
  exact Option.some.inj huniq.2

/-- The draws determine the format and the selection. -/
theorem Chooses.unique {y : YogiGen} {draws : List (Option UInt16)} {f₁ f₂ : FormatString}
    {s₁ s₂ : SubstitutionData} (h₁ : Chooses y draws f₁ s₁) (h₂ : Chooses y draws f₂ s₂) :
    f₁ = f₂ ∧ s₁ = s₂ := by
  cases h₁ with
  | intro _ hf₁ hs₁ =>
      cases h₂ with
      | intro _ hf₂ hs₂ =>
          obtain rfl := Option.some.inj (hf₁.symm.trans hf₂)
          exact ⟨rfl, hs₁.unique hs₂⟩

/-- A selection stays within the eight positions. -/
theorem Selects.le {y : YogiGen} {data : UInt64} {i n : ℕ} {s s' : SubstitutionData}
    {draws : List (Option UInt16)} (h : Selects y data i s n draws s') (hn : 0 < n) :
    i + n ≤ 8 := by
  induction h with
  | nil => exact absurd hn (lt_irrefl 0)
  | @cons i n s s₁ s₂ draws₁ draws₂ hi hstep hrest ih =>
      by_cases h0 : n = 0
      · omega
      · have := ih (Nat.pos_of_ne_zero h0)
        omega

/-! ### Phrases -/

/-- The number of positions the substitution loop visits after the first one. -/
theorem further_positions {f : FormatString} (h : f.count.toNat ≤ 8) :
    (f.count.toInt8.toInt - 1).toNat = f.count.toNat - 1 := by
  have hall : ∀ n : Fin 9,
      ((UInt8.ofNat n.val).toInt8.toInt - 1).toNat = n.val - 1 := by
    decide
  have hcount := hall ⟨f.count.toNat, by omega⟩
  rwa [UInt8.ofNat_toNat] at hcount

/-- Nothing is found at the first position when no position has been filled. -/
theorem lookup_build (y : YogiGen) (i : Fin 8) : lookup y .build i = none := by
  have hsmall := (y.table .verb).small
  have hidx : (SubstitutionData.build.ins i).toUInt16.toNat = 65535 := rfl
  rw [lookup, getExpression_eq, hidx]
  exact List.getElem?_eq_none (Nat.le_of_lt_succ hsmall)

/-- The loop has one turn less than there are positions behind the first. -/
theorem further_positions_withFormat {s : SubstitutionData} {f : FormatString}
    (h : f.count.toNat ≤ 8) :
    ((s.withFormat f).count.toInt - 1).toNat = f.count.toNat - 1 :=
  further_positions h

/-- A format with a selection has at most eight positions. -/
theorem Selects.count_le {y : YogiGen} {data : UInt64} {s' : SubstitutionData} {n : ℕ}
    {draws : List (Option UInt16)} (h : Selects y data 0 .build n draws s') : n ≤ 8 := by
  rcases Nat.eq_zero_or_pos n with rfl | hn
  · exact Nat.zero_le 8
  · have := h.le hn
    omega

/-- Without positions nothing is selected, and nothing is found. -/
theorem Selects.lookup_empty {y : YogiGen} {data : UInt64} {n : ℕ} {s : SubstitutionData}
    {draws : List (Option UInt16)} (h : Selects y data 0 .build n draws s) (hn : n = 0) :
    lookup y s 0 = none := by
  subst hn
  cases h with
  | nil => exact lookup_build y 0

/-- **The text of a selection** can be put together if the selection is complete. -/
theorem substituteLoop_complete_iff {y : YogiGen} {f : FormatString} {s : SubstitutionData}
    {draws : List (Option UInt16)} (out : Bytes)
    (hs : Selects y f.data 0 .build f.count.toNat draws s) :
    (∃ r, substituteLoop (s.withFormat f) (f.count.toNat - 1) 0 y out = .ok (some r)) ↔
      Complete y f s := by
  have hcount := hs.count_le
  by_cases h0 : f.count.toNat = 0
  · have hnone : lookup y (s.withFormat f) 0 = none := hs.lookup_empty h0
    rw [substituteLoop_ok_iff (by omega), Complete]
    constructor
    · exact fun hall => absurd (hall 0 le_rfl (Nat.zero_le _)) (by simp [hnone])
    · exact fun hcomplete => absurd hcomplete.1 (by omega)
  · rw [substituteLoop_ok_iff (by omega), Complete]
    constructor
    · exact fun hall => ⟨Nat.pos_of_ne_zero h0, fun i hi => hall i (Nat.zero_le _) (by omega)⟩
    · exact fun hcomplete k _ hk => hcomplete.2 k (by omega)

/-- A phrase is put together from what its draws selected. -/
theorem chooses_of_yields {y y' : YogiGen} {draws : List (Option UInt16)} {out : Bytes}
    (h : (composePhrase y).Yields draws (some (out, y'))) :
    ∃ f s, Chooses y draws f s ∧
      substituteAndPrettify y (s.withFormat f) = .ok (some (out, y')) := by
  obtain ⟨u, v, fmt, rfl, hu, h₁⟩ := yields_bind_iff.mp h
  cases fmt with
  | none => exact absurd (yields_pure_iff.mp h₁).2 (by simp)
  | some f =>
      obtain ⟨rnd, rfl, h0, hf⟩ := yields_randomFormats_iff.mp hu
      obtain ⟨v₁, v₂, sData, rfl, hv, h₂⟩ := yields_bind_iff.mp h₁
      cases sData with
      | none => exact absurd (yields_pure_iff.mp h₂).2 (by simp)
      | some sData =>
          obtain ⟨s, hs, rfl⟩ := yields_processFormats_iff.mp hv
          obtain ⟨rfl, hsub⟩ := yields_ofExcept_iff.mp h₂
          rw [List.append_nil]
          exact ⟨f, s, .intro h0 hf hs, hsub⟩

/-- **Inversion of a phrase**: draws selected its format and its expressions, and the
tables are as before exactly if no article was corrected. -/
theorem yields_composePhrase_inv {y y' : YogiGen} {draws : List (Option UInt16)} {out : Bytes}
    (h : (composePhrase y).Yields draws (some (out, y'))) :
    ∃ f s, Chooses y draws f s ∧ Complete y f s ∧
      ((∀ type, y'.table type = y.table type) ↔
        ∀ i : Fin 8, i.val < f.count.toNat → ¬ Articled y s i) ∧
      ((∀ i : Fin 8, i.val < f.count.toNat → ¬ Articled y s i) → y' = y) := by
  obtain ⟨f, s, hchooses, hsub⟩ := chooses_of_yields h
  obtain ⟨out₀, hloop, -⟩ := substituteAndPrettify_ok_iff.mp hsub
  cases id hchooses with
  | intro h0 hf hs =>
      rw [further_positions_withFormat hs.count_le] at hloop
      have hcomplete := (substituteLoop_complete_iff _ hs).mp ⟨_, hloop⟩
      have hpos := hcomplete.1
      refine ⟨f, s, hchooses, hcomplete, ?_, fun hno => ?_⟩
      · refine (substituteLoop_tables_iff hloop).trans ?_
        constructor
        · exact fun hno i hi => hno i (Nat.zero_le _) (by omega)
        · exact fun hno i _ hi => hno i (by omega)
      · exact substituteLoop_eq_self hloop fun i _ hi => hno i (by omega)

/-- **The draws that make a phrase.** -/
theorem composePhrase_succeeds_iff {y : YogiGen} {draws : List (Option UInt16)} :
    (∃ out y', (composePhrase y).Yields draws (some (out, y'))) ↔ Succeeds y draws := by
  constructor
  · rintro ⟨out, y', h⟩
    obtain ⟨f, s, hchooses, hcomplete, -⟩ := yields_composePhrase_inv h
    exact ⟨f, s, hchooses, hcomplete⟩
  · rintro ⟨f, s, hchooses, hcomplete⟩
    cases hchooses with
    | @intro rnd rest _ _ h0 hf hs =>
        obtain ⟨⟨y', out₀⟩, hloop⟩ := (substituteLoop_complete_iff f.str hs).mpr hcomplete
        obtain ⟨out, hcap⟩ := capitalise_isSome out₀
        rw [← further_positions_withFormat (s := s) hs.count_le] at hloop
        have hsub := substituteAndPrettify_ok_iff.mpr ⟨out₀, hloop, hcap⟩
        refine ⟨out, y', yields_bind_iff.mpr ⟨[some rnd], rest, some f, rfl,
          yields_randomFormats_iff.mpr ⟨rnd, rfl, h0, hf⟩, ?_⟩⟩
        refine yields_bind_iff.mpr ⟨rest, [], some (s.withFormat f), (List.append_nil _).symm,
          yields_processFormats_iff.mpr ⟨s, hs, rfl⟩, ?_⟩
        exact yields_ofExcept_iff.mpr ⟨rfl, hsub⟩

/-- **A call of `YogiGen_generate`** is made on a live object; it makes a phrase, or it
releases the object. -/
theorem generate_cases {o o' : Object} {draws : List (Option UInt16)} {r : Option Bytes}
    (h : (generate o).Yields draws (r, o')) :
    ∃ y, o.contents = some y ∧
      ((∃ out y', r = some out ∧ o' = { o with contents := some y' } ∧
          (composePhrase y).Yields draws (some (out, y'))) ∨
        (r = none ∧ o' = { contents := none, closes := o.closes + 1 } ∧
          (composePhrase y).Yields draws none)) := by
  rw [generate] at h
  cases hc : o.contents with
  | none =>
      rw [hc] at h
      exact absurd h not_yields_fail
  | some y =>
      rw [hc] at h
      refine ⟨y, rfl, ?_⟩
      obtain ⟨u, v, phrase, rfl, hu, h₁⟩ := yields_bind_iff.mp h
      cases phrase with
      | some p =>
          obtain ⟨out, y'⟩ := p
          obtain ⟨rfl, heq⟩ := yields_pure_iff.mp h₁
          obtain ⟨rfl, rfl⟩ := Prod.mk.inj heq
          rw [List.append_nil]
          exact .inl ⟨out, y', rfl, rfl, hu⟩
      | none =>
          obtain ⟨v₁, v₂, o₁, rfl, hv, h₂⟩ := yields_bind_iff.mp h₁
          obtain ⟨rfl, hclose⟩ := yields_ofExcept_iff.mp hv
          obtain ⟨rfl, heq⟩ := yields_pure_iff.mp h₂
          obtain ⟨rfl, rfl⟩ := Prod.mk.inj heq
          rw [yogiGenClose, hc] at hclose
          rw [List.append_nil, List.append_nil]
          exact .inr ⟨rfl, (Except.ok.inj hclose).symm, hu⟩

/-- Success and failure exclude each other for the same draws. -/
theorem succeeds_of_yields {y : YogiGen} {draws : List (Option UInt16)}
    {r : Option (Bytes × YogiGen)} (h : (composePhrase y).Yields draws r) :
    Succeeds y draws ↔ r ≠ none := by
  rw [← composePhrase_succeeds_iff]
  constructor
  · rintro ⟨out, y', h'⟩ rfl
    have huniq := h.unique h' (m := []) (n := []) rfl
    exact absurd huniq.2 (by simp)
  · intro hr
    obtain ⟨⟨out, y'⟩, rfl⟩ := Option.ne_none_iff_exists'.mp hr
    exact ⟨out, y', h⟩

end Yogigen
