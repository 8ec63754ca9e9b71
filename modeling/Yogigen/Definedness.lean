import Yogigen.Generate

/-!
# When Generation is Defined

The loaded contents on which `YogiGen_generate` divides by no zero and reads nothing
outside its arrays, for every sequence of draws; and those on which it moreover returns
for every sequence of draws. Both are laws of computations, so the conditions are found
by going through the program once.

## Main results

* `forwardScan_isSome_iff`, `backwardScan_isSome_iff`: when the scans over the verbs end
  within them.
* `processLoop_law_iff`: a run of positions is defined if every position that draws can
  reach is.
* `generate_defined_iff`: the exact conditions on the loaded contents.
-/

open Printf Supply Supply.Reader

namespace Yogigen

/-! ### Scans -/

/-- There is a verb that stops the forward scan, and one that stops the backward scan
from a limit, which is itself within the verbs. -/
structure Scannable (verbs : List Expression) (limit : ℕ) : Prop where
  forward : ∃ e ∈ verbs.drop 1, vflagNpostpObjOk ≤ e.flags
  within : limit ≤ verbs.length
  backward : ∃ e ∈ verbs.take limit, e.flags ≤ vflagNpostpAllOk

/-- The forward scan needs a verb to stop at. -/
theorem forwardScan_isSome_iff (es : List Expression) (i : UInt16) :
    (∃ k, forwardScan es i = some k) ↔ ∃ e ∈ es, vflagNpostpObjOk ≤ e.flags := by
  induction es generalizing i with
  | nil => simp [forwardScan]
  | cons e es ih =>
      rw [forwardScan]
      split_ifs with hlt
      · rw [ih, List.exists_mem_cons_iff]
        exact (or_iff_right (UInt8.not_le.mpr hlt)).symm
      · rw [List.exists_mem_cons_iff]
        exact iff_of_true ⟨i, rfl⟩ (.inl (UInt8.not_lt.mp hlt))

/-- So does the backward scan, from within the table. -/
theorem backwardScan_isSome_iff (verbs : List Expression) (i : ℕ) :
    (∃ k, backwardScan verbs i = some k) ↔
      i < verbs.length ∧ ∃ e ∈ verbs.take (i + 1), e.flags ≤ vflagNpostpAllOk := by
  induction i with
  | zero =>
      rw [backwardScan]
      cases verbs with
      | nil => simp
      | cons e es =>
          simp only [List.getElem?_cons_zero, List.length_cons, Nat.zero_lt_succ, true_and,
            Nat.zero_add, List.take_succ_cons, List.take_zero, List.mem_singleton,
            exists_eq_left]
          split_ifs with hlt
          · exact iff_of_false (by simp) (UInt8.not_le.mpr hlt)
          · exact iff_of_true ⟨0, rfl⟩ (UInt8.not_lt.mp hlt)
  | succ i ih =>
      rw [backwardScan]
      by_cases hi : i + 1 < verbs.length
      · rw [List.getElem?_eq_getElem hi]
        dsimp only
        have hlast : verbs.take (i + 1 + 1) = verbs.take (i + 1) ++ [verbs[i + 1]] := by
          rw [List.take_append_getElem hi]
        rw [hlast]
        split_ifs with hlt
        · rw [ih]
          constructor
          · rintro ⟨-, e, he, hflags⟩
            exact ⟨hi, e, List.mem_append_left _ he, hflags⟩
          · rintro ⟨-, e, he, hflags⟩
            rcases List.mem_append.mp he with he | he
            · exact ⟨by omega, e, he, hflags⟩
            · obtain rfl := List.mem_singleton.mp he
              exact absurd hflags (UInt8.not_le.mpr hlt)
        · refine iff_of_true ⟨_, rfl⟩ ⟨hi, verbs[i + 1], ?_, UInt8.not_lt.mp hlt⟩
          exact List.mem_append_right _ (List.mem_singleton.mpr rfl)
      · rw [List.getElem?_eq_none (not_lt.mp hi)]
        simp [hi]

/-! ### The retry loop -/

/-- The search for an unused index has no fault. -/
theorem loop_uniqueBody_faultless (limit resId : UInt16) (usedIds : Fin 4 → Int16) :
    (loop (uniqueBody limit usedIds) resId).Faultless := by
  have hbody : ∀ id, (uniqueBody limit usedIds id).Faultless := by
    intro id
    rw [uniqueBody]
    split_ifs
    · rw [faultless_law.bind_iff_of_pure]
      · exact faultless_law.next
      · rintro (_ | rnd)
        · exact ⟨.inr errorIdx, rfl⟩
        · exact ⟨.inl (rnd % limit), rfl⟩
    · exact faultless_law.pure _
  intro ds e
  exact loop_not_fault (fun id _ => hbody id) (fun _ _ _ _ _ => trivial) ds.length trivial le_rfl

/-- The loop repeats for ever while the draws give an id that is in use. -/
theorem loop_uniqueBody_total_iff {limit rnd : UInt16} {usedIds : Fin 4 → Int16} :
    (loop (uniqueBody limit usedIds) (rnd % limit)).Total ↔
      clashes usedIds (rnd % limit) = false := by
  constructor
  · intro h
    by_contra hclash
    rw [Bool.not_eq_false] at hclash
    obtain ⟨n, a, hy⟩ := h fun _ => some rnd
    have hstarved := uniqueLoop_starved n hclash fun _ => hclash
    exact absurd (hy.run.symm.trans hstarved) (by simp)
  · intro hfree stream
    have hexit : (loop (uniqueBody limit usedIds) (rnd % limit)).Yields [] (rnd % limit) :=
      yields_loop_iff.mpr (.inl (yields_uniqueBody_iff.mpr (.inl ⟨hfree, rfl, rfl⟩)))
    exact ⟨0, rnd % limit, hexit⟩

/-! ### Laws of the selection -/

/-- What the first position of a slot needs of the tables. -/
structure SlotDefined (y : YogiGen) (d : Descriptor) : Prop where
  nonempty : d.flag.isReserved = false → (y.table d.type).entries ≠ []
  scannable : d.flag.isPostpos = true →
    Scannable y.verbs.entries (y.table d.type).entries.length

section

variable {Φ : (α : Type) → Gen α → Prop} (law : Law Φ)

include law

/-- The post-position is drawn without fault when both scans stop. -/
theorem randomPostpos_law_iff {y : YogiGen} {limit : UInt16} {flag : FstrFlag}
    (h0 : limit ≠ 0) :
    Φ _ (randomPostpos y limit flag) ↔ Scannable y.verbs.entries limit.toNat := by
  have hpos : 0 < limit.toNat := by
    rw [Nat.pos_iff_ne_zero]
    exact fun h => h0 (UInt16.toNat_inj.mp h)
  have hforward := forwardScan_isSome_iff (y.verbs.entries.drop 1) 1
  have hbackward := backwardScan_isSome_iff y.verbs.entries (limit.toNat - 1)
  rw [Nat.sub_add_cancel hpos] at hbackward
  rw [randomPostpos]
  cases hf : forwardScan (y.verbs.entries.drop 1) 1 with
  | none =>
      refine iff_of_false (law.fail _) fun hscan => ?_
      obtain ⟨k, hk⟩ := hforward.mpr hscan.forward
      exact absurd (hf.symm.trans hk) (by simp)
  | some posX =>
      cases hb : backwardScan y.verbs.entries (limit.toNat - 1) with
      | none =>
          refine iff_of_false (law.fail _) fun hscan => ?_
          have hwithin := hscan.within
          obtain ⟨k, hk⟩ := hbackward.mpr ⟨by omega, hscan.backward⟩
          exact absurd (hb.symm.trans hk) (by simp)
      | some i =>
          obtain ⟨hlt, hstop⟩ := hbackward.mp ⟨i, hb⟩
          refine iff_of_true ?_ ⟨hforward.mp ⟨posX, hf⟩, by omega, hstop⟩
          refine law.next_bind_iff.mpr ?_
          rintro (_ | rnd)
          · exact law.pure _
          · exact law.pure _

/-- What the flags need. -/
theorem handleFlag_law_iff {y : YogiGen} {limit resId : UInt16} {flag : FstrFlag}
    {usedIds : Fin 4 → Int16} (h0 : limit ≠ 0) :
    Φ _ (handleFlag y limit flag usedIds resId) ↔
      (flag.isPostpos = true → Scannable y.verbs.entries limit.toNat) ∧
      (flag = .unique → Φ _ (loop (uniqueBody limit usedIds) resId)) := by
  cases flag with
  | unique => simp [handleFlag, FstrFlag.isPostpos]
  | postposCept | postposAll | postposObj =>
      simp [handleFlag, FstrFlag.isPostpos, randomPostpos_law_iff law h0]
  | noFlags | indefArt | flag6 | flag7 =>
      simp [handleFlag, FstrFlag.isPostpos, law.pure]

/-- What the choice of an expression needs. -/
theorem randomExpressionId_law_iff {y : YogiGen} {type : ExprType} {flag : FstrFlag}
    {usedIds : Fin 4 → Int16} :
    Φ _ (randomExpressionId y type flag usedIds) ↔
      (y.table type).entries ≠ [] ∧
      (flag.isPostpos = true → Scannable y.verbs.entries (y.table type).entries.length) ∧
      (flag = .unique → ∀ rnd,
        Φ _ (loop (uniqueBody (y.table type).count usedIds) (rnd % (y.table type).count))) := by
  have hempty := (y.table type).count_eq_zero_iff
  refine law.next_bind_iff.trans ?_
  by_cases h0 : (y.table type).count = 0
  · refine iff_of_false (fun h => ?_) fun h => h.1 (hempty.mp h0)
    have hfail := h (some 0)
    simp only [h0, if_true] at hfail
    exact law.fail _ hfail
  · constructor
    · intro h
      have hsome : ∀ rnd, Φ _ (handleFlag y (y.table type).count flag usedIds
          (rnd % (y.table type).count)) := by
        intro rnd
        have hrnd := h (some rnd)
        simpa only [if_neg h0] using hrnd
      refine ⟨fun hnil => h0 (hempty.mpr hnil), fun hflag => ?_, fun hflag rnd => ?_⟩
      · rw [← Table.toNat_count]
        exact ((handleFlag_law_iff law h0).mp (hsome 0)).1 hflag
      · exact ((handleFlag_law_iff law h0).mp (hsome rnd)).2 hflag
    · rintro ⟨-, hscan, hunique⟩ (_ | rnd)
      · exact law.pure _
      · dsimp only
        rw [if_neg h0, handleFlag_law_iff law h0, Table.toNat_count]
        exact ⟨hscan, fun hflag => hunique hflag rnd⟩

/-- **The expression of a slot.** -/
theorem chooseExpression_law_iff {y : YogiGen} {d : Descriptor} {s : SubstitutionData} :
    Φ _ (chooseExpression y d s) ↔
      SlotDefined y d ∧
      (d.flag = .unique → ∀ rnd, Φ _ (loop (uniqueBody (y.table d.type).count
        (s.typewiseIdx d.type)) (rnd % (y.table d.type).count))) := by
  have hcall : ∀ (flag : FstrFlag) (usedIds : Fin 4 → Int16),
      Φ _ (randomExpressionId y d.type flag usedIds >>= fun exprI => pure (some exprI)) ↔
        Φ _ (randomExpressionId y d.type flag usedIds) :=
    fun flag usedIds => law.bind_iff_of_pure fun id => ⟨some id, rfl⟩
  have hdefined : SlotDefined y d ↔
      (d.flag.isReserved = false → (y.table d.type).entries ≠ []) ∧
      (d.flag.isPostpos = true → Scannable y.verbs.entries (y.table d.type).entries.length) :=
    ⟨fun h => ⟨h.nonempty, h.scannable⟩, fun h => ⟨h.1, h.2⟩⟩
  rw [hdefined]
  obtain ⟨mode, type, typeIdx, flag⟩ := d
  cases flag with
  | noFlags | indefArt | unique | postposCept | postposAll | postposObj =>
      simp only [chooseExpression]
      rw [hcall, randomExpressionId_law_iff law]
      simp [FstrFlag.isPostpos, FstrFlag.isReserved]
  | flag6 | flag7 =>
      simp [chooseExpression, FstrFlag.isPostpos, FstrFlag.isReserved, law.pure]

/-- **One position** is defined unless it is the first of a slot, which has to be. -/
theorem processStep_law_iff {y : YogiGen} {data : UInt64} {i : Fin 8} {s : SubstitutionData} :
    Φ _ (processStep y data i s) ↔
      (s.slot (decodeByte (byteOf data i)) = -1 →
        Φ _ (chooseExpression y (decodeByte (byteOf data i)) s)) := by
  rw [processStep]
  generalize decodeByte (byteOf data i) = d
  split_ifs with hslot
  · rw [law.bind_iff_of_pure]
    · simp [hslot]
    · rintro (_ | id)
      · exact ⟨none, rfl⟩
      · by_cases hid : id = errorIdx
        · exact ⟨none, if_pos hid⟩
        · exact ⟨some (s.assign i d id), if_neg hid⟩
  · simp [hslot, law.pure]

/-- **A run of positions** is defined if every position that draws can reach is one of
the eight and is defined. -/
theorem processLoop_law_iff {y : YogiGen} {data : UInt64} {n i : ℕ} {s : SubstitutionData} :
    Φ _ (processLoop y data n i s) ↔
      ∀ m < n, ∀ draws s', Selects y data i s m draws s' →
        ∃ h : i + m < 8, Φ _ (processStep y data ⟨i + m, h⟩ s') := by
  induction n generalizing i s with
  | zero =>
      rw [processLoop]
      exact iff_of_true (law.pure _) fun m hm => absurd hm (Nat.not_lt_zero m)
  | succ n ih =>
      rw [processLoop]
      by_cases hi : i < 8
      · rw [dif_pos hi, law.bind]
        constructor
        · rintro ⟨hstep, hrest⟩ m hm draws s' hsel
          cases hsel with
          | nil => exact ⟨hi, hstep⟩
          | @cons _ m _ s₁ _ draws₁ draws₂ _ hadv hsel =>
              have hyields : (processStep y data ⟨i, hi⟩ s).Yields draws₁ (some s₁) :=
                yields_processStep_iff.mpr hadv
              have hlater := ih.mp (hrest draws₁ (some s₁) hyields) m (by omega) draws₂ s' hsel
              rwa [Nat.add_right_comm, Nat.add_assoc] at hlater
        · intro hall
          refine ⟨(hall 0 (Nat.succ_pos n) [] s (.nil i s)).2, fun used r hr => ?_⟩
          cases r with
          | none => exact law.pure _
          | some s₁ =>
              refine ih.mpr fun m hm draws s' hsel => ?_
              have hadv := yields_processStep_iff.mp hr
              have hlater := hall (m + 1) (by omega) (used ++ draws) s' (.cons hi hadv hsel)
              rwa [← Nat.add_assoc, Nat.add_right_comm] at hlater
      · rw [dif_neg hi]
        refine iff_of_false (law.fail _) fun hall => ?_
        obtain ⟨h, -⟩ := hall 0 (Nat.succ_pos n) [] s (.nil i s)
        exact hi h

end

/-! ### Contents -/

/-- The descriptor of a position. -/
def FormatString.descriptor (f : FormatString) (m : ℕ) : Descriptor :=
  decodeByte (byteOf f.data m)

/-- Some draws bring `process_formats` to a position of the format, with this data. -/
def Reached (y : YogiGen) (f : FormatString) (m : ℕ) (s : SubstitutionData) : Prop :=
  m < f.count.toNat ∧ ∃ draws, Selects y f.data 0 .build m draws s

/-- There is a format, and at every position that is reached the arrays have an entry and
the tables have what the first position of a slot needs. -/
structure ContentDefined (y : YogiGen) : Prop where
  formats : y.formats.entries ≠ []
  positions : ∀ f ∈ y.formats.entries, ∀ m s, Reached y f m s →
    m < 8 ∧ (s.slot (f.descriptor m) = -1 → SlotDefined y (f.descriptor m))

/-- No draw for a unique slot gives an id that is in use. -/
def RetryFree (y : YogiGen) : Prop :=
  ∀ f ∈ y.formats.entries, ∀ m s, Reached y f m s → s.slot (f.descriptor m) = -1 →
    (f.descriptor m).flag = .unique → ∀ rnd,
      clashes (s.typewiseIdx (f.descriptor m).type)
        (rnd % (y.table (f.descriptor m).type).count) = false

/-- Every format is drawn by some draw, and nothing else is. -/
theorem mem_formats_iff {y : YogiGen} (h0 : y.formats.count ≠ 0) {f : FormatString} :
    f ∈ y.formats.entries ↔ ∃ rnd, getFormats y (rnd % y.formats.count) = some f := by
  have hpos : 0 < y.formats.count.toNat := by
    rw [Nat.pos_iff_ne_zero]
    exact fun h => h0 (UInt16.toNat_inj.mp h)
  constructor
  · intro hf
    obtain ⟨i, hi, rfl⟩ := List.mem_iff_getElem.mp hf
    have hsmall := y.formats.small
    have hidx : (UInt16.ofNat i).toNat = i := by
      rw [UInt16.toNat_ofNat', Nat.mod_eq_of_lt (by omega)]
    refine ⟨UInt16.ofNat i, ?_⟩
    have hmod : UInt16.ofNat i % y.formats.count = UInt16.ofNat i := by
      rw [← UInt16.toNat_inj, UInt16.toNat_mod, hidx, Table.toNat_count, Nat.mod_eq_of_lt hi]
    have hlt : UInt16.ofNat i < y.formats.count := by
      rw [UInt16.lt_iff_toNat_lt, hidx, Table.toNat_count]
      exact hi
    rw [getFormats, hmod, if_pos hlt, hidx, List.getElem?_eq_getElem hi]
  · rintro ⟨rnd, hf⟩
    rw [getFormats] at hf
    split_ifs at hf
    exact List.mem_of_getElem? hf

section

variable {Φ : (α : Type) → Gen α → Prop} (law : Law Φ)

include law

/-- What the loop over the positions needs, at each one that is reached. -/
theorem processFormats_law_iff {y : YogiGen} {f : FormatString} :
    Φ _ (processFormats y f) ↔ ∀ m s, Reached y f m s →
      m < 8 ∧ (s.slot (f.descriptor m) = -1 → Φ _ (chooseExpression y (f.descriptor m) s)) := by
  rw [processFormats, law.bind_iff_of_pure, processLoop_law_iff law]
  · constructor
    · rintro hall m s ⟨hm, draws, hsel⟩
      obtain ⟨h, hstep⟩ := hall m hm draws s hsel
      simp only [Nat.zero_add, processStep_law_iff law] at h hstep
      exact ⟨h, hstep⟩
    · intro hall m hm draws s hsel
      obtain ⟨h, hchoose⟩ := hall m s ⟨hm, draws, hsel⟩
      simp only [Nat.zero_add, processStep_law_iff law]
      exact ⟨h, hchoose⟩
  · rintro (_ | s)
    · exact ⟨none, rfl⟩
    · exact ⟨some (s.withFormat f), rfl⟩

/-- A selection has at most eight positions, so its text is put together within them. -/
theorem substitute_law {y : YogiGen} {f : FormatString} {s : SubstitutionData}
    {draws : List (Option UInt16)} (hsel : Selects y f.data 0 .build f.count.toNat draws s) :
    Φ _ (ofExcept (substituteAndPrettify y (s.withFormat f))) := by
  have hcount := hsel.count_le
  have hfurther := further_positions_withFormat (s := s) hcount
  obtain ⟨r, hr⟩ := substituteAndPrettify_not_error (y := y) (s := s.withFormat f) (by omega)
  rw [hr]
  exact law.pure r

/-- **The three calls of `YogiGen_generate`.** -/
theorem composePhrase_law_iff {y : YogiGen} :
    Φ _ (composePhrase y) ↔
      y.formats.entries ≠ [] ∧ ∀ f ∈ y.formats.entries, Φ _ (processFormats y f) := by
  have hempty := y.formats.count_eq_zero_iff
  rw [composePhrase, law.bind]
  by_cases h0 : y.formats.count = 0
  · refine iff_of_false (fun h => ?_) fun h => h.1 (hempty.mp h0)
    have hfail := law.next_bind_iff.mp h.1 (some 0)
    simp only [h0, if_true] at hfail
    exact law.fail _ hfail
  · have hformats : Φ _ (randomFormats y) := by
      refine law.next_bind_iff.mpr ?_
      rintro (_ | rnd)
      · exact law.pure _
      · dsimp only
        rw [if_neg h0]
        exact law.pure _
    rw [and_iff_right hformats, and_iff_right fun hnil => h0 (hempty.mpr hnil)]
    constructor
    · intro hall f hf
      obtain ⟨rnd, hrnd⟩ := (mem_formats_iff h0).mp hf
      have hrest := hall [some rnd] (some f) (yields_randomFormats_iff.mpr ⟨rnd, rfl, h0, hrnd⟩)
      exact ((law.bind _ _).mp hrest).1
    · intro hall used r hr
      cases r with
      | none => exact law.pure _
      | some f =>
          obtain ⟨rnd, -, -, hrnd⟩ := yields_randomFormats_iff.mp hr
          refine (law.bind _ _).mpr ⟨hall f ((mem_formats_iff h0).mpr ⟨rnd, hrnd⟩), ?_⟩
          intro used' sData hsData
          cases sData with
          | none => exact law.pure _
          | some sData =>
              obtain ⟨s, hsel, rfl⟩ := yields_processFormats_iff.mp hsData
              exact substitute_law law hsel

/-- What `YogiGen_generate` needs is what the phrase needs. -/
theorem generate_law_iff {y : YogiGen} :
    Φ _ (generate (.loaded y)) ↔ Φ _ (composePhrase y) := by
  rw [generate, Object.loaded]
  dsimp only
  rw [law.bind_iff_of_pure]
  rintro (_ | ⟨out, y'⟩)
  · exact ⟨(none, ⟨none, 1⟩), rfl⟩
  · exact ⟨(some out, ⟨some y', 0⟩), rfl⟩

end

/-- **When generation is defined.** On a loaded state, `YogiGen_generate` divides by no
zero and stays within its arrays for every sequence of draws exactly if the contents are
defined; and it moreover returns for every sequence of draws exactly if, besides, no
unique slot is ever drawn again. -/
theorem generate_defined_iff (y : YogiGen) :
    ((∀ stream, (generate (.loaded y)).Safe stream) ↔ ContentDefined y) ∧
      ((∀ stream, (generate (.loaded y)).Safe stream ∧ (generate (.loaded y)).Returns stream) ↔
        ContentDefined y ∧ RetryFree y) := by
  constructor
  · rw [forall_safe_iff, generate_law_iff faultless_law, composePhrase_law_iff faultless_law]
    have hslot : ∀ d s, (chooseExpression y d s).Faultless ↔ SlotDefined y d := by
      intro d s
      rw [chooseExpression_law_iff faultless_law]
      exact and_iff_left fun _ _ => loop_uniqueBody_faultless _ _ _
    simp only [processFormats_law_iff faultless_law, hslot]
    exact ⟨fun h => ⟨h.1, h.2⟩, fun h => ⟨h.formats, h.positions⟩⟩
  · have htotal : (∀ stream, (generate (.loaded y)).Safe stream ∧
        (generate (.loaded y)).Returns stream) ↔ (generate (.loaded y)).Total :=
      ⟨fun h stream => (h stream).2, fun h stream => ⟨(h stream).safe, h stream⟩⟩
    rw [htotal, generate_law_iff total_law, composePhrase_law_iff total_law]
    have hslot : ∀ d s, (chooseExpression y d s).Total ↔ SlotDefined y d ∧
        (d.flag = .unique → ∀ rnd, clashes (s.typewiseIdx d.type)
          (rnd % (y.table d.type).count) = false) := by
      intro d s
      rw [chooseExpression_law_iff total_law]
      simp only [loop_uniqueBody_total_iff]
    simp only [processFormats_law_iff total_law, hslot]
    constructor
    · rintro ⟨hformats, hall⟩
      refine ⟨⟨hformats, fun f hf m s hm => ?_⟩, fun f hf m s hm hslot => ?_⟩
      · exact ⟨(hall f hf m s hm).1, fun hfresh => ((hall f hf m s hm).2 hfresh).1⟩
      · exact ((hall f hf m s hm).2 hslot).2
    · rintro ⟨hdefined, hfree⟩
      refine ⟨hdefined.formats, fun f hf m s hm => ?_⟩
      obtain ⟨hlt, hneeds⟩ := hdefined.positions f hf m s hm
      exact ⟨hlt, fun hfresh => ⟨hneeds hfresh, hfree f hf m s hm hfresh⟩⟩

/-- A state loaded from a database without rows. -/
def blank : YogiGen where
  verbs := .ofRows []
  adjs := .ofRows []
  cepts := .ofRows []
  objs := .ofRows []
  formats := .ofRows []
  conn := ⟨none, [], 0, maxConnNumber, 0⟩

/-- A database with one verb, and one format with the count `-1`. -/
def overlongDb : Database where
  expressions := [⟨ascii "be", ascii "is", 0, 0⟩]
  formats := [⟨ascii "%s.", 0, -1⟩]

/-- The state with a format whose count is too large. -/
def overlong : YogiGen where
  verbs := .ofRows [⟨0, 0, ascii "be", ascii "is"⟩]
  adjs := .ofRows []
  cepts := .ofRows []
  objs := .ofRows []
  formats := .ofRows [⟨ascii "%s.", 0, 255⟩]
  conn := ⟨none, [], 0, maxConnNumber, 0⟩

/-- The state is one that the program loads from the database. -/
theorem loads_blank : Loads ⟨[], []⟩ blank := by
  refine ⟨fun type => ⟨[], .refl _, .nil, ?_⟩, [], .refl _, rfl⟩
  cases type <;> rfl

/-- The state is one that the program loads from the database. -/
theorem loads_overlong : Loads overlongDb overlong := by
  refine ⟨fun type => ?_, overlongDb.formats, .refl _, by decide +kernel⟩
  cases type with
  | verb => exact ⟨overlongDb.expressions, .refl _, List.pairwise_singleton .., by decide +kernel⟩
  | adjective | concept | object => exact ⟨[], .refl _, .nil, by decide +kernel⟩

/-- Without formats the first draw is reduced modulo zero; a format with the count `-1`
is read as one with 255 positions. -/
theorem generate_not_defined :
    (Loads ⟨[], []⟩ blank ∧ (generate (.loaded blank)).run [some 0] = .fault .moduloZero) ∧
      Loads overlongDb overlong ∧
      (generate (.loaded overlong)).run [some 0, some 0] = .fault .outOfBounds := by
  refine ⟨⟨loads_blank, ?_⟩, loads_overlong, ?_⟩
  · decide +kernel
  · decide +kernel

end Yogigen
