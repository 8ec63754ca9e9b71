import Yogigen.Definedness

/-!
# Slots

A slot of a format is a type and an index within it. `process_formats` threads the slots
through its loop: the first position of a slot assigns it, and from then on it stays as it
is. Indices are stored as `int16_t`, with `-1` for an unassigned slot, so an index from
32768 on is stored as a negative number. It is read back correctly, but the test for ids in
use does not see it.

## Main results

* `Selects.assigned`: what the loop has put into the substitution data.
* `Selects.keeps`: an assigned slot stays as it is.
* `processFormats_slots`: positions of one slot share an expression of the table.
* `unique_iff`: unique slots get different expressions in tables of up to 32768 entries.
-/

open Printf Supply Supply.Reader

namespace Yogigen

/-! ### Stored indices -/

/-- The index -1 marks a slot that is not assigned. -/
theorem toInt16_eq_neg_one_iff (id : UInt16) : id.toInt16 = -1 ↔ id = errorIdx := by
  constructor
  · intro h
    have hid := congrArg Int16.toUInt16 h
    rw [UInt16.toUInt16_toInt16] at hid
    exact hid
  · rintro rfl
    rfl

/-- An index below 32768 is stored as the number it is. -/
theorem toInt_toInt16 {id : UInt16} (h : id.toNat < 32768) : id.toInt16.toInt = id.toNat := by
  rw [← Int16.toInt_toBitVec, UInt16.toBitVec_toInt16, BitVec.toInt_eq_toNat_of_lt]
  · rfl
  · rw [UInt16.toNat_toBitVec]
    omega

/-! ### One position -/

/-- Two descriptors of the same slot. -/
def SameSlot (d d' : Descriptor) : Prop :=
  d.type = d'.type ∧ d.typeIdx = d'.typeIdx

/-- Two descriptors with one slot, in the other order. -/
theorem SameSlot.symm {d d' : Descriptor} (h : SameSlot d d') : SameSlot d' d :=
  ⟨h.1.symm, h.2.symm⟩

/-- They have the same index. -/
theorem SameSlot.slot_eq {d d' : Descriptor} (h : SameSlot d d') (s : SubstitutionData) :
    s.slot d = s.slot d' := by
  rw [SubstitutionData.slot, SubstitutionData.slot, h.1, h.2]

/-- An assignment reaches the slot of its descriptor. -/
theorem slot_assign_of_same {d d' : Descriptor} (h : SameSlot d d') (s : SubstitutionData)
    (i : Fin 8) (id : UInt16) : (s.assign i d id).slot d' = id.toInt16 := by
  rw [← h.slot_eq]
  simp [SubstitutionData.slot, SubstitutionData.assign]

/-- Other slots keep theirs. -/
theorem slot_assign_of_not_same {d d' : Descriptor} (h : ¬ SameSlot d d')
    (s : SubstitutionData) (i : Fin 8) (id : UInt16) :
    (s.assign i d id).slot d' = s.slot d' := by
  simp only [SubstitutionData.slot, SubstitutionData.assign]
  by_cases htype : d'.type = d.type
  · have hidx : d'.typeIdx ≠ d.typeIdx := fun hidx => h ⟨htype.symm, hidx.symm⟩
    rw [htype, Function.update_self, Function.update_of_ne hidx]
  · rw [Function.update_of_ne htype]

/-- The descriptor of a byte of a data word. -/
def descriptorAt (data : UInt64) (i : ℕ) : Descriptor :=
  decodeByte (byteOf data i)

/-- A position that is the first of its slot. -/
def First (data : UInt64) (i : ℕ) : Prop :=
  ∀ j < i, ¬ SameSlot (descriptorAt data j) (descriptorAt data i)

/-- A position that has been filled from its byte and its slot. -/
structure Placed (data : UInt64) (s : SubstitutionData) (i : Fin 8) : Prop where
  type : s.types i = (descriptorAt data i).type
  mode : s.modes i = (descriptorAt data i).mode
  ins : s.ins i = s.slot (descriptorAt data i)
  assigned : s.slot (descriptorAt data i) ≠ -1

/-- A position stays filled while it and its slot stay as they are. -/
theorem Placed.of_eq {data : UInt64} {s s' : SubstitutionData} {i : Fin 8}
    (h : Placed data s i) (htype : s'.types i = s.types i) (hmode : s'.modes i = s.modes i)
    (hins : s'.ins i = s.ins i)
    (hslot : s'.slot (descriptorAt data i) = s.slot (descriptorAt data i)) : Placed data s' i where
  type := htype.trans h.type
  mode := hmode.trans h.mode
  ins := by rw [hins, h.ins, hslot]
  assigned := hslot ▸ h.assigned

/-- What `m` positions have put into the substitution data. -/
structure Assigned (data : UInt64) (m : ℕ) (s : SubstitutionData) : Prop where
  placed : ∀ i : Fin 8, i.val < m → Placed data s i
  fresh : ∀ d, (∀ i < m, ¬ SameSlot (descriptorAt data i) d) → s.slot d = -1
  article : ∀ i : Fin 8, s.flags i = .indefArt ↔
    i.val < m ∧ First data i ∧ (descriptorAt data i).flag = .indefArt

/-- Nothing has been assigned in the beginning. -/
theorem assigned_build (data : UInt64) : Assigned data 0 .build where
  placed i hi := absurd hi (Nat.not_lt_zero _)
  fresh _ _ := rfl
  article i := iff_of_false (by simp [SubstitutionData.build]) fun h => Nat.not_lt_zero _ h.1

/-- The slot of a position is unassigned if and only if the position is the first of it. -/
theorem Assigned.slot_eq_iff {data : UInt64} {m : ℕ} {s : SubstitutionData}
    (h : Assigned data m s) (hm : m < 8) :
    s.slot (descriptorAt data m) = -1 ↔ First data m := by
  constructor
  · intro hslot j hj hsame
    exact (h.placed ⟨j, by omega⟩ hj).assigned ((hsame.slot_eq s).trans hslot)
  · exact h.fresh _

/-- A position other than `m`. -/
theorem lt_succ_iff_of_ne {m : ℕ} (hm : m < 8) {i : Fin 8} (hi : i ≠ ⟨m, hm⟩) :
    i.val < m + 1 ↔ i.val < m := by
  have hne : i.val ≠ m := fun heq => hi (Fin.ext heq)
  omega

/-- **One position** keeps the account of the positions. -/
theorem Assigned.advances {y : YogiGen} {data : UInt64} {m : ℕ} {hm : m < 8}
    {s s' : SubstitutionData} {draws : List (Option UInt16)} (h : Assigned data m s)
    (hadv : Advances y (descriptorAt data m) ⟨m, hm⟩ s draws s') : Assigned data (m + 1) s' := by
  cases hadv with
  | @fresh _ id hslot _ hid =>
      -- the slots of the positions before are assigned, so none of them is this one
      have hfirst : First data m := (h.slot_eq_iff hm).mp hslot
      have hother : ∀ i < m, ¬ SameSlot (descriptorAt data m) (descriptorAt data i) :=
        fun i hi hsame => hfirst i hi hsame.symm
      refine ⟨fun i hi => ?_, fun d hd => ?_, fun i => ?_⟩
      · by_cases hne : i = ⟨m, hm⟩
        · subst hne
          have hself : SameSlot (descriptorAt data m) (descriptorAt data m) := ⟨rfl, rfl⟩
          have hhere := slot_assign_of_same hself s ⟨m, hm⟩ id
          refine ⟨Function.update_self .., Function.update_self .., ?_, ?_⟩
          · rw [hhere]
            exact Function.update_self ..
          · rw [hhere, ne_eq, toInt16_eq_neg_one_iff]
            exact hid
        · have hlt := (lt_succ_iff_of_ne hm hne).mp hi
          have hkeep := slot_assign_of_not_same (hother i hlt) s ⟨m, hm⟩ id
          exact (h.placed i hlt).of_eq (Function.update_of_ne hne ..)
            (Function.update_of_ne hne ..) (Function.update_of_ne hne ..) hkeep
      · rw [slot_assign_of_not_same (hd m (Nat.lt_succ_self m))]
        exact h.fresh d fun i hi => hd i (Nat.lt_succ_of_lt hi)
      · simp only [SubstitutionData.assign]
        by_cases hi : i = ⟨m, hm⟩
        · subst hi
          have hnot := h.article ⟨m, hm⟩
          simp only [Nat.lt_irrefl, false_and, iff_false] at hnot
          by_cases hart : (descriptorAt data m).flag = .indefArt
          · simp [hart, hfirst]
          · simp [hart, hnot]
        · rw [lt_succ_iff_of_ne hm hi, ← h.article i]
          split_ifs
          · rw [Function.update_of_ne hi]
          · rfl
  | again hslot =>
      have hfirst : ¬ First data m := fun hfirst => hslot ((h.slot_eq_iff hm).mpr hfirst)
      refine ⟨fun i hi => ?_, fun d hd => ?_, fun i => ?_⟩
      · by_cases hne : i = ⟨m, hm⟩
        · subst hne
          exact ⟨Function.update_self .., Function.update_self .., Function.update_self .., hslot⟩
        · have hlt := (lt_succ_iff_of_ne hm hne).mp hi
          exact (h.placed i hlt).of_eq (Function.update_of_ne hne ..)
            (Function.update_of_ne hne ..) (Function.update_of_ne hne ..) rfl
      · exact h.fresh d fun i hi => hd i (Nat.lt_succ_of_lt hi)
      · refine (h.article i).trans ?_
        by_cases hi : i = ⟨m, hm⟩
        · subst hi
          simp [hfirst]
        · rw [lt_succ_iff_of_ne hm hi]

/-- An assigned slot stays as it is. -/
theorem Advances.keeps {y : YogiGen} {d d' : Descriptor} {i : Fin 8} {s s' : SubstitutionData}
    {draws : List (Option UInt16)} (h : Advances y d i s draws s') (hd : s.slot d' ≠ -1) :
    s'.slot d' = s.slot d' := by
  cases h with
  | fresh hslot => exact slot_assign_of_not_same (fun hsame => hd (hsame.slot_eq s ▸ hslot)) s i _
  | again => rfl

/-! ### Runs of positions -/

section

variable {y : YogiGen} {data : UInt64} {i n : ℕ} {s s' : SubstitutionData}
  {draws : List (Option UInt16)}

/-- **What the loop has put into the substitution data.** -/
theorem Selects.assigned (h : Selects y data i s n draws s') (hs : Assigned data i s) :
    Assigned data (i + n) s' := by
  induction h with
  | nil i s => exact hs
  | @cons i n s s₁ s₂ draws₁ draws₂ hi hadv _ ih =>
      have hrest := ih (hs.advances hadv)
      rwa [Nat.add_right_comm, Nat.add_assoc] at hrest

/-- **A slot that is assigned stays as it is.** -/
theorem Selects.keeps (h : Selects y data i s n draws s') {d : Descriptor}
    (hd : s.slot d ≠ -1) : s'.slot d = s.slot d := by
  induction h with
  | nil i s => rfl
  | @cons i n s s₁ s₂ draws₁ draws₂ hi hadv _ ih =>
      have hstep := hadv.keeps hd
      rw [ih (hstep ▸ hd), hstep]

/-- A run of positions can be interrupted anywhere. -/
theorem Selects.split {m : ℕ} (h : Selects y data i s n draws s') (hm : m ≤ n) :
    ∃ s₁ draws₁ draws₂, draws = draws₁ ++ draws₂ ∧ Selects y data i s m draws₁ s₁ ∧
      Selects y data (i + m) s₁ (n - m) draws₂ s' := by
  induction m generalizing i n s draws with
  | zero => exact ⟨s, [], draws, rfl, .nil i s, h⟩
  | succ m ih =>
      cases h with
      | nil => exact absurd hm (Nat.not_succ_le_zero m)
      | @cons _ n _ s₁ _ draws₁ draws₂ hi hadv hrest =>
          obtain ⟨s₂, draws₃, draws₄, rfl, hfst, hsnd⟩ := ih hrest (Nat.le_of_succ_le_succ hm)
          refine ⟨s₂, draws₁ ++ draws₃, draws₄, (List.append_assoc ..).symm, .cons hi hadv hfst, ?_⟩
          rw [Nat.add_sub_add_right, ← Nat.add_assoc, Nat.add_right_comm]
          exact hsnd

end

/-! ### Indices within the tables -/

/-- The index that the search settles for is within the table. -/
theorem Settles.lt {limit id id' : UInt16} {usedIds : Fin 4 → Int16}
    {draws : List (Option UInt16)} (h : Settles limit usedIds id draws id')
    (h0 : 0 < limit.toNat) (hid : id.toNat < limit.toNat) : id'.toNat < limit.toNat := by
  induction h with
  | keep => exact hid
  | retry _ _ ih =>
      refine ih ?_
      rw [UInt16.toNat_mod]
      exact Nat.mod_lt _ h0

/-- And has not been used. -/
theorem Settles.not_clashes {limit id id' : UInt16} {usedIds : Fin 4 → Int16}
    {draws : List (Option UInt16)} (h : Settles limit usedIds id draws id') :
    clashes usedIds id' = false := by
  induction h with
  | keep hfree => exact hfree
  | retry _ _ ih => exact ih

/-- Without a post-position flag an index of the table is picked. -/
theorem Picks.lt {y : YogiGen} {type : ExprType} {usedIds : Fin 4 → Int16} {flag : FstrFlag}
    {draws : List (Option UInt16)} {id : UInt16} (h : Picks y type usedIds flag draws id)
    (hflag : flag.isPostpos = false) : id.toNat < (y.table type).entries.length := by
  have hpos : (y.table type).count ≠ 0 → 0 < (y.table type).count.toNat := by
    intro h0
    rw [Nat.pos_iff_ne_zero]
    exact fun hzero => h0 (UInt16.toNat_inj.mp hzero)
  rw [← Table.toNat_count]
  cases h with
  | plain _ h0 =>
      rw [UInt16.toNat_mod]
      exact Nat.mod_lt _ (hpos h0)
  | unique h0 hsettles =>
      refine hsettles.lt (hpos h0) ?_
      rw [UInt16.toNat_mod]
      exact Nat.mod_lt _ (hpos h0)
  | postpos hpost => exact absurd (hpost.symm.trans hflag) (by simp)

/-- Every assigned slot has an entry in the table of its type. -/
def InTables (y : YogiGen) (s : SubstitutionData) : Prop :=
  ∀ d, s.slot d ≠ -1 → (s.slot d).toUInt16.toNat < (y.table d.type).entries.length

/-- **One position** without a post-position flag stays within the tables. -/
theorem Advances.inTables {y : YogiGen} {d : Descriptor} {i : Fin 8} {s s' : SubstitutionData}
    {draws : List (Option UInt16)} (h : Advances y d i s draws s')
    (hflag : d.flag.isPostpos = false) (hs : InTables y s) : InTables y s' := by
  cases h with
  | @fresh _ id _ hpick _ =>
      intro d' hd'
      by_cases hsame : SameSlot d d'
      · rw [slot_assign_of_same hsame, UInt16.toUInt16_toInt16, ← hsame.1]
        exact hpick.lt hflag
      · rw [slot_assign_of_not_same hsame] at hd' ⊢
        exact hs d' hd'
  | again => exact hs

/-- So do all of them. -/
theorem Selects.inTables {y : YogiGen} {data : UInt64} {i n : ℕ} {s s' : SubstitutionData}
    {draws : List (Option UInt16)} (h : Selects y data i s n draws s')
    (hflag : ∀ k, i ≤ k → k < i + n → (descriptorAt data k).flag.isPostpos = false)
    (hs : InTables y s) : InTables y s' := by
  induction h with
  | nil => exact hs
  | @cons i n s s₁ s₂ draws₁ draws₂ hi hadv _ ih =>
      have hstep := hadv.inTables (hflag i le_rfl (by omega)) hs
      exact ih (fun k hk hk' => hflag k (by omega) (by omega)) hstep

/-- **Slots without post-position flags.** In what `process_formats` returns, positions of
one slot have the same expression. The slot has it from its first position on, whatever
positions follow, and its index, read as a `uint16_t`, is one of the table. -/
theorem processFormats_slots {y : YogiGen} {f : FormatString} {s : SubstitutionData}
    {draws : List (Option UInt16)}
    (hflag : ∀ i < f.count.toNat, (f.descriptor i).flag.isPostpos = false)
    (h : (processFormats y f).Yields draws (some s)) :
    (∀ i j : Fin 8, i.val < f.count.toNat → j.val < f.count.toNat →
      SameSlot (f.descriptor i) (f.descriptor j) → s.ins i = s.ins j) ∧
      (∀ m ≤ f.count.toNat, ∃ sₘ used rest, draws = used ++ rest ∧
        (processLoop y f.data m 0 .build).Yields used (some sₘ) ∧
        ∀ i : Fin 8, i.val < m → sₘ.slot (f.descriptor i) = s.ins i ∧ sₘ.ins i = s.ins i) ∧
      ∀ i : Fin 8, i.val < f.count.toNat → s.types i = (f.descriptor i).type ∧
        (s.ins i).toUInt16.toNat < (y.table (s.types i)).entries.length := by
  obtain ⟨s, hsel, rfl⟩ := yields_processFormats_iff.mp h
  have hfinal := hsel.assigned (assigned_build f.data)
  rw [Nat.zero_add] at hfinal
  refine ⟨fun i j hi hj hsame => ?_, fun m hm => ?_, fun i hi => ?_⟩
  · calc s.ins i = s.slot (f.descriptor i) := (hfinal.placed i hi).ins
      _ = s.slot (f.descriptor j) := hsame.slot_eq s
      _ = s.ins j := (hfinal.placed j hj).ins.symm
  · obtain ⟨sₘ, used, rest, rfl, hfst, hsnd⟩ := hsel.split hm
    have hmid := hfst.assigned (assigned_build f.data)
    rw [Nat.zero_add] at hmid
    refine ⟨sₘ, used, rest, rfl, yields_processLoop_iff.mpr hfst, fun i hi => ?_⟩
    have hslot : sₘ.slot (f.descriptor i) = s.ins i :=
      calc sₘ.slot (f.descriptor i) = s.slot (f.descriptor i) :=
            (hsnd.keeps (hmid.placed i hi).assigned).symm
        _ = s.ins i := (hfinal.placed i (by omega)).ins.symm
    exact ⟨hslot, (hmid.placed i hi).ins.trans hslot⟩
  · have hplaced := hfinal.placed i hi
    have hin := hsel.inTables (fun k _ hk => hflag k (by omega)) fun d hd => absurd rfl hd
    refine ⟨hplaced.type, ?_⟩
    change (s.ins i).toUInt16.toNat < (y.table (s.types i)).entries.length
    rw [hplaced.type, hplaced.ins]
    exact hin _ hplaced.assigned

/-! ### Unique slots -/

/-- The test for ids in use sees every stored id below 32768. -/
theorem ne_of_not_clashes {usedIds : Fin 4 → Int16} {id : UInt16}
    (h : clashes usedIds id = false) (hid : id.toNat < 32768) (k : Fin 4) :
    usedIds k ≠ id.toInt16 := by
  intro hk
  have hint := toInt_toInt16 hid
  refine of_decide_eq_false h ⟨k, ?_, ?_⟩
  · rw [hk, Int16.le_iff_toInt_le, hint]
    exact Int.natCast_nonneg _
  · rw [hk, hint]

/-- It sees none from there on. -/
theorem not_clashes_of_le {usedIds : Fin 4 → Int16} {id : UInt16} (hid : 32768 ≤ id.toNat) :
    clashes usedIds id = false := by
  refine decide_eq_false ?_
  rintro ⟨k, -, hk⟩
  have := (usedIds k).toInt_lt
  omega

/-- An expression picked for a unique slot is not the one of another slot of the type. -/
theorem Advances.ne_of_unique {y : YogiGen} {d d' : Descriptor} {i : Fin 8}
    {s s' : SubstitutionData} {draws : List (Option UInt16)} (h : Advances y d i s draws s')
    (hfresh : s.slot d = -1) (hflag : d.flag = .unique) (htype : d'.type = d.type)
    (hsmall : (y.table d.type).entries.length ≤ 32768) : s.slot d' ≠ s'.slot d := by
  cases h with
  | @fresh _ id _ hpick _ =>
      have hlt : id.toNat < 32768 :=
        (hpick.lt (by rw [hflag]; rfl)).trans_le hsmall
      rw [slot_assign_of_same ⟨rfl, rfl⟩]
      rw [hflag] at hpick
      cases hpick with
      | plain hplain => simp at hplain
      | unique _ hsettles =>
          rw [SubstitutionData.slot, htype]
          exact ne_of_not_clashes hsettles.not_clashes hlt d'.typeIdx
      | postpos hpost => exact absurd hpost (by decide)
  | again hslot => exact absurd hfresh hslot

/-- The first positions of unique slots of a type have other indices than the positions of
the type before them. -/
def UniqueDistinct (f : FormatString) (type : ExprType) (s : SubstitutionData) : Prop :=
  ∀ i j : Fin 8, i.val < f.count.toNat → (f.descriptor i).type = type → First f.data i →
    (f.descriptor i).flag = .unique → j < i → (f.descriptor j).type = type → s.ins j ≠ s.ins i

/-- With 32768 entries at most, unique slots differ. -/
theorem uniqueDistinct_of_le {y : YogiGen} {f : FormatString} {type : ExprType}
    {s : SubstitutionData} {draws : List (Option UInt16)}
    (hsmall : (y.table type).entries.length ≤ 32768)
    (h : (processFormats y f).Yields draws (some s)) : UniqueDistinct f type s := by
  obtain ⟨s, hsel, rfl⟩ := yields_processFormats_iff.mp h
  rintro i j hi rfl hfirst hflag hj htype
  have hfinal := hsel.assigned (assigned_build f.data)
  rw [Nat.zero_add] at hfinal
  obtain ⟨s₁, _, _, -, hfst, hsnd⟩ := hsel.split hi.le
  have hmid := hfst.assigned (assigned_build f.data)
  rw [Nat.zero_add] at hmid hsnd
  obtain ⟨n, hn⟩ := Nat.exists_eq_succ_of_ne_zero (Nat.sub_ne_zero_of_lt hi)
  rw [hn] at hsnd
  cases hsnd with
  | @cons _ _ _ s₂ _ _ _ _ hadv hrest =>
      have hnext := hmid.advances hadv
      have hins : s.ins i = s₂.slot (f.descriptor i) :=
        calc s.ins i = s.slot (f.descriptor i) := (hfinal.placed i hi).ins
          _ = s₂.slot (f.descriptor i) :=
              hrest.keeps (hnext.placed i (Nat.lt_succ_self _)).assigned
      have hjlt : j.val < i.val := hj
      have hjns : s.ins j = s₁.slot (f.descriptor j) :=
        calc s.ins j = s.slot (f.descriptor j) := (hfinal.placed j (by omega)).ins
          _ = s₂.slot (f.descriptor j) :=
              hrest.keeps (hnext.placed j (Nat.lt_succ_of_lt hjlt)).assigned
          _ = s₁.slot (f.descriptor j) := hadv.keeps (hmid.placed j hjlt).assigned
      change s.ins j ≠ s.ins i
      rw [hins, hjns]
      exact hadv.ne_of_unique ((hmid.slot_eq_iff i.isLt).mpr hfirst) hflag htype hsmall

/-- Two slots of a type, the second one unique. -/
def pairFormat (type : ExprType) : FormatString where
  str := ascii "%s %s."
  data := pack [⟨false, type, ⟨0, by decide⟩, .noFlags⟩, ⟨false, type, ⟨1, by decide⟩, .unique⟩]
  count := 2

/-- The two positions of the format. -/
theorem descriptor_pairFormat (type : ExprType) :
    descriptorAt (pairFormat type).data 0 = ⟨false, type, 0, .noFlags⟩ ∧
      descriptorAt (pairFormat type).data 1 = ⟨false, type, 1, .unique⟩ := by
  cases type with
  | verb | adjective | concept | object => decide

/-- In a larger table both slots can get the entry 32768. -/
theorem yields_pairFormat {y : YogiGen} {type : ExprType}
    (hlarge : 32768 < (y.table type).entries.length) :
    ∃ s, (processFormats y (pairFormat type)).Yields [some 32768, some 32768] (some s) ∧
      s.ins 0 = s.ins 1 := by
  obtain ⟨hfst, hsnd⟩ := descriptor_pairFormat type
  have hcount : 32768 < (y.table type).count.toNat := by
    rw [Table.toNat_count]
    exact hlarge
  have h0 : (y.table type).count ≠ 0 := by
    intro hzero
    rw [hzero] at hcount
    exact absurd hcount (by decide)
  have hmod : (32768 : UInt16) % (y.table type).count = 32768 := by
    rw [← UInt16.toNat_inj, UInt16.toNat_mod]
    exact Nat.mod_eq_of_lt hcount
  have hne : (32768 : UInt16) ≠ errorIdx := by decide
  have hplain : Picks y type (SubstitutionData.build.typewiseIdx type) .noFlags
      [some 32768] (32768 % (y.table type).count) := .plain (.inl rfl) h0
  have hunique : ∀ usedIds, Picks y type usedIds .unique [some 32768] 32768 := by
    intro usedIds
    refine .unique h0 ?_
    rw [hmod]
    exact .keep (not_clashes_of_le le_rfl)
  rw [hmod] at hplain
  have hadv : Advances y (descriptorAt (pairFormat type).data 0) 0 .build [some 32768]
      (SubstitutionData.build.assign 0 (descriptorAt (pairFormat type).data 0) 32768) := by
    rw [hfst]
    exact .fresh rfl hplain hne
  have hadv' : ∀ s, s.slot (descriptorAt (pairFormat type).data 1) = -1 →
      Advances y (descriptorAt (pairFormat type).data 1) 1 s [some 32768]
        (s.assign 1 (descriptorAt (pairFormat type).data 1) 32768) := by
    intro s hslot
    rw [hsnd] at hslot ⊢
    exact .fresh hslot (hunique _) hne
  have hother : ¬ SameSlot (descriptorAt (pairFormat type).data 0)
      (descriptorAt (pairFormat type).data 1) := by
    rw [hfst, hsnd]
    exact fun hsame => absurd hsame.2 (by simp)
  have hsel := Selects.cons (by decide) hadv
    (.cons (by decide) (hadv' _ (slot_assign_of_not_same hother _ 0 32768)) (.nil 2 _))
  exact ⟨_, yields_processFormats_iff.mpr ⟨_, hsel, rfl⟩, rfl⟩

/-- **When unique slots get different expressions**: whatever the format and the draws, if
and only if the table of the type has at most 32768 entries. -/
theorem unique_iff (y : YogiGen) (type : ExprType) :
    (∀ f draws s, 1 ≤ f.count.toNat → f.count.toNat ≤ 8 →
      (processFormats y f).Yields draws (some s) → UniqueDistinct f type s) ↔
      (y.table type).entries.length ≤ 32768 := by
  constructor
  · intro hall
    by_contra hlarge
    obtain ⟨s, hy, heq⟩ := yields_pairFormat (not_le.mp hlarge)
    obtain ⟨hfst, hsnd⟩ := descriptor_pairFormat type
    have hfirst : First (pairFormat type).data 1 := by
      intro j hj
      obtain rfl := Nat.lt_one_iff.mp hj
      rw [hfst, hsnd]
      exact fun hsame => absurd hsame.2 (by simp)
    have hcount : (pairFormat type).count.toNat = 2 := rfl
    refine hall _ _ s (by omega) (by omega) hy 1 0 (hcount ▸ by decide) ?_ hfirst ?_ (by decide) ?_
      heq
    · exact congrArg Descriptor.type hsnd
    · exact congrArg Descriptor.flag hsnd
    · exact congrArg Descriptor.type hfst
  · exact fun hsmall f draws s _ _ hy => uniqueDistinct_of_le hsmall hy

/-- A state with 32769 verbs. -/
def manyVerbs : YogiGen :=
  { blank with verbs := .ofRows (List.replicate 32769 ⟨0, 0, ascii "be", ascii "is"⟩) }

/-- One verb more than that. -/
theorem length_manyVerbs : (manyVerbs.table .verb).entries.length = 32769 := by
  simp only [YogiGen.table, manyVerbs, Table.ofRows, List.length_take, List.length_replicate]
  decide

/-- Two slots of one type, the second of them unique. -/
theorem processFormats_slots_pair :
    ∃ s, (processFormats manyVerbs (pairFormat .verb)).Yields [some 32768, some 32768] (some s) ∧
      (s.ins 1).toUInt16.toNat < (manyVerbs.table (s.types 1)).entries.length := by
  obtain ⟨s, hy, -⟩ := @yields_pairFormat manyVerbs .verb (by rw [length_manyVerbs]; decide)
  exact ⟨s, hy, ((processFormats_slots (by decide) hy).2.2 1 (by decide)).2⟩

/-- Its last verb can be chosen for both of two slots although the second one is unique. -/
theorem unique_repeats :
    ∃ s, (processFormats manyVerbs (pairFormat .verb)).Yields [some 32768, some 32768] (some s) ∧
      ¬ UniqueDistinct (pairFormat .verb) .verb s := by
  obtain ⟨s, hy, heq⟩ := @yields_pairFormat manyVerbs .verb (by rw [length_manyVerbs]; decide)
  refine ⟨s, hy, fun hdistinct => ?_⟩
  refine hdistinct 1 0 (by decide) (by decide) ?_ (by decide) (by decide) (by decide) heq
  intro j hj
  obtain rfl := Nat.lt_one_iff.mp hj
  exact fun hsame => absurd hsame.2 (by decide)

end Yogigen
