import Yogigen.Slots

/-!
# Casts

A cast gives every slot of a format an expression. Draws deal a cast to a format: for each
slot, at the first position that has it, they pick an expression that the flag of this
position admits, next to the expressions that slots of the same type have by then. What
`process_formats` returns is what the cast that was dealt makes of the format.

## Main results

* `exists_picks_iff`: a flag admits the ids that some draws pick.
* `exists_deals_iff`: the casts that some draws deal are the admissible ones.
* `selects_iff_deals`: what draws select is what the cast that they deal makes of a format.
-/

open Printf Supply Supply.Reader

namespace Yogigen

/-! ### One slot -/

/-- The first id of an interval of verbs. -/
def postposStart (flag : FstrFlag) (posX posY : UInt16) : UInt16 :=
  if flag = .postposObj then posY else posX

/-- The length of an interval of verbs; an empty one counts as one. -/
def postposSpan (flag : FstrFlag) (limit posX posY : UInt16) : UInt16 :=
  let span := if flag = .postposObj then limit - posY else posY - posX
  if span = 0 then span + 1 else span

/-- The index is a draw modulo the span, counted from the start. -/
theorem postposId_eq (flag : FstrFlag) (limit posX posY rnd : UInt16) :
    postposId flag limit posX posY rnd =
      rnd % postposSpan flag limit posX posY + postposStart flag posX posY := by
  rw [postposId, postposSpan, postposStart]
  by_cases hobj : flag = .postposObj
  · rw [if_pos hobj, if_pos hobj, if_pos hobj]
  · rw [if_neg hobj, if_neg hobj, if_neg hobj]

/-- The span is never empty. -/
theorem postposSpan_pos (flag : FstrFlag) (limit posX posY : UInt16) :
    0 < postposSpan flag limit posX posY := by
  rw [postposSpan]
  split_ifs with hobj h0 h0
  · rw [h0]
    decide
  · exact UInt16.pos_iff_ne_zero.mpr h0
  · rw [h0]
    decide
  · exact UInt16.pos_iff_ne_zero.mpr h0

/-- The ids that a post-position flag admits. -/
def AdmitsVerb (y : YogiGen) (type : ExprType) (id : UInt16) (flag : FstrFlag) : Prop :=
  (y.table type).count ≠ 0 ∧ ∃ posX i, forwardScan (y.verbs.entries.drop 1) 1 = some posX ∧
    backwardScan y.verbs.entries ((y.table type).count.toNat - 1) = some i ∧
    id - postposStart flag posX (i + 1) < postposSpan flag (y.table type).count posX (i + 1)

/-- The ids that a flag admits for a slot of a type, next to the ids in use. -/
def Admits (y : YogiGen) (type : ExprType) (usedIds : Fin 4 → Int16) (id : UInt16) :
    FstrFlag → Prop
  | .noFlags | .indefArt => id < (y.table type).count
  | .unique => id < (y.table type).count ∧ clashes usedIds id = false
  | .postposCept => AdmitsVerb y type id .postposCept
  | .postposAll => AdmitsVerb y type id .postposAll
  | .postposObj => AdmitsVerb y type id .postposObj
  | .flag6 | .flag7 => False

/-- The remainders of draws are the ids below the modulus. -/
theorem exists_mod_iff {limit id : UInt16} (h0 : 0 < limit) :
    (∃ rnd : UInt16, id = rnd % limit) ↔ id < limit := by
  constructor
  · rintro ⟨rnd, rfl⟩
    exact UInt16.mod_lt rnd h0
  · exact fun h => ⟨id, (UInt16.mod_eq_of_lt h).symm⟩

/-- The indices that some draw gives lie within the span. -/
theorem exists_mod_add_iff {limit start id : UInt16} (h0 : 0 < limit) :
    (∃ rnd : UInt16, id = rnd % limit + start) ↔ id - start < limit := by
  rw [← exists_mod_iff h0]
  exact exists_congr fun rnd => ⟨fun h => by rw [h]; exact UInt16.add_sub_cancel .., fun h => by
    rw [← h]; exact (UInt16.sub_add_cancel ..).symm⟩

/-- **A flag admits the ids that draws can pick.** -/
theorem exists_picks_iff {y : YogiGen} {type : ExprType} {usedIds : Fin 4 → Int16}
    {flag : FstrFlag} {id : UInt16} :
    (∃ draws, Picks y type usedIds flag draws id) ↔ Admits y type usedIds id flag := by
  have hpos : id < (y.table type).count → (y.table type).count ≠ 0 := by
    rintro h h0
    rw [h0] at h
    exact UInt16.not_lt_zero h
  have hplain : flag = .noFlags ∨ flag = .indefArt →
      ((∃ draws, Picks y type usedIds flag draws id) ↔ id < (y.table type).count) := by
    intro hflag
    constructor
    · rintro ⟨draws, h⟩
      cases h with
      | plain _ h0 => exact UInt16.mod_lt _ (UInt16.pos_iff_ne_zero.mpr h0)
      | unique => simp at hflag
      | postpos hpost => rcases hflag with rfl | rfl <;> simp [FstrFlag.isPostpos] at hpost
    · intro h
      obtain ⟨rnd, rfl⟩ := (exists_mod_iff (UInt16.pos_iff_ne_zero.mpr (hpos h))).mpr h
      exact ⟨_, .plain hflag (hpos h)⟩
  have hpostpos : flag.isPostpos = true →
      ((∃ draws, Picks y type usedIds flag draws id) ↔ AdmitsVerb y type id flag) := by
    intro hflag
    constructor
    · rintro ⟨draws, h⟩
      cases h with
      | plain hflag' => rcases hflag' with rfl | rfl <;> simp [FstrFlag.isPostpos] at hflag
      | unique => simp [FstrFlag.isPostpos] at hflag
      | @postpos _ _ rnd posX i _ h0 hf hb =>
          refine ⟨h0, posX, i, hf, hb, ?_⟩
          rw [← exists_mod_add_iff (postposSpan_pos ..)]
          exact ⟨rnd, postposId_eq ..⟩
    · rintro ⟨h0, posX, i, hf, hb, hlt⟩
      obtain ⟨rnd, rfl⟩ := (exists_mod_add_iff (postposSpan_pos ..)).mpr hlt
      rw [← postposId_eq]
      exact ⟨[some 0, some rnd], .postpos hflag h0 hf hb⟩
  cases flag with
  | noFlags => exact hplain (.inl rfl)
  | indefArt => exact hplain (.inr rfl)
  | unique =>
      constructor
      · rintro ⟨draws, h⟩
        refine ⟨?_, ?_⟩
        · have hlt := h.lt rfl
          rwa [UInt16.lt_iff_toNat_lt, Table.toNat_count]
        · cases h with
          | plain hflag => simp at hflag
          | unique _ hsettles => exact hsettles.not_clashes
          | postpos hpost => simp [FstrFlag.isPostpos] at hpost
      · rintro ⟨hlt, hfree⟩
        obtain ⟨rnd, rfl⟩ := (exists_mod_iff (UInt16.pos_iff_ne_zero.mpr (hpos hlt))).mpr hlt
        exact ⟨_, .unique (hpos hlt) (.keep hfree)⟩
  | postposCept => exact hpostpos rfl
  | postposAll => exact hpostpos rfl
  | postposObj => exact hpostpos rfl
  | flag6 | flag7 =>
      constructor
      · rintro ⟨draws, h⟩
        exact not_picks_reserved rfl h
      · exact False.elim

/-! ### Slots of a format -/

/-- Every slot has a first position. -/
theorem exists_first (data : UInt64) (i : ℕ) :
    ∃ j ≤ i, First data j ∧ SameSlot (descriptorAt data j) (descriptorAt data i) := by
  induction i using Nat.strong_induction_on with
  | _ i ih =>
      by_cases hfirst : First data i
      · exact ⟨i, le_rfl, hfirst, rfl, rfl⟩
      · simp only [First, not_forall, not_not] at hfirst
        obtain ⟨j, hj, hsame⟩ := hfirst
        obtain ⟨k, hk, hfirst, hsame'⟩ := ih j hj
        exact ⟨k, by omega, hfirst, hsame'.1.trans hsame.1, hsame'.2.trans hsame.2⟩

/-- Expressions for the slots of a format. -/
abbrev Cast := ExprType → Fin 4 → UInt16

/-- The expression of the slot of a descriptor. -/
def Cast.id (σ : Cast) (d : Descriptor) : UInt16 :=
  σ d.type d.typeIdx

instance (d d' : Descriptor) : Decidable (SameSlot d d') :=
  inferInstanceAs (Decidable (_ ∧ _))

instance (data : UInt64) (i : ℕ) : Decidable (First data i) :=
  inferInstanceAs (Decidable (∀ j < i, ¬ SameSlot (descriptorAt data j) (descriptorAt data i)))

/-- The slots of the first `m` positions are assigned. -/
def Cast.slots (σ : Cast) (data : UInt64) (m : ℕ) (type : ExprType) (k : Fin 4) : Int16 :=
  if ∃ j < m, (descriptorAt data j).type = type ∧ (descriptorAt data j).typeIdx = k then
    (σ type k).toInt16
  else -1

/-- What the first `m` positions of a format are filled with. -/
def Cast.data (σ : Cast) (data : UInt64) (m : ℕ) : SubstitutionData where
  str := []
  count := 0
  typewiseIdx := σ.slots data m
  types i := if i.val < m then (descriptorAt data i).type else .verb
  modes i := if i.val < m then (descriptorAt data i).mode else false
  flags i :=
    if i.val < m ∧ First data i ∧ (descriptorAt data i).flag = .indefArt then .indefArt
    else .noFlags
  ins i := if i.val < m then (σ.id (descriptorAt data i)).toInt16 else -1

/-- The flags of the first positions of the slots admit the expressions. -/
def Cast.Admissible (σ : Cast) (y : YogiGen) (data : UInt64) (n : ℕ) : Prop :=
  ∀ m < n, First data m → σ.id (descriptorAt data m) ≠ errorIdx ∧
    Admits y (descriptorAt data m).type (σ.slots data m (descriptorAt data m).type)
      (σ.id (descriptorAt data m)) (descriptorAt data m).flag

/-- The draws deal the expressions of the cast to the first positions of a format, in their
order: each slot gets its expression at its first position. -/
inductive Cast.Deals (y : YogiGen) (data : UInt64) (σ : Cast) : ℕ → List (Option UInt16) → Prop
  | zero : Deals y data σ 0 []
  | first {m : ℕ} {draws used : List (Option UInt16)} : Deals y data σ m draws →
      First data m → σ.id (descriptorAt data m) ≠ errorIdx →
      Picks y (descriptorAt data m).type (σ.slots data m (descriptorAt data m).type)
        (descriptorAt data m).flag used (σ.id (descriptorAt data m)) →
      Deals y data σ (m + 1) (draws ++ used)
  | again {m : ℕ} {draws : List (Option UInt16)} : Deals y data σ m draws →
      ¬ First data m → Deals y data σ (m + 1) draws

/-- Two casts with the same expressions for the first `m` positions. -/
def Cast.AgreeBelow (data : UInt64) (m : ℕ) (σ τ : Cast) : Prop :=
  ∀ j < m, σ.id (descriptorAt data j) = τ.id (descriptorAt data j)

section

variable {data : UInt64} {m : ℕ} {σ τ : Cast}

/-- Casts that agree up to a position agree up to an earlier one. -/
theorem Cast.AgreeBelow.mono {n : ℕ} (h : AgreeBelow data n σ τ) (hle : m ≤ n) :
    AgreeBelow data m σ τ :=
  fun j hj => h j (hj.trans_le hle)

/-- They make the same slots. -/
theorem Cast.AgreeBelow.slots_eq (h : AgreeBelow data m σ τ) :
    σ.slots data m = τ.slots data m := by
  funext type k
  rw [slots, slots]
  split_ifs with hused
  · obtain ⟨j, hj, rfl, rfl⟩ := hused
    exact congrArg UInt16.toInt16 (h j hj)
  · rfl

/-- They make the same data. -/
theorem Cast.AgreeBelow.data_eq (h : AgreeBelow data m σ τ) :
    σ.data data m = τ.data data m := by
  rw [Cast.data, Cast.data, h.slots_eq]
  congr 1
  funext i
  split_ifs with hi
  · rw [h i hi]
  · rfl

/-- The cast that differs in the slot of a descriptor. -/
def Cast.set (σ : Cast) (d : Descriptor) (id : UInt16) : Cast :=
  Function.update σ d.type (Function.update (σ d.type) d.typeIdx id)

/-- The changed slot has the new expression. -/
theorem Cast.id_set_of_same {d d' : Descriptor} (h : SameSlot d d') (id : UInt16) :
    (σ.set d id).id d' = id := by
  rw [Cast.id, ← h.1, ← h.2, set, Function.update_self, Function.update_self]

/-- The other slots keep theirs. -/
theorem Cast.id_set_of_not_same {d d' : Descriptor} (h : ¬ SameSlot d d') (id : UInt16) :
    (σ.set d id).id d' = σ.id d' := by
  rw [Cast.id, Cast.id, set]
  by_cases htype : d'.type = d.type
  · have hidx : d'.typeIdx ≠ d.typeIdx := fun hidx => h ⟨htype.symm, hidx.symm⟩
    rw [htype, Function.update_self, Function.update_of_ne hidx]
  · rw [Function.update_of_ne htype]

/-- The slot of a new position is not one of those before. -/
theorem Cast.agreeBelow_set (hfirst : First data m) (id : UInt16) :
    AgreeBelow data m (σ.set (descriptorAt data m) id) σ :=
  fun j hj => Cast.id_set_of_not_same (fun hsame => hfirst j hj hsame.symm) id

/-- The slot of a descriptor is assigned if a position has it. -/
theorem Cast.slot_data (d : Descriptor) : (σ.data data m).slot d =
    if ∃ j < m, SameSlot (descriptorAt data j) d then (σ.id d).toInt16 else -1 :=
  rfl

/-- Without positions nothing is filled. -/
theorem Cast.data_zero (σ : Cast) (data : UInt64) : σ.data data 0 = .build := by
  rw [Cast.data, SubstitutionData.build, SubstitutionData.mk.injEq]
  simp [funext_iff, Cast.slots]

/-! ### One position -/

/-- Filling one more entry of an array. -/
theorem update_fill {α : Type} (g : ℕ → α) (v : α) (hm : m < 8) :
    Function.update (fun i : Fin 8 => if i.val < m then g i.val else v) ⟨m, hm⟩ (g m) =
      fun i => if i.val < m + 1 then g i.val else v := by
  funext i
  by_cases hi : i = ⟨m, hm⟩
  · subst hi
    rw [Function.update_self, if_pos (Nat.lt_succ_self m)]
  · rw [Function.update_of_ne hi]
    simp only [lt_succ_iff_of_ne hm hi]

/-- The slots after one more position. -/
theorem Cast.slots_succ (σ : Cast) (data : UInt64) (m : ℕ) :
    σ.slots data (m + 1) = Function.update (σ.slots data m) (descriptorAt data m).type
      (Function.update (σ.slots data m (descriptorAt data m).type) (descriptorAt data m).typeIdx
        (σ.id (descriptorAt data m)).toInt16) := by
  funext type k
  by_cases hhere : (descriptorAt data m).type = type ∧ (descriptorAt data m).typeIdx = k
  · obtain ⟨rfl, rfl⟩ := hhere
    rw [Function.update_self, Function.update_self]
    exact if_pos ⟨m, Nat.lt_succ_self m, rfl, rfl⟩
  · have hiff : (∃ j < m + 1, (descriptorAt data j).type = type ∧
        (descriptorAt data j).typeIdx = k) ↔
        ∃ j < m, (descriptorAt data j).type = type ∧ (descriptorAt data j).typeIdx = k := by
      constructor
      · rintro ⟨j, hj, hslot⟩
        rcases Nat.lt_succ_iff_lt_or_eq.mp hj with hlt | rfl
        · exact ⟨j, hlt, hslot⟩
        · exact absurd hslot hhere
      · rintro ⟨j, hj, hslot⟩
        exact ⟨j, Nat.lt_succ_of_lt hj, hslot⟩
    have hsame : σ.slots data (m + 1) type k = σ.slots data m type k := by
      rw [slots, slots]
      simp only [hiff]
    rw [hsame]
    by_cases htype : type = (descriptorAt data m).type
    · subst htype
      rw [Function.update_self, Function.update_of_ne fun hk => hhere ⟨rfl, hk.symm⟩]
    · rw [Function.update_of_ne htype]

/-- A new slot is assigned. -/
theorem Cast.data_assign (σ : Cast) (hm : m < 8) (hfirst : First data m) :
    (σ.data data m).assign ⟨m, hm⟩ (descriptorAt data m) (σ.id (descriptorAt data m)) =
      σ.data data (m + 1) := by
  rw [Cast.data, SubstitutionData.assign, SubstitutionData.place, Cast.data,
    SubstitutionData.mk.injEq]
  refine ⟨rfl, rfl, (σ.slots_succ data m).symm,
    update_fill (fun i => (descriptorAt data i).type) _ hm,
    update_fill (fun i => (descriptorAt data i).mode) _ hm, ?_,
    update_fill (fun i => (σ.id (descriptorAt data i)).toInt16) _ hm⟩
  funext i
  by_cases hi : i = ⟨m, hm⟩
  · subst hi
    by_cases hart : (descriptorAt data m).flag = .indefArt
    · simp [hart, hfirst]
    · simp [hart]
  · simp only [lt_succ_iff_of_ne hm hi]
    by_cases hart : (descriptorAt data m).flag = .indefArt
    · rw [if_pos hart, Function.update_of_ne hi]
    · rw [if_neg hart]

/-- A slot that is assigned is repeated. -/
theorem Cast.data_place (σ : Cast) (hm : m < 8) (hfirst : ¬ First data m) :
    (σ.data data m).place ⟨m, hm⟩ (descriptorAt data m)
        ((σ.data data m).slot (descriptorAt data m)) = σ.data data (m + 1) := by
  have hslot : (σ.data data m).slot (descriptorAt data m) =
      (σ.id (descriptorAt data m)).toInt16 := by
    obtain ⟨j, hj, hsame⟩ : ∃ j < m, SameSlot (descriptorAt data j) (descriptorAt data m) := by
      simpa [First] using hfirst
    rw [Cast.slot_data, if_pos ⟨j, hj, hsame⟩]
  have hslots : σ.slots data m = σ.slots data (m + 1) := by
    rw [Cast.slots_succ, ← hslot]
    simp only [SubstitutionData.slot, Cast.data, Function.update_eq_self]
  rw [hslot, Cast.data, SubstitutionData.place, Cast.data, SubstitutionData.mk.injEq]
  refine ⟨rfl, rfl, hslots, update_fill (fun i => (descriptorAt data i).type) _ hm,
    update_fill (fun i => (descriptorAt data i).mode) _ hm, ?_,
    update_fill (fun i => (σ.id (descriptorAt data i)).toInt16) _ hm⟩
  funext i
  by_cases hi : i = ⟨m, hm⟩
  · subst hi
    simp [hfirst]
  · simp only [lt_succ_iff_of_ne hm hi]

/-- One more position. -/
theorem Cast.Admissible.succ {y : YogiGen} (h : σ.Admissible y data m)
    (hnew : First data m → σ.id (descriptorAt data m) ≠ errorIdx ∧
      Admits y (descriptorAt data m).type (σ.slots data m (descriptorAt data m).type)
        (σ.id (descriptorAt data m)) (descriptorAt data m).flag) :
    σ.Admissible y data (m + 1) := by
  intro k hk hfirst
  rcases Nat.lt_succ_iff_lt_or_eq.mp hk with hlt | rfl
  · exact h k hlt hfirst
  · exact hnew hfirst

/-- All positions of an admissible cast have an expression. -/
theorem Cast.Admissible.ne_error {y : YogiGen} {n : ℕ} (h : σ.Admissible y data n) {j : ℕ}
    (hj : j < n) : σ.id (descriptorAt data j) ≠ errorIdx := by
  obtain ⟨k, hk, hfirst, hsame⟩ := exists_first data j
  have hid : σ.id (descriptorAt data k) = σ.id (descriptorAt data j) := by
    rw [Cast.id, Cast.id, hsame.1, hsame.2]
  exact hid ▸ (h k (by omega) hfirst).1

/-- The slot of a position is unassigned if the position is the first of it. -/
theorem Cast.slot_data_eq_iff (h : ∀ j < m, σ.id (descriptorAt data j) ≠ errorIdx) :
    (σ.data data m).slot (descriptorAt data m) = -1 ↔ First data m := by
  rw [Cast.slot_data]
  constructor
  · intro hslot j hj hsame
    rw [if_pos ⟨j, hj, hsame⟩, toInt16_eq_neg_one_iff] at hslot
    exact h j hj (by rw [← hslot, Cast.id, Cast.id, hsame.1, hsame.2])
  · rintro hfirst
    exact if_neg fun ⟨j, hj, hsame⟩ => hfirst j hj hsame

/-- What is dealt to the first positions does not depend on other slots. -/
theorem Cast.AgreeBelow.deals {y : YogiGen} {n : ℕ} {draws : List (Option UInt16)}
    (h : AgreeBelow data n σ τ) (hτ : τ.Deals y data n draws) : σ.Deals y data n draws := by
  induction hτ with
  | zero => exact .zero
  | @first m draws used _ hfirst hid hpick ih =>
      have hm := h.mono (Nat.le_succ m)
      rw [← h m (Nat.lt_succ_self m)] at hid hpick
      rw [← hm.slots_eq] at hpick
      exact .first (ih hm) hfirst hid hpick
  | @again m draws _ hfirst ih => exact .again (ih (h.mono (Nat.le_succ m))) hfirst

/-- A cast that is dealt is admissible. -/
theorem Cast.Deals.admissible {y : YogiGen} {n : ℕ} {draws : List (Option UInt16)}
    (h : σ.Deals y data n draws) : σ.Admissible y data n := by
  induction h with
  | zero => exact fun m hm => absurd hm (Nat.not_lt_zero m)
  | first _ _ hid hpick ih => exact ih.succ fun _ => ⟨hid, exists_picks_iff.mp ⟨_, hpick⟩⟩
  | again _ hfirst ih => exact ih.succ fun h => absurd h hfirst

/-- **The casts that can be dealt** are the admissible ones. -/
theorem exists_deals_iff {y : YogiGen} {n : ℕ} :
    (∃ draws, σ.Deals y data n draws) ↔ σ.Admissible y data n := by
  constructor
  · rintro ⟨draws, h⟩
    exact h.admissible
  · intro h
    induction n with
    | zero => exact ⟨[], .zero⟩
    | succ n ih =>
        obtain ⟨draws, hdeals⟩ := ih fun m hm => h m (Nat.lt_succ_of_lt hm)
        by_cases hfirst : First data n
        · obtain ⟨hid, hadmits⟩ := h n (Nat.lt_succ_self n) hfirst
          obtain ⟨used, hpick⟩ := exists_picks_iff.mpr hadmits
          exact ⟨draws ++ used, .first hdeals hfirst hid hpick⟩
        · exact ⟨draws, .again hdeals hfirst⟩

end

/-! ### The positions of a format -/

/-- A run of positions is followed by one more. -/
theorem Selects.concat {y : YogiGen} {data : UInt64} {i n k : ℕ} {s s₁ s₂ : SubstitutionData}
    {draws₁ draws₂ : List (Option UInt16)} (h : Selects y data i s n draws₁ s₁) (hk : k = i + n)
    (hk8 : k < 8) (hadv : Advances y (descriptorAt data k) ⟨k, hk8⟩ s₁ draws₂ s₂) :
    Selects y data i s (n + 1) (draws₁ ++ draws₂) s₂ := by
  induction h with
  | nil i s =>
      subst hk
      have hone := Selects.cons hk8 hadv (.nil _ s₂)
      rwa [List.append_nil] at hone
  | @cons i n s s₁ s₂' draws₁ draws hi' hfst _ ih =>
      rw [List.append_assoc]
      exact .cons hi' hfst (ih (by omega) hadv)

/-- What a cast makes of a format is selected by the draws that deal it. -/
theorem Cast.Deals.selects {y : YogiGen} {data : UInt64} {σ : Cast} {n : ℕ}
    {draws : List (Option UInt16)} (h : σ.Deals y data n draws) (hn : n ≤ 8) :
    Selects y data 0 .build n draws (σ.data data n) := by
  induction h with
  | zero => exact σ.data_zero data ▸ .nil 0 .build
  | @first m draws used hbefore hfirst hid hpick ih =>
      have hslot := Cast.slot_data_eq_iff fun j hj => hbefore.admissible.ne_error hj
      refine (ih (by omega)).concat (Nat.zero_add m).symm (by omega) ?_
      rw [← σ.data_assign (by omega) hfirst]
      exact .fresh (hslot.mpr hfirst) hpick hid
  | @again m draws hbefore hfirst ih =>
      have hslot := Cast.slot_data_eq_iff fun j hj => hbefore.admissible.ne_error hj
      rw [← List.append_nil draws]
      refine (ih (by omega)).concat (Nat.zero_add m).symm (by omega) ?_
      rw [← σ.data_place (by omega) hfirst]
      exact .again fun hnew => hfirst (hslot.mp hnew)

/-- **What draws select** is what the cast that they deal makes of the format. -/
theorem selects_iff_deals {y : YogiGen} {data : UInt64} {n : ℕ} (hn : n ≤ 8)
    {draws : List (Option UInt16)} {s : SubstitutionData} :
    Selects y data 0 .build n draws s ↔
      ∃ σ : Cast, σ.Deals y data n draws ∧ s = σ.data data n := by
  constructor
  · intro h
    induction n generalizing s draws with
    | zero =>
        cases h with
        | nil => exact ⟨fun _ _ => 0, .zero, (Cast.data_zero _ data).symm⟩
    | succ n ih =>
        have hlt : n < 8 := by omega
        obtain ⟨s₁, draws₁, draws₂, rfl, hfst, hsnd⟩ := h.split (Nat.le_succ n)
        obtain ⟨σ, hσ, rfl⟩ := ih hlt.le hfst
        have hslot := Cast.slot_data_eq_iff fun j hj => hσ.admissible.ne_error hj
        rw [Nat.zero_add, Nat.succ_sub le_rfl, Nat.sub_self] at hsnd
        cases hsnd with
        | @cons _ _ _ s₂ _ draws₂ draws₃ hi hadv hrest =>
            cases hrest
            rw [List.append_nil]
            cases hadv with
            | @fresh _ id hnew hpick hid =>
                have hfirst := hslot.mp hnew
                have hagree : Cast.AgreeBelow data n (σ.set (descriptorAt data n) id) σ :=
                  Cast.agreeBelow_set hfirst id
                have hhere : (σ.set (descriptorAt data n) id).id (descriptorAt data n) = id :=
                  Cast.id_set_of_same ⟨rfl, rfl⟩ id
                refine ⟨σ.set (descriptorAt data n) id, ?_, ?_⟩
                · refine .first (hagree.deals hσ) hfirst (by rwa [hhere]) ?_
                  rw [hhere, hagree.slots_eq]
                  exact hpick
                · rw [← Cast.data_assign _ hlt hfirst, hagree.data_eq, hhere]
                  rfl
            | again hold =>
                have hfirst : ¬ First data n := fun hfirst => hold (hslot.mpr hfirst)
                rw [List.append_nil]
                exact ⟨σ, .again hσ hfirst, σ.data_place hlt hfirst⟩
  · rintro ⟨σ, hσ, rfl⟩
    exact hσ.selects hn

/-- What is found of a cast at a position. -/
theorem Cast.lookup_data (y : YogiGen) (σ : Cast) {data : UInt64} {n : ℕ} {i : Fin 8}
    (hi : i.val < n) :
    lookup y (σ.data data n) i =
      (y.table (descriptorAt data i).type).entries[(σ.id (descriptorAt data i)).toNat]? := by
  rw [lookup, getExpression_eq]
  simp only [Cast.data, if_pos hi, UInt16.toUInt16_toInt16]

end Yogigen
