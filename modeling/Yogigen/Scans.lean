import Yogigen.Definedness

/-!
# The Scans for Verbs without a Postposition

`fetch_expressions` loads the verbs in ascending order of their flags, so the verbs that
need no postposition before an object come last. The two scans of `random_expression_id`
look for the border between them and the other verbs from both ends. In a list that is
sorted by a property, the border is the number of entries with the property.

## Main results

* `getElem_iff_lt_countP`: the border of a sorted list.
* `forwardScan_eq`, `backwardScan_eq`: where the scans stop.
* `yields_postpos_iff`: what `random_expression_id` returns when both scans meet.
* `postpos_obj`, `postpos_cept_all`, `scansInside_iff`: the post-position flags.
-/

/-! ### Sorted lists -/

namespace Partition

variable {α : Type} {p : α → Bool}

/-- **The border.** Where the entries with a property come first, they are as many as
there are entries with it. -/
theorem getElem_iff_lt_countP {l : List α} (h : l.Pairwise fun a b => p b = true → p a = true)
    {i : ℕ} (hi : i < l.length) : p l[i] = true ↔ i < l.countP p := by
  induction l generalizing i with
  | nil => exact absurd hi (Nat.not_lt_zero i)
  | cons a l ih =>
      obtain ⟨hhead, htail⟩ := List.pairwise_cons.mp h
      by_cases ha : p a = true
      · rw [List.countP_cons_of_pos ha]
        cases i with
        | zero => simpa using ha
        | succ i => simpa using ih htail (i := i) (by simpa using hi)
      · have hnone : l.countP p = 0 :=
          List.countP_eq_zero.mpr fun b hb hpb => ha (hhead b hb hpb)
        rw [List.countP_cons_of_neg ha, hnone]
        refine iff_of_false (fun hp => ?_) (Nat.not_lt_zero i)
        cases i with
        | zero => exact ha hp
        | succ i => exact ha (hhead _ (List.getElem_mem _) hp)

/-- The border is inside the list if the first entry has the property and the last has not. -/
theorem countP_bounds {l : List α} (h : l.Pairwise fun a b => p b = true → p a = true)
    {a b : α} (ha : l.head? = some a) (hb : l.getLast? = some b) (hpa : p a = true)
    (hpb : ¬ p b = true) : 0 < l.countP p ∧ l.countP p < l.length := by
  rw [List.head?_eq_getElem?] at ha
  rw [List.getLast?_eq_getElem?] at hb
  obtain ⟨h0, rfl⟩ := List.getElem?_eq_some_iff.mp ha
  obtain ⟨hlast, rfl⟩ := List.getElem?_eq_some_iff.mp hb
  rw [getElem_iff_lt_countP h h0] at hpa
  rw [getElem_iff_lt_countP h hlast] at hpb
  omega

end Partition

open Printf Supply Supply.Reader Partition

namespace Yogigen

/-! ### Verb tables -/

/-- The order of `EXPR_SQL_SELECT_TEMPLATE`. -/
def Sorted (verbs : List Expression) : Prop :=
  verbs.Pairwise (·.flags ≤ ·.flags)

instance (verbs : List Expression) : Decidable (Sorted verbs) :=
  inferInstanceAs (Decidable (verbs.Pairwise (·.flags ≤ ·.flags)))

/-- The first verb may not stand before an object without a postposition only, and the
last one may. -/
structure Bordered (verbs : List Expression) : Prop where
  first : ∃ e, verbs.head? = some e ∧ e.flags ≤ vflagNpostpAllOk
  last : ∃ e, verbs.getLast? = some e ∧ e.flags = vflagNpostpObjOk

/-- The number of verbs with flags up to `VFLAG_NPOSTP_ALL_OK`. -/
def border (verbs : List Expression) : ℕ :=
  verbs.countP fun e => decide (e.flags ≤ vflagNpostpAllOk)

/-- There is no flag between the two. -/
theorem lt_obj_iff (e : Expression) :
    e.flags < vflagNpostpObjOk ↔ e.flags ≤ vflagNpostpAllOk := by
  rw [UInt8.lt_iff_toNat_lt, UInt8.le_iff_toNat_le]
  exact Nat.lt_succ_iff

/-- Before a verb that needs no postposition there are only such verbs. -/
theorem Sorted.pairwise {verbs : List Expression} (h : Sorted verbs) :
    verbs.Pairwise fun a b => decide (b.flags ≤ vflagNpostpAllOk) = true →
      decide (a.flags ≤ vflagNpostpAllOk) = true :=
  h.imp fun hle hb => decide_eq_true (UInt8.le_trans hle (of_decide_eq_true hb))

/-- The verbs before the border are those that stop the backward scan. -/
theorem Sorted.flags_le_iff {verbs : List Expression} (h : Sorted verbs) {i : ℕ}
    (hi : i < verbs.length) : verbs[i].flags ≤ vflagNpostpAllOk ↔ i < border verbs := by
  rw [border, ← getElem_iff_lt_countP h.pairwise hi, decide_eq_true_eq]

/-- The border lies within the table. -/
theorem Bordered.bounds {verbs : List Expression} (hb : Bordered verbs) (h : Sorted verbs) :
    0 < border verbs ∧ border verbs < verbs.length := by
  obtain ⟨a, ha, hpa⟩ := hb.first
  obtain ⟨b, hb, hpb⟩ := hb.last
  refine countP_bounds h.pairwise ha hb (decide_eq_true hpa) ?_
  rw [decide_eq_true_eq, hpb]
  decide

/-- From the border up to a verb with the flag `VFLAG_NPOSTP_OBJ_OK`, all verbs have it. -/
theorem Sorted.flags_eq {verbs : List Expression} (h : Sorted verbs) {i j : ℕ}
    (hi : i < verbs.length) (hj : j < verbs.length) (hle : border verbs ≤ i) (hij : i ≤ j)
    (hflags : verbs[j].flags = vflagNpostpObjOk) : verbs[i].flags = vflagNpostpObjOk := by
  have hupper : verbs[i].flags ≤ vflagNpostpObjOk := by
    rw [← hflags]
    rcases hij.eq_or_lt with rfl | hlt
    · exact UInt8.le_refl _
    · exact List.pairwise_iff_getElem.mp h i j hi hj hlt
  have hlower : ¬ verbs[i].flags < vflagNpostpObjOk := by
    rw [lt_obj_iff, h.flags_le_iff hi]
    omega
  exact UInt8.le_antisymm hupper (UInt8.not_lt.mp hlower)

/-- From the border on, all verbs have the flag `VFLAG_NPOSTP_OBJ_OK`. -/
theorem Bordered.flags_eq {verbs : List Expression} (hb : Bordered verbs) (h : Sorted verbs)
    {i : ℕ} (hi : i < verbs.length) (hle : border verbs ≤ i) :
    verbs[i].flags = vflagNpostpObjOk := by
  obtain ⟨b, hlast, hflags⟩ := hb.last
  rw [List.getLast?_eq_getElem?] at hlast
  obtain ⟨hlen, rfl⟩ := List.getElem?_eq_some_iff.mp hlast
  exact h.flags_eq hi hlen hle (by omega) hflags

/-! ### Where the scans stop -/

/-- The forward scan passes verbs that need a postposition somewhere, and stops at one
that needs none before an object only. -/
theorem forwardScan_eq {verbs : List Expression} {i k : ℕ} (hik : i ≤ k) (hk : k < verbs.length)
    (hpass : ∀ m, i ≤ m → (hm : m < k) → verbs[m].flags < vflagNpostpObjOk)
    (hstop : ¬ verbs[k].flags < vflagNpostpObjOk) :
    forwardScan (verbs.drop i) (.ofNat i) = some (.ofNat k) := by
  induction hik using Nat.decreasingInduction with
  | self =>
      rw [List.drop_eq_getElem_cons hk, forwardScan, if_neg hstop]
  | of_succ i hlt ih =>
      have hi : i < verbs.length := by omega
      rw [List.drop_eq_getElem_cons hi, forwardScan, if_pos (hpass i le_rfl hlt)]
      have hnext : UInt16.ofNat i + 1 = UInt16.ofNat (i + 1) := by
        rw [UInt16.ofNat_add]
        rfl
      rw [hnext]
      exact ih fun m hm hmk => hpass m (by omega) hmk

/-- The backward scan passes the verbs that the forward scan stops at. -/
theorem backwardScan_eq {verbs : List Expression} {i k : ℕ} (hki : k ≤ i)
    (hi : i < verbs.length) (hk : k < verbs.length)
    (hpass : ∀ m, k < m → (hm : m ≤ i) → vflagNpostpAllOk < verbs[m].flags)
    (hstop : ¬ vflagNpostpAllOk < verbs[k].flags) :
    backwardScan verbs i = some (.ofNat k) := by
  induction hki with
  | refl =>
      cases k with
      | zero =>
          rw [backwardScan, List.getElem?_eq_getElem hi]
          exact if_neg hstop
      | succ k =>
          rw [backwardScan, List.getElem?_eq_getElem hi]
          exact if_neg hstop
  | @step i hki ih =>
      rw [backwardScan, List.getElem?_eq_getElem hi]
      dsimp only
      rw [if_pos (hpass (i + 1) (Nat.lt_succ_of_le hki) le_rfl)]
      exact ih (by omega) fun m hkm hm => hpass m hkm (by omega)

/-- **Both scans meet at the border**, if there are verbs on both sides of it. -/
theorem Sorted.scans {verbs : List Expression} (h : Sorted verbs) (hpos : 0 < border verbs)
    (hlt : border verbs < verbs.length) :
    forwardScan (verbs.drop 1) 1 = some (.ofNat (border verbs)) ∧
      backwardScan verbs (verbs.length - 1) = some (.ofNat (border verbs - 1)) := by
  constructor
  · refine forwardScan_eq hpos hlt (fun m _ hm => ?_) ?_
    · rw [lt_obj_iff, h.flags_le_iff]
      exact hm
    · rw [lt_obj_iff, h.flags_le_iff]
      omega
  · have hstop : border verbs - 1 < verbs.length := by omega
    refine backwardScan_eq (by omega) (by omega) hstop (fun m hm hm' => ?_) ?_
    · rw [← UInt8.not_le, h.flags_le_iff]
      omega
    · rw [UInt8.not_lt, h.flags_le_iff]
      omega

/-- Scans that end have found a verb on each side of the border. -/
theorem Sorted.bounds_of_scans {verbs : List Expression} (h : Sorted verbs) {n : ℕ}
    (hforward : ∃ k, forwardScan (verbs.drop 1) 1 = some k)
    (hbackward : ∃ k, backwardScan verbs n = some k) :
    0 < border verbs ∧ border verbs < verbs.length := by
  obtain ⟨a, ha, hobj⟩ := (forwardScan_isSome_iff _ _).mp hforward
  obtain ⟨-, b, hb, hall⟩ := (backwardScan_isSome_iff _ _).mp hbackward
  obtain ⟨i, hi, rfl⟩ := List.mem_iff_getElem.mp (List.mem_of_mem_drop ha)
  obtain ⟨j, hj, rfl⟩ := List.mem_iff_getElem.mp (List.mem_of_mem_take hb)
  rw [← UInt8.not_lt, lt_obj_iff, h.flags_le_iff hi] at hobj
  rw [h.flags_le_iff hj] at hall
  omega

/-! ### The returned index -/

/-- **What is returned when both scans end**: the sentinel if a draw fails, and else what
the post-position flag makes of the second draw. -/
theorem yields_postpos_iff {y : YogiGen} {flag : FstrFlag} (hflag : flag.isPostpos = true)
    {posX i : UInt16} (h0 : y.verbs.count ≠ 0)
    (hf : forwardScan (y.verbs.entries.drop 1) 1 = some posX)
    (hb : backwardScan y.verbs.entries (y.verbs.count.toNat - 1) = some i)
    {usedIds : Fin 4 → Int16} {draws : List (Option UInt16)} {id : UInt16} :
    (randomExpressionId y .verb flag usedIds).Yields draws id ↔
      (draws = [none] ∧ id = errorIdx) ∨ (∃ r₀, draws = [some r₀, none] ∧ id = errorIdx) ∨
        ∃ r₀ r, draws = [some r₀, some r] ∧
          id = postposId flag y.verbs.count posX (i + 1) r := by
  have hhandle : ∀ resId, handleFlag y y.verbs.count flag usedIds resId =
      randomPostpos y y.verbs.count flag := by
    intro resId
    cases flag with
    | postposCept | postposAll | postposObj => rfl
    | noFlags | unique | indefArt | flag6 | flag7 => exact absurd hflag (by decide)
  constructor
  · intro h
    obtain ⟨r₀, rest, rfl, h₁⟩ := yields_next_bind_iff.mp h
    cases r₀ with
    | none =>
        obtain ⟨rfl, rfl⟩ := yields_pure_iff.mp h₁
        exact .inl ⟨rfl, rfl⟩
    | some r₀ =>
        simp only [YogiGen.table, if_neg h0, hhandle, randomPostpos, hf, hb] at h₁
        obtain ⟨r, rest, rfl, h₂⟩ := yields_next_bind_iff.mp h₁
        cases r with
        | none =>
            obtain ⟨rfl, rfl⟩ := yields_pure_iff.mp h₂
            exact .inr (.inl ⟨r₀, rfl, rfl⟩)
        | some r =>
            obtain ⟨rfl, rfl⟩ := yields_pure_iff.mp h₂
            exact .inr (.inr ⟨r₀, r, rfl, rfl⟩)
  · have hrest : ∀ (r₀ : UInt16) (rest : List (Option UInt16)),
        (randomPostpos y y.verbs.count flag).Yields rest id →
          (randomExpressionId y .verb flag usedIds).Yields (some r₀ :: rest) id := by
      intro r₀ rest h
      refine yields_next_bind_iff.mpr ⟨some r₀, rest, rfl, ?_⟩
      simp only [YogiGen.table, if_neg h0, hhandle]
      exact h
    rintro (⟨rfl, rfl⟩ | ⟨r₀, rfl, rfl⟩ | ⟨r₀, r, rfl, rfl⟩)
    · exact yields_next_bind_iff.mpr ⟨none, [], rfl, yields_pure_iff.mpr ⟨rfl, rfl⟩⟩
    · refine hrest r₀ [none] ?_
      rw [randomPostpos, hf, hb]
      exact yields_next_bind_iff.mpr ⟨none, [], rfl, yields_pure_iff.mpr ⟨rfl, rfl⟩⟩
    · refine hrest r₀ [some r] ?_
      rw [randomPostpos, hf, hb]
      exact yields_next_bind_iff.mpr ⟨some r, [], rfl, yields_pure_iff.mpr ⟨rfl, rfl⟩⟩

/-- Before an object the interval goes from the border to the last verb. -/
theorem toNat_postposId_obj {limit pos rnd : UInt16} (h : pos < limit) :
    (postposId .postposObj limit pos pos rnd).toNat =
      pos.toNat + rnd.toNat % (limit.toNat - pos.toNat) := by
  have hlt := UInt16.lt_iff_toNat_lt.mp h
  have hle : pos ≤ limit := UInt16.le_of_lt h
  have hne : limit - pos ≠ 0 := by
    rw [ne_eq, ← UInt16.toNat_inj, UInt16.toNat_sub_of_le _ _ hle]
    exact (Nat.sub_pos_of_lt hlt).ne'
  have hsmall := limit.toNat_lt
  have hmod : rnd.toNat % (limit.toNat - pos.toNat) < limit.toNat - pos.toNat :=
    Nat.mod_lt _ (Nat.sub_pos_of_lt hlt)
  rw [postposId, if_pos rfl]
  dsimp only
  rw [if_neg hne, UInt16.toNat_add, UInt16.toNat_mod, UInt16.toNat_sub_of_le _ _ hle,
    Nat.mod_eq_of_lt (by omega), Nat.add_comm]

/-- Otherwise the interval is empty where the scans meet, and the position itself is left. -/
theorem postposId_eq_self {flag : FstrFlag} (hflag : flag ≠ .postposObj)
    (limit pos rnd : UInt16) : postposId flag limit pos pos rnd = pos := by
  rw [postposId, if_neg hflag]
  dsimp only
  rw [UInt16.sub_self, if_pos rfl]
  have hmod : rnd % (0 + 1) = 0 := by
    rw [← UInt16.toNat_inj, UInt16.toNat_mod]
    exact Nat.mod_one _
  rw [hmod, UInt16.zero_add]

section

variable {y : YogiGen} {flag : FstrFlag} {usedIds : Fin 4 → Int16}

/-- **What is returned for verbs on both sides of the border.** -/
theorem yields_verb_iff (hflag : flag.isPostpos = true) (h : Sorted y.verbs.entries)
    (hpos : 0 < border y.verbs.entries) (hlt : border y.verbs.entries < y.verbs.entries.length)
    {draws : List (Option UInt16)} {id : UInt16} :
    (randomExpressionId y .verb flag usedIds).Yields draws id ↔
      (none ∈ draws ∧ id = errorIdx ∧ (draws = [none] ∨ ∃ r₀, draws = [some r₀, none])) ∨
        ∃ r₀ r, draws = [some r₀, some r] ∧
          id = postposId flag y.verbs.count (.ofNat (border y.verbs.entries))
            (.ofNat (border y.verbs.entries)) r := by
  obtain ⟨hf, hb⟩ := h.scans hpos hlt
  have h0 : y.verbs.count ≠ 0 := by
    rw [ne_eq, y.verbs.count_eq_zero_iff, ← List.length_eq_zero_iff]
    omega
  have hnext : UInt16.ofNat (border y.verbs.entries - 1) + 1 =
      .ofNat (border y.verbs.entries) := by
    obtain ⟨k, hk⟩ := Nat.exists_eq_succ_of_ne_zero hpos.ne'
    rw [hk, Nat.succ_sub_one, Nat.succ_eq_add_one, UInt16.ofNat_add]
    rfl
  rw [← y.verbs.toNat_count] at hb
  rw [yields_postpos_iff hflag h0 hf hb, hnext]
  constructor
  · rintro (⟨rfl, rfl⟩ | ⟨r₀, rfl, rfl⟩ | hdraws)
    · exact .inl ⟨by simp, rfl, .inl rfl⟩
    · exact .inl ⟨by simp, rfl, .inr ⟨r₀, rfl⟩⟩
    · exact .inr hdraws
  · rintro (⟨-, rfl, rfl | ⟨r₀, rfl⟩⟩ | hdraws)
    · exact .inl ⟨rfl, rfl⟩
    · exact .inr (.inl ⟨r₀, rfl, rfl⟩)
    · exact .inr (.inr hdraws)

/-- And fits into sixteen bits. -/
theorem toNat_border (hlt : border y.verbs.entries < y.verbs.entries.length) :
    (UInt16.ofNat (border y.verbs.entries)).toNat = border y.verbs.entries := by
  have hsmall := y.verbs.small
  rw [UInt16.toNat_ofNat', Nat.mod_eq_of_lt (by omega)]

/-- A successful draw for the flag `FSTR_POSTPOS_OBJ`. -/
theorem toNat_postpos_obj (hlt : border y.verbs.entries < y.verbs.entries.length) (r : UInt16) :
    (postposId .postposObj y.verbs.count (.ofNat (border y.verbs.entries))
        (.ofNat (border y.verbs.entries)) r).toNat =
      border y.verbs.entries +
        r.toNat % (y.verbs.entries.length - border y.verbs.entries) := by
  have hcount : UInt16.ofNat (border y.verbs.entries) < y.verbs.count := by
    rw [UInt16.lt_iff_toNat_lt, toNat_border hlt, Table.toNat_count]
    exact hlt
  rw [toNat_postposId_obj hcount, toNat_border hlt, Table.toNat_count]

/-- With a border inside the verbs, every draw gives the index of a verb. -/
theorem postposId_lt (hlt : border y.verbs.entries < y.verbs.entries.length) (flag : FstrFlag)
    (r : UInt16) :
    (postposId flag y.verbs.count (.ofNat (border y.verbs.entries))
      (.ofNat (border y.verbs.entries)) r).toNat < y.verbs.entries.length := by
  by_cases hobj : flag = .postposObj
  · subst hobj
    have hmod : r.toNat % (y.verbs.entries.length - border y.verbs.entries) <
        y.verbs.entries.length - border y.verbs.entries := Nat.mod_lt _ (by omega)
    rw [toNat_postpos_obj hlt]
    omega
  · rw [postposId_eq_self hobj, toNat_border hlt]
    exact hlt

/-- **`FSTR_POSTPOS_OBJ`**: the scans meet at the border, an index from there on is
returned, unless a draw fails, and every such index is returned for some draw. -/
theorem postpos_obj (h : Sorted y.verbs.entries) (hb : Bordered y.verbs.entries) :
    (forwardScan (y.verbs.entries.drop 1) 1 = some (.ofNat (border y.verbs.entries)) ∧
      ∃ i, backwardScan y.verbs.entries (y.verbs.entries.length - 1) = some i ∧
        i + 1 = .ofNat (border y.verbs.entries)) ∧
      (∀ draws id, (randomExpressionId y .verb .postposObj usedIds).Yields draws id →
        (none ∈ draws ∧ id = errorIdx) ∨
          (border y.verbs.entries ≤ id.toNat ∧ id.toNat < y.verbs.entries.length ∧
            ∃ e, y.verbs.entries[id.toNat]? = some e ∧ e.flags = vflagNpostpObjOk)) ∧
      (∀ r₀ r, ∃ id,
        (randomExpressionId y .verb .postposObj usedIds).Yields [some r₀, some r] id) ∧
      ∀ idx, border y.verbs.entries ≤ idx → idx < y.verbs.entries.length →
        ∃ r : UInt16, ∀ r₀, (randomExpressionId y .verb .postposObj usedIds).Yields
          [some r₀, some r] (.ofNat idx) := by
  obtain ⟨hpos, hlt⟩ := hb.bounds h
  have hsmall := y.verbs.small
  refine ⟨?_, fun draws id hy => ?_, fun r₀ r => ?_, fun idx hle hidx => ?_⟩
  · obtain ⟨hf, hback⟩ := h.scans hpos hlt
    refine ⟨hf, _, hback, UInt16.toNat_inj.mp ?_⟩
    rw [UInt16.toNat_add, UInt16.toNat_ofNat', toNat_border hlt]
    simp only [UInt16.reduceToNat]
    omega
  · rcases (yields_verb_iff rfl h hpos hlt).mp hy with ⟨hnone, hid, -⟩ | ⟨r₀, r, -, rfl⟩
    · exact .inl ⟨hnone, hid⟩
    · have hmod : r.toNat % (y.verbs.entries.length - border y.verbs.entries) <
          y.verbs.entries.length - border y.verbs.entries := Nat.mod_lt _ (by omega)
      rw [toNat_postpos_obj hlt]
      have hid : border y.verbs.entries +
          r.toNat % (y.verbs.entries.length - border y.verbs.entries) <
            y.verbs.entries.length := by omega
      exact .inr ⟨Nat.le_add_right _ _, hid, _, List.getElem?_eq_getElem hid,
        hb.flags_eq h hid (Nat.le_add_right _ _)⟩
  · exact ⟨_, (yields_verb_iff rfl h hpos hlt).mpr (.inr ⟨r₀, r, rfl, rfl⟩)⟩
  · refine ⟨.ofNat (idx - border y.verbs.entries), fun r₀ =>
      (yields_verb_iff rfl h hpos hlt).mpr (.inr ⟨r₀, _, rfl, UInt16.toNat_inj.mp ?_⟩)⟩
    rw [toNat_postpos_obj hlt, UInt16.toNat_ofNat', UInt16.toNat_ofNat',
      Nat.mod_eq_of_lt (by omega : idx < 2 ^ 16),
      Nat.mod_eq_of_lt (by omega : idx - border y.verbs.entries < 2 ^ 16),
      Nat.mod_eq_of_lt (by omega)]
    omega

/-- A state with verbs of the given flags. -/
def verbsWith (flags : List UInt8) : YogiGen :=
  { blank with verbs := .ofRows (flags.map fun v => ⟨0, v, ascii "be", ascii "is"⟩) }

/-- The last of four verbs. -/
theorem postpos_obj_four :
    ∃ r : UInt16, ∀ r₀, (randomExpressionId (verbsWith [0, 1, 3, 3]) .verb .postposObj
      fun _ => -1).Yields [some r₀, some r] 3 :=
  (postpos_obj (y := verbsWith [0, 1, 3, 3]) (by decide)
    ⟨⟨_, rfl, by decide⟩, ⟨_, rfl, by decide⟩⟩).2.2.2 3 (by decide) (by decide)

/-- `VFLAG_NPOSTP_CEPT_OK`. -/
def vflagNpostpCeptOk : UInt8 := 1

/-- **`FSTR_POSTPOS_CEPT` and `FSTR_POSTPOS_ALL`**: if there are verbs with all flags, what
is returned is never a verb that may stand before a concept without a postposition. For
every two draws it is the first of the verbs that may only stand before an object. -/
theorem postpos_cept_all (h : Sorted y.verbs.entries)
    (hall : ∀ flags ∈ [0, vflagNpostpCeptOk, vflagNpostpAllOk, vflagNpostpObjOk],
      ∃ e ∈ y.verbs.entries, e.flags = flags)
    (hflag : flag = .postposCept ∨ flag = .postposAll) :
    (∀ draws id, (randomExpressionId y .verb flag usedIds).Yields draws id →
      ¬ ∃ e, y.verbs.entries[id.toNat]? = some e ∧
        (e.flags = vflagNpostpCeptOk ∨ e.flags = vflagNpostpAllOk)) ∧
      ∀ r₀ r, ∃ id e, (randomExpressionId y .verb flag usedIds).Yields [some r₀, some r] id ∧
        y.verbs.entries[id.toNat]? = some e ∧ e.flags = vflagNpostpObjOk := by
  obtain ⟨e₀, he₀, hflags₀⟩ := hall 0 (by simp)
  obtain ⟨e₃, he₃, hflags₃⟩ := hall vflagNpostpObjOk (by simp)
  obtain ⟨i, hi, rfl⟩ := List.mem_iff_getElem.mp he₀
  obtain ⟨j, hj, rfl⟩ := List.mem_iff_getElem.mp he₃
  have hib := (h.flags_le_iff hi).mp (by rw [hflags₀]; decide)
  have hjb : ¬ j < border y.verbs.entries := by
    rw [← h.flags_le_iff hj, hflags₃]
    decide
  have hlt : border y.verbs.entries < y.verbs.entries.length := by omega
  have hborder : y.verbs.entries[border y.verbs.entries].flags = vflagNpostpObjOk :=
    h.flags_eq hlt hj le_rfl (not_lt.mp hjb) hflags₃
  obtain ⟨hpostpos, hobj⟩ : flag.isPostpos = true ∧ flag ≠ .postposObj := by
    rcases hflag with rfl | rfl
    · exact ⟨rfl, by simp⟩
    · exact ⟨rfl, by simp⟩
  have hself : ∀ r, postposId flag y.verbs.count (.ofNat (border y.verbs.entries))
      (.ofNat (border y.verbs.entries)) r = .ofNat (border y.verbs.entries) :=
    postposId_eq_self hobj y.verbs.count _
  refine ⟨fun draws id hy => ?_, fun r₀ r => ?_⟩
  · rintro ⟨e, he, hflags⟩
    rcases (yields_verb_iff hpostpos h (by omega) hlt).mp hy with
      ⟨-, rfl, -⟩ | ⟨r₀, r, -, rfl⟩
    · -- no verb has the reserved index
      have hlen := (List.getElem?_eq_some_iff.mp he).1
      have hsmall := y.verbs.small
      simp only [errorIdx, UInt16.reduceToNat] at hlen
      omega
    · rw [hself, toNat_border hlt, List.getElem?_eq_getElem hlt] at he
      obtain rfl := Option.some.inj he
      rw [hborder] at hflags
      exact absurd hflags (by decide)
  · refine ⟨_, _, (yields_verb_iff hpostpos h (by omega) hlt).mpr (.inr ⟨r₀, r, rfl, rfl⟩), ?_,
      hborder⟩
    rw [hself, toNat_border hlt, List.getElem?_eq_getElem hlt]

/-- An index at which there is a verb for objects. -/
theorem postpos_cept_all_four :
    ∃ id e, (randomExpressionId (verbsWith [0, 1, 2, 3]) .verb .postposCept fun _ => -1).Yields
        [some 7, some 1] id ∧
      (verbsWith [0, 1, 2, 3]).verbs.entries[id.toNat]? = some e ∧ e.flags = vflagNpostpObjOk :=
  (postpos_cept_all (y := verbsWith [0, 1, 2, 3]) (by decide +kernel) (by decide +kernel)
    (.inl rfl)).2 7 1

/-- With one verb for each of the flags, every draw returns the last of the four. -/
theorem cept_returns_obj_verb :
    Sorted (verbsWith [0, 1, 2, 3]).verbs.entries ∧
      (∀ flags ∈ [0, vflagNpostpCeptOk, vflagNpostpAllOk, vflagNpostpObjOk],
        ∃ e ∈ (verbsWith [0, 1, 2, 3]).verbs.entries, e.flags = flags) ∧
      (randomExpressionId (verbsWith [0, 1, 2, 3]) .verb .postposCept fun _ => -1).run
        [some 0, some 0] = .done 3 [] ∧
      ¬ ∃ e, (verbsWith [0, 1, 2, 3]).verbs.entries[3]? = some e ∧
        (e.flags = vflagNpostpCeptOk ∨ e.flags = vflagNpostpAllOk) := by
  refine ⟨by decide +kernel, by decide +kernel, by decide +kernel, ?_⟩
  rintro ⟨e, he, hflags⟩
  obtain rfl := Option.some.inj he
  exact absurd hflags (by decide)

/-- The scans end within the verbs, and so do all the indices that draws return. -/
structure ScansInside (y : YogiGen) (flag : FstrFlag) (usedIds : Fin 4 → Int16) : Prop where
  forward : ∃ posX, forwardScan (y.verbs.entries.drop 1) 1 = some posX
  backward : ∃ i, backwardScan y.verbs.entries (y.verbs.entries.length - 1) = some i
  faultless : (randomExpressionId y .verb flag usedIds).Faultless
  inside : ∀ draws id, (randomExpressionId y .verb flag usedIds).Yields draws id →
    none ∉ draws → id.toNat < y.verbs.entries.length

/-- **When the scans stay inside**: the flags of the first verb are at most
`VFLAG_NPOSTP_ALL_OK`, and those of the last one are `VFLAG_NPOSTP_OBJ_OK`. -/
theorem scansInside_iff (hne : y.verbs.entries ≠ []) (h : Sorted y.verbs.entries)
    (hflags : ∀ e ∈ y.verbs.entries, e.flags ≤ vflagNpostpObjOk)
    (hflag : flag.isPostpos = true) :
    ScansInside y flag usedIds ↔ Bordered y.verbs.entries := by
  have hlen := List.length_pos_iff.mpr hne
  constructor
  · intro hin
    obtain ⟨hpos, hlt⟩ := h.bounds_of_scans hin.forward hin.backward
    have hlast : y.verbs.entries.length - 1 < y.verbs.entries.length := by omega
    refine ⟨⟨_, by rw [List.head?_eq_getElem?, List.getElem?_eq_getElem hlen], ?_⟩,
      ⟨_, by rw [List.getLast?_eq_getElem?, List.getElem?_eq_getElem hlast], ?_⟩⟩
    · rw [h.flags_le_iff hlen]
      omega
    · refine UInt8.le_antisymm (hflags _ (List.getElem_mem _)) ?_
      rw [← UInt8.not_lt, lt_obj_iff, h.flags_le_iff hlast]
      omega
  · intro hb
    obtain ⟨hpos, hlt⟩ := hb.bounds h
    obtain ⟨hf, hback⟩ := h.scans hpos hlt
    have hforward := (forwardScan_isSome_iff _ _).mp ⟨_, hf⟩
    obtain ⟨-, hbackward⟩ := (backwardScan_isSome_iff _ _).mp ⟨_, hback⟩
    rw [Nat.sub_add_cancel hlen] at hbackward
    refine ⟨⟨_, hf⟩, ⟨_, hback⟩, ?_, fun draws id hy hnone => ?_⟩
    · refine (randomExpressionId_law_iff faultless_law).mpr ⟨hne, fun _ => ?_, ?_⟩
      · exact ⟨hforward, le_rfl, hbackward⟩
      · rintro rfl
        exact absurd hflag (by decide)
    · rcases (yields_verb_iff hflag h hpos hlt).mp hy with ⟨hmem, -⟩ | ⟨r₀, r, -, rfl⟩
      · exact absurd hmem hnone
      · exact postposId_lt hlt flag r

end

/-- Two verbs with a border between them. -/
theorem scansInside_two :
    ScansInside (verbsWith [0, 3]) .postposAll (fun _ => -1) ↔
      Bordered (verbsWith [0, 3]).verbs.entries :=
  scansInside_iff (by decide) (by decide) (by decide) rfl

/-- Without a verb that may only stand before an object the forward scan reads past the
verbs. -/
theorem scan_leaves_verbs :
    (verbsWith [0, 1, 2]).verbs.entries ≠ [] ∧ Sorted (verbsWith [0, 1, 2]).verbs.entries ∧
      (∀ e ∈ (verbsWith [0, 1, 2]).verbs.entries, e.flags ≤ vflagNpostpObjOk) ∧
      (randomExpressionId (verbsWith [0, 1, 2]) .verb .postposCept fun _ => -1).run [some 0] =
        .fault .outOfBounds := by
  refine ⟨by decide, by decide, by decide, ?_⟩
  decide +kernel

end Yogigen
