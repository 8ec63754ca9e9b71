import Yogigen.Loading
import Yogigen.Lookups
import Yogigen.Phrases
import Yogigen.Reorder

/-!
# The Order of the Rows

The statements that load the tables order the expressions by their flags only, and the
formats not at all, so every load may list the rows in another order, and every draw may
select something else. `Reordered` relates two states whose entries are the same at other
positions; what one of them selects and changes, the other can.

The flags `FSTR_POSTPOS_CEPT` and `FSTR_POSTPOS_ALL` always select the verb at the border,
which is the row that happens to come first among those with `VFLAG_NPOSTP_OBJ_OK`.

## Main results

* `admitsVerb_iff`: which verbs a post-position flag admits.
* `Phrase.reordered`: a phrase of one state is a phrase of the other.
* `loads_same_phrases`: two loads of a database make the same phrases.
-/

open Printf Reorder Supply Supply.Reader Transition

namespace Yogigen

/-! ### Verbs -/

/-- The last verb before the border, and the border. -/
theorem ofNat_border_pred {verbs : List Expression} (hpos : 0 < border verbs) :
    UInt16.ofNat (border verbs - 1) + 1 = .ofNat (border verbs) := by
  obtain ⟨k, hk⟩ := Nat.exists_eq_succ_of_ne_zero hpos.ne'
  rw [hk, Nat.succ_sub_one, Nat.succ_eq_add_one, UInt16.ofNat_add]
  rfl

/-- The ids from a start on. -/
theorem sub_lt_sub_iff {id start limit : UInt16} (h : start < limit) :
    id - start < limit - start ↔ start ≤ id ∧ id < limit := by
  rw [UInt16.lt_iff_toNat_lt] at h
  rw [UInt16.lt_iff_toNat_lt, UInt16.le_iff_toNat_le, UInt16.lt_iff_toNat_lt, UInt16.toNat_sub,
    UInt16.toNat_sub]
  have hid := id.toNat_lt
  have hlimit := limit.toNat_lt
  omega

/-- A span of one has one index. -/
theorem sub_lt_one_iff {id start : UInt16} : id - start < 1 ↔ id = start := by
  constructor
  · intro h
    have h0 : id - start = 0 := by
      rw [UInt16.lt_iff_toNat_lt] at h
      exact UInt16.toNat_inj.mp (Nat.lt_one_iff.mp h)
    rw [← UInt16.sub_add_cancel id start, h0, UInt16.zero_add]
  · rintro rfl
    rw [UInt16.sub_self]
    decide

/-- **The verbs that a post-position flag admits**, where both scans end: those from the
border on, or the one at the border. -/
theorem admitsVerb_iff {y : YogiGen} (h : Sorted y.verbs.entries) {flag : FstrFlag}
    {id : UInt16} : AdmitsVerb y .verb id flag ↔
      (0 < border y.verbs.entries ∧ border y.verbs.entries < y.verbs.entries.length) ∧
        if flag = .postposObj then
          border y.verbs.entries ≤ id.toNat ∧ id.toNat < y.verbs.entries.length
        else id.toNat = border y.verbs.entries := by
  have hspan : border y.verbs.entries < y.verbs.entries.length →
      (id - postposStart flag (.ofNat (border y.verbs.entries))
            (.ofNat (border y.verbs.entries)) <
          postposSpan flag y.verbs.count (.ofNat (border y.verbs.entries))
            (.ofNat (border y.verbs.entries)) ↔
        if flag = .postposObj then
          border y.verbs.entries ≤ id.toNat ∧ id.toNat < y.verbs.entries.length
        else id.toNat = border y.verbs.entries) := by
    intro hlt
    have hcount : UInt16.ofNat (border y.verbs.entries) < y.verbs.count := by
      rw [UInt16.lt_iff_toNat_lt, toNat_border hlt, Table.toNat_count]
      exact hlt
    rw [postposStart, postposSpan]
    by_cases hobj : flag = .postposObj
    · have hne : y.verbs.count - UInt16.ofNat (border y.verbs.entries) ≠ 0 := by
        intro h0
        rw [← UInt16.sub_add_cancel y.verbs.count (.ofNat (border y.verbs.entries)), h0,
          UInt16.zero_add] at hcount
        exact UInt16.lt_irrefl _ hcount
      rw [if_pos hobj, if_pos hobj, if_pos hobj, if_neg hne, sub_lt_sub_iff hcount,
        UInt16.le_iff_toNat_le, UInt16.lt_iff_toNat_lt, toNat_border hlt, Table.toNat_count]
    · rw [if_neg hobj, if_neg hobj, if_neg hobj, UInt16.sub_self, if_pos rfl, UInt16.zero_add,
        sub_lt_one_iff, ← UInt16.toNat_inj, toNat_border hlt]
  constructor
  · rintro ⟨-, posX, i, hf, hb, hid⟩
    obtain ⟨hpos, hlt⟩ := h.bounds_of_scans ⟨_, hf⟩ ⟨_, hb⟩
    obtain ⟨hf', hb'⟩ := h.scans hpos hlt
    rw [← y.verbs.toNat_count] at hb'
    obtain rfl := Option.some.inj (hf.symm.trans hf')
    obtain rfl := Option.some.inj (hb.symm.trans hb')
    rw [ofNat_border_pred hpos] at hid
    exact ⟨⟨hpos, hlt⟩, (hspan hlt).mp hid⟩
  · rintro ⟨⟨hpos, hlt⟩, hid⟩
    obtain ⟨hf, hb⟩ := h.scans hpos hlt
    rw [← y.verbs.toNat_count] at hb
    refine ⟨fun h0 => ?_, _, _, hf, hb, ?_⟩
    · rw [YogiGen.table, Table.count_eq_zero_iff] at h0
      rw [h0] at hlt
      exact Nat.not_lt_zero _ hlt
    · rw [ofNat_border_pred hpos]
      exact (hspan hlt).mpr hid

/-! ### Two states -/

/-- Where the index of an entry is moved. -/
def moved (π : ℕ → ℕ) (id : UInt16) : UInt16 :=
  .ofNat (π id.toNat)

/-- The entries of two states are the same at other positions, in the order of the same flags,
and the formats are the same. -/
structure Reordered (π : ExprType → ℕ → ℕ) (y y' : YogiGen) : Prop where
  moves : ∀ type, Moves (π type) (y.table type).entries (y'.table type).entries
  flags : ∀ type, (y'.table type).entries.map (·.flags) = (y.table type).entries.map (·.flags)
  formats : ∀ f, f ∈ y'.formats.entries ↔ f ∈ y.formats.entries

/-- A descriptor that admits the same entries in every order: `FSTR_UNIQUE` compares all
indices, and a post-position flag is for verbs in the order of their flags, of which the one
at the border stays. -/
structure Steady (π : ExprType → ℕ → ℕ) (y : YogiGen) (d : Descriptor) : Prop where
  unique : d.flag = .unique → (y.table d.type).entries.length ≤ 32768
  verb : d.flag.isPostpos = true → d.type = .verb ∧ Sorted y.verbs.entries
  border : d.flag.isPostpos = true → d.flag ≠ .postposObj →
    border y.verbs.entries < y.verbs.entries.length →
      π .verb (border y.verbs.entries) = border y.verbs.entries

section

variable {π : ExprType → ℕ → ℕ} {y y' : YogiGen}

/-- The order and the border of verbs are those of their flags. -/
theorem sorted_iff_of_flags {verbs verbs' : List Expression}
    (h : verbs'.map (·.flags) = verbs.map (·.flags)) : Sorted verbs' ↔ Sorted verbs := by
  have hflags : ∀ vs : List Expression,
      Sorted vs ↔ (vs.map (·.flags)).Pairwise (· ≤ ·) :=
    fun _ => List.pairwise_map.symm
  rw [hflags, hflags, h]

/-- The border depends on the flags only. -/
theorem border_eq_of_flags {verbs verbs' : List Expression}
    (h : verbs'.map (·.flags) = verbs.map (·.flags)) : border verbs' = border verbs := by
  have hflags : ∀ vs : List Expression,
      border vs = (vs.map (·.flags)).countP fun v => decide (v ≤ vflagNpostpAllOk) := by
    intro vs
    rw [List.countP_map]
    rfl
  rw [hflags, hflags, h]

/-- An entry with the same flags leaves them alone. -/
theorem map_flags_set {es : List Expression} {i : ℕ} {e e' : Expression} (he : es[i]? = some e)
    (hflags : e'.flags = e.flags) : (es.set i e').map (·.flags) = es.map (·.flags) := by
  obtain ⟨hi, rfl⟩ := List.getElem?_eq_some_iff.mp he
  have hi' : i < (es.map (·.flags)).length := by rwa [List.length_map]
  have hself := List.set_getElem_self hi'
  rwa [List.getElem_map, ← hflags, ← List.map_set] at hself

/-- So the other load is sorted if the first one is. -/
theorem Reordered.sorted_iff (h : Reordered π y y') :
    Sorted y'.verbs.entries ↔ Sorted y.verbs.entries :=
  sorted_iff_of_flags (h.flags .verb)

/-- And has the same border. -/
theorem Reordered.border_eq (h : Reordered π y y') :
    border y'.verbs.entries = border y.verbs.entries :=
  border_eq_of_flags (h.flags .verb)

/-- An index within the table is moved without wrapping around. -/
theorem Reordered.toNat_moved (h : Reordered π y y') {type : ExprType} {id : UInt16}
    (hid : id.toNat < (y.table type).entries.length) :
    (moved (π type) id).toNat = π type id.toNat := by
  have hlt := (h.moves type).lt hid
  have hsmall := (y'.table type).small
  rw [moved, UInt16.toNat_ofNat', Nat.mod_eq_of_lt (by omega)]

/-- A moved index is one of the other state. -/
theorem Reordered.moved_lt (h : Reordered π y y') {type : ExprType} {id : UInt16}
    (hid : id.toNat < (y.table type).entries.length) :
    (moved (π type) id).toNat < (y'.table type).entries.length := by
  rw [h.toNat_moved hid]
  exact (h.moves type).lt hid

/-- The entry that is found at an index is found where it has moved. -/
theorem Reordered.getExpression_moved (h : Reordered π y y') {type : ExprType} {id : UInt16}
    {e : Expression} (he : getExpression y id type = some e) :
    getExpression y' (moved (π type) id) type = some e := by
  rw [getExpression_eq] at he ⊢
  rw [h.toNat_moved (List.getElem?_eq_some_iff.mp he).1]
  exact (h.moves type).getElem?_eq_some he

/-- **Writing the same entry** in both states. -/
theorem Reordered.setExpression (h : Reordered π y y') {type : ExprType} {id : UInt16}
    {e e' : Expression} (he : getExpression y id type = some e) (hflags : e'.flags = e.flags) :
    Reordered π (y.setExpression id type e')
      (y'.setExpression (moved (π type) id) type e') := by
  have he' := h.getExpression_moved he
  rw [getExpression_eq] at he he'
  have hid := (List.getElem?_eq_some_iff.mp he).1
  refine ⟨fun type' => ?_, fun type' => ?_, ?_⟩
  · rw [table_setExpression, table_setExpression]
    split_ifs with htype
    · subst htype
      rw [h.toNat_moved hid]
      exact (h.moves type').set hid e'
    · exact h.moves type'
  · rw [table_setExpression, table_setExpression]
    split_ifs with htype
    · rw [map_flags_set he hflags, map_flags_set he' hflags]
      exact h.flags type
    · exact h.flags type'
  · cases type with
    | verb | adjective | concept | object => exact h.formats

/-! ### Casts -/

/-- What a steady descriptor admits is within the table. -/
theorem Steady.inside {d : Descriptor} (h : Steady π y d) (hpost : d.flag.isPostpos = true) :
    Sorted y.verbs.entries ∧
      (d.type = .verb ∨ Yogigen.border y.verbs.entries < (y.table d.type).entries.length) :=
  ⟨(h.verb hpost).2, .inl (h.verb hpost).1⟩

/-- The verbs from the border on stay there. -/
theorem Reordered.border_le (h : Reordered π y y') (hsorted : Sorted y.verbs.entries) {i : ℕ}
    (hi : i < y.verbs.entries.length) (hle : border y.verbs.entries ≤ i) :
    border y.verbs.entries ≤ π .verb i := by
  have hi' := (h.moves .verb).lt hi
  have hget := (h.moves .verb).getElem? i hi
  simp only [YogiGen.table] at hi' hget
  rw [List.getElem?_eq_getElem hi, List.getElem?_eq_getElem hi', Option.some.injEq] at hget
  by_contra hlt
  rw [not_le, ← h.border_eq, ← (h.sorted_iff.mpr hsorted).flags_le_iff hi', hget,
    hsorted.flags_le_iff hi] at hlt
  omega

/-- Moved ids are in use where the ids are. -/
theorem Reordered.clashes_moved (h : Reordered π y y') {type : ExprType}
    (hsmall : (y.table type).entries.length ≤ 32768) {id : UInt16}
    (hid : id.toNat < (y.table type).entries.length) {usedIds usedIds' : Fin 4 → Int16}
    (hused : ∀ k, usedIds' k = -1 ∨ ∃ used : UInt16,
      used.toNat < (y.table type).entries.length ∧ usedIds k = used.toInt16 ∧
        usedIds' k = (moved (π type) used).toInt16)
    (hfree : clashes usedIds id = false) : clashes usedIds' (moved (π type) id) = false := by
  refine decide_eq_false ?_
  rintro ⟨k, hnonneg, hk⟩
  rcases hused k with hnone | ⟨used, hlt, hused, hused'⟩
  · rw [hnone] at hnonneg
    exact absurd hnonneg (by decide)
  · have hlen := (h.moves type).length_eq
    have hmoved := h.moved_lt hlt
    rw [hused', toInt_toInt16 (by omega), Int.natCast_inj, h.toNat_moved hlt,
      h.toNat_moved hid] at hk
    have hsame : used = id := UInt16.toNat_inj.mp ((h.moves type).inj _ hlt _ hid hk)
    exact ne_of_not_clashes hfree (by omega) k (hsame ▸ hused)

/-- **What a flag admits** is admitted where it has moved. -/
theorem Reordered.admits (h : Reordered π y y') {d : Descriptor} (hd : Steady π y d)
    {usedIds usedIds' : Fin 4 → Int16} {id : UInt16}
    (hused : ∀ k, usedIds' k = -1 ∨ ∃ used : UInt16,
      used.toNat < (y.table d.type).entries.length ∧ usedIds k = used.toInt16 ∧
        usedIds' k = (moved (π d.type) used).toInt16)
    (hadmits : Admits y d.type usedIds id d.flag) :
    Admits y' d.type usedIds' (moved (π d.type) id) d.flag := by
  have hid := hadmits.lt hd.inside
  have hlt : moved (π d.type) id < (y'.table d.type).count := by
    rw [UInt16.lt_iff_toNat_lt, Table.toNat_count]
    exact h.moved_lt hid
  have hpostpos : d.flag.isPostpos = true → AdmitsVerb y d.type id d.flag →
      AdmitsVerb y' d.type (moved (π d.type) id) d.flag := by
    intro hflag hverb
    have hborder := hd.border hflag
    obtain ⟨htype, hsorted⟩ := hd.verb hflag
    rw [htype] at hid hverb ⊢
    have hlen := (h.moves .verb).length_eq
    have hmoved := h.moved_lt hid
    have hsorted' := h.sorted_iff.mpr hsorted
    obtain ⟨hbounds, hid'⟩ := (admitsVerb_iff hsorted).mp hverb
    refine (admitsVerb_iff hsorted').mpr ?_
    rw [h.border_eq]
    simp only [YogiGen.table] at hlen hid hmoved
    refine ⟨⟨hbounds.1, by omega⟩, ?_⟩
    split_ifs at hid' ⊢ with hobj
    · refine ⟨?_, hmoved⟩
      rw [h.toNat_moved hid]
      exact h.border_le hsorted hid hid'.1
    · rw [h.toNat_moved hid, hid']
      exact hborder hobj hbounds.2
  cases hflag : d.flag with
  | noFlags | indefArt => exact hlt
  | unique =>
      rw [hflag] at hadmits
      exact ⟨hlt, h.clashes_moved (hd.unique hflag) hid hused hadmits.2⟩
  | postposCept | postposAll | postposObj =>
      rw [hflag] at hpostpos hadmits
      exact hpostpos rfl hadmits
  | flag6 | flag7 =>
      rw [hflag] at hadmits
      exact hadmits.elim

/-- The cast that selects the same entries. -/
def Cast.along (π : ExprType → ℕ → ℕ) (σ : Cast) : Cast :=
  fun type k => moved (π type) (σ type k)

/-- The expressions of an admissible cast are in the tables. -/
theorem Cast.Admissible.lt {σ : Cast} {data : UInt64} {n j : ℕ} (hσ : σ.Admissible y data n)
    (hsteady : ∀ m < n, Steady π y (descriptorAt data m)) (hj : j < n) :
    (σ.id (descriptorAt data j)).toNat < (y.table (descriptorAt data j).type).entries.length := by
  obtain ⟨k, hk, hfirst, hsame⟩ := exists_first data j
  have hkn : k < n := by omega
  have hlt := (hσ k hkn hfirst).2.lt (hsteady k hkn).inside
  rwa [Cast.id, hsame.1, hsame.2] at hlt

/-- **An admissible cast** of the one state is one of the other. -/
theorem Reordered.admissible (h : Reordered π y y') {σ : Cast} {data : UInt64} {n : ℕ}
    (hsteady : ∀ m < n, Steady π y (descriptorAt data m)) (hσ : σ.Admissible y data n) :
    (σ.along π).Admissible y' data n := by
  intro m hm hfirst
  refine ⟨?_, h.admits (hsteady m hm) (fun k => ?_) (hσ m hm hfirst).2⟩
  · -- the reserved index is past every table
    have hlt := h.moved_lt (hσ.lt hsteady hm)
    have hsmall := (y'.table (descriptorAt data m).type).small
    intro hid
    have hid' : moved (π (descriptorAt data m).type) (σ.id (descriptorAt data m)) = errorIdx := hid
    rw [hid'] at hlt
    simp only [errorIdx, UInt16.reduceToNat] at hlt
    omega
  · rw [Cast.slots, Cast.slots]
    split_ifs with hslot
    · obtain ⟨j, hj, htype, hidx⟩ := hslot
      have hlt := hσ.lt hsteady (hj.trans hm)
      rw [Cast.id, htype, hidx] at hlt
      exact .inr ⟨_, hlt, rfl, rfl⟩
    · exact .inl rfl

/-! ### Texts -/

/-- A position with the same entry at another index. -/
structure SubstitutionData.Moved (π : ExprType → ℕ → ℕ) (s s' : SubstitutionData) (i : Fin 8) :
    Prop where
  type : s'.types i = s.types i
  mode : s'.modes i = s.modes i
  flag : s'.flags i = s.flags i
  ins : (s'.ins i).toUInt16 = moved (π (s.types i)) (s.ins i).toUInt16

/-- The same entry is found at the moved index. -/
theorem Reordered.lookup_moved (h : Reordered π y y') {s s' : SubstitutionData} {i : Fin 8}
    (hs : s.Moved π s' i) {e : Expression} (he : lookup y s i = some e) :
    lookup y' s' i = some e := by
  rw [lookup, hs.type, hs.ins]
  exact h.getExpression_moved he

/-- **One position**: the same text is written. -/
theorem Reordered.substituteStep (h : Reordered π y y') {s s' : SubstitutionData} {i : Fin 8}
    (hs : s.Moved π s' i) {out out₁ : Bytes} {y₁ : YogiGen}
    (hstep : Yogigen.substituteStep y s i out = some (y₁, out₁)) :
    ∃ y₁', Yogigen.substituteStep y' s' i out = some (y₁', out₁) ∧ Reordered π y₁ y₁' := by
  rw [Yogigen.substituteStep] at hstep ⊢
  cases he : lookup y s i with
  | none => simp [he] at hstep
  | some e =>
      simp only [he] at hstep
      simp only [h.lookup_moved hs he, hs.type, hs.mode, hs.flag, hs.ins]
      split_ifs at hstep ⊢ with hart
      · obtain ⟨rfl, rfl⟩ := Prod.mk.inj (Option.some.inj hstep)
        exact ⟨_, rfl, h.setExpression he (e.extends_withPrefix (s.modes i)).flags⟩
      · obtain ⟨rfl, rfl⟩ := Prod.mk.inj (Option.some.inj hstep)
        exact ⟨y', rfl, h⟩

/-- **The loop** over the positions. -/
theorem Reordered.substituteLoop (h : Reordered π y y') {s s' : SubstitutionData} {n i : ℕ}
    (hs : ∀ k : Fin 8, i ≤ k.val → k.val ≤ i + n → s.Moved π s' k) {out out₁ : Bytes}
    {y₁ : YogiGen} (hloop : Yogigen.substituteLoop s n i y out = .ok (some (y₁, out₁))) :
    ∃ y₁', Yogigen.substituteLoop s' n i y' out = .ok (some (y₁', out₁)) ∧
      Reordered π y₁ y₁' := by
  induction n generalizing i y y' out with
  | zero =>
      obtain ⟨hi, hstep⟩ := substituteLoop_zero_iff.mp hloop
      obtain ⟨y₁', hstep', h₁⟩ := h.substituteStep (hs ⟨i, hi⟩ le_rfl le_rfl) hstep
      exact ⟨y₁', substituteLoop_zero_iff.mpr ⟨hi, hstep'⟩, h₁⟩
  | succ n ih =>
      obtain ⟨hi, y₂, out₂, hstep, hrest⟩ := substituteLoop_succ_iff.mp hloop
      obtain ⟨y₂', hstep', h₂⟩ := h.substituteStep (hs ⟨i, hi⟩ le_rfl (Nat.le_add_right ..)) hstep
      obtain ⟨y₁', hrest', h₁⟩ := ih h₂ (fun k hk hk' => hs k (by omega) (by omega)) hrest
      exact ⟨y₁', substituteLoop_succ_iff.mpr ⟨hi, y₂', out₂, hstep', hrest'⟩, h₁⟩

/-- The positions of a cast and of the one that selects the same entries. -/
theorem Cast.moved_along (σ : Cast) (f : FormatString) (n : ℕ) {i : Fin 8} (hi : i.val < n) :
    ((σ.data f.data n).withFormat f).Moved π (((σ.along π).data f.data n).withFormat f) i := by
  refine ⟨rfl, rfl, rfl, ?_⟩
  simp only [SubstitutionData.withFormat, Cast.data, if_pos hi, UInt16.toUInt16_toInt16]
  rfl

/-- **A phrase of the one state** is a phrase of the other. -/
theorem Phrase.reordered {out : Bytes} {y₁ : YogiGen} (hphrase : Phrase y out y₁)
    (h : Reordered π y y') (hsteady : ∀ f ∈ y.formats.entries, ∀ m < f.count.toNat,
      Steady π y (descriptorAt f.data m)) :
    ∃ y₁', Phrase y' out y₁' ∧ Reordered π y₁ y₁' := by
  obtain ⟨f, hmem, hcount, σ, hσ, hsub⟩ := hphrase
  obtain ⟨out₀, hloop, hcap⟩ := substituteAndPrettify_ok_iff.mp hsub
  rw [further_positions_withFormat hcount] at hloop
  have hpos : 0 < f.count.toNat := by
    refine Nat.pos_of_ne_zero fun h0 => ?_
    rw [h0, σ.data_zero] at hloop
    obtain ⟨hi, hstep⟩ := substituteLoop_zero_iff.mp hloop
    have hnone : lookup y (SubstitutionData.build.withFormat f) ⟨0, hi⟩ = none := lookup_build y 0
    have hsome := (substituteStep_isSome_iff f.str).mp (Option.isSome_of_eq_some hstep)
    rw [hnone] at hsome
    exact absurd hsome (by simp)
  obtain ⟨y₁', hloop', h₁⟩ := h.substituteLoop
    (fun k _ hk => σ.moved_along f f.count.toNat (by omega)) hloop
  rw [← further_positions_withFormat (s := (σ.along π).data f.data f.count.toNat) hcount] at hloop'
  exact ⟨y₁', ⟨f, (h.formats f).mpr hmem, hcount, σ.along π, h.admissible (hsteady f hmem) hσ,
    substituteAndPrettify_ok_iff.mpr ⟨out₀, hloop', hcap⟩⟩, h₁⟩

/-! ### Calls -/

/-- Prefixes leave the flags. -/
theorem Prefixed.map_flags (h : Prefixed y y') (type : ExprType) :
    (y'.table type).entries.map (·.flags) = (y.table type).entries.map (·.flags) := by
  obtain ⟨hlen, hget⟩ := List.forall₂_iff_get.mp (h.table type)
  refine List.ext_getElem (by simpa using hlen.symm) fun i hi hi' => ?_
  rw [List.length_map] at hi hi'
  rw [List.getElem_map, List.getElem_map]
  exact (hget i hi' hi).flags

/-- Prefixes change no flags, so a steady slot stays steady. -/
theorem Prefixed.steady (h : Prefixed y y') {d : Descriptor} (hd : Steady π y d) :
    Steady π y' d := by
  have hsorted := sorted_iff_of_flags (h.map_flags .verb)
  have hborder := border_eq_of_flags (h.map_flags .verb)
  have hlen := (h.table .verb).length_eq
  simp only [YogiGen.table] at hsorted hborder hlen
  refine ⟨fun hflag => ?_, fun hflag => ?_, fun hflag hobj hlt => ?_⟩
  · rw [← (h.table d.type).length_eq]
    exact hd.unique hflag
  · rw [hsorted]
    exact hd.verb hflag
  · rw [hborder, ← hlen] at hlt
    rw [hborder]
    exact hd.border hflag hobj hlt

/-- **The phrases of any number of calls** in the two states. -/
theorem Phrases.reordered {outs : List Bytes} {y₁ : YogiGen} (hphrases : Phrases y outs y₁)
    (h : Reordered π y y') (hsteady : ∀ f ∈ y.formats.entries, ∀ m < f.count.toNat,
      Steady π y (descriptorAt f.data m)) :
    ∃ y₁', Phrases y' outs y₁' ∧ Reordered π y₁ y₁' := by
  induction hphrases generalizing y' with
  | nil y => exact ⟨y', .nil y', h⟩
  | cons hphrase _ ih =>
      obtain ⟨y₂', hphrase', h₂⟩ := hphrase.reordered h hsteady
      obtain ⟨y₁', hphrases', h₁⟩ := ih h₂ fun f hf m hm => by
        rw [hphrase.prefixed.formats] at hf
        exact hphrase.prefixed.steady (hsteady f hf m hm)
      exact ⟨y₁', .cons hphrase' hphrases', h₁⟩

end

/-! ### Two loads -/

/-- A descriptor for which two loads admit the same entries. Two of the post-position flags
admit one verb only, so this verb has to be the same. -/
structure OrderFree (y y' : YogiGen) (d : Descriptor) : Prop where
  unique : d.flag = .unique → (y.table d.type).entries.length ≤ 32768
  verb : d.flag.isPostpos = true → d.type = .verb ∧ Sorted y.verbs.entries
  border : d.flag.isPostpos = true → d.flag ≠ .postposObj →
    y'.verbs.entries[border y.verbs.entries]? = y.verbs.entries[border y.verbs.entries]?

section

variable {db : Database} {y y' : YogiGen}

/-- With fewer than 65536 rows, all of them are entries. -/
theorem entries_ofRows {α β : Type} {read : α → β} {rows : List α} (h : rows.length < 65536) :
    (Table.ofRows (rows.map read)).entries = rows.map read := by
  rw [entries_ofRows_map, readRows, toNat_ofNat_mod, Nat.mod_eq_of_lt h, List.take_length]

/-- The rows behind the entries of a type. -/
theorem Loads.exists_rows (h : Loads db y) {type : ExprType}
    (hsmall : (db.rows type).length < 65536) :
    ∃ rows : List ExpressionRow, rows.Perm (db.rows type) ∧
      rows.Pairwise (·.flags ≤ ·.flags) ∧ (y.table type).entries = rows.map readExpr := by
  obtain ⟨rows, hperm, hsorted, htable⟩ := h.expressions type
  refine ⟨rows, hperm, hsorted, ?_⟩
  rw [htable, entries_ofRows (hperm.length_eq.trans_lt hsmall)]

/-- **Two loads of a database** have the same entries in the order of the same flags. -/
theorem Loads.perm (h : Loads db y) (h' : Loads db y') {type : ExprType}
    (hsmall : (db.rows type).length < 65536) :
    (y.table type).entries.Perm (y'.table type).entries ∧
      (y'.table type).entries.map (·.flags) = (y.table type).entries.map (·.flags) := by
  obtain ⟨rows, hperm, hsorted, hentries⟩ := h.exists_rows hsmall
  obtain ⟨rows', hperm', hsorted', hentries'⟩ := h'.exists_rows hsmall
  have hrows := hperm.trans hperm'.symm
  have hkeys := map_eq_of_pairwise (·.flags) hrows (fun _ _ => Int32.le_antisymm) hsorted hsorted'
  rw [hentries, hentries']
  refine ⟨hrows.map readExpr, ?_⟩
  have hread : ∀ rows : List ExpressionRow, (rows.map readExpr).map (·.flags) =
      (rows.map (·.flags)).map fun n => atoiU8 (Numeral.intText n.toInt) := by
    intro rows
    rw [List.map_map, List.map_map]
    rfl
  rw [hread, hread, hkeys]

/-- The formats of a load are those of the database. -/
theorem Loads.formats_iff (h : Loads db y) (hsmall : db.formats.length < 65536)
    (f : FormatString) : f ∈ y.formats.entries ↔ f ∈ db.formats.map readFrmt := by
  obtain ⟨rows, hperm, hformats⟩ := h.formats
  rw [hformats, entries_ofRows (hperm.length_eq.trans_lt hsmall)]
  exact (hperm.map readFrmt).mem_iff

/-- Two loads are reordered, and a verb at the border that is the same need not move. -/
theorem Loads.exists_reordered (h : Loads db y) (h' : Loads db y')
    (hexpr : ∀ type, (db.rows type).length < 65536) (hfrmt : db.formats.length < 65536) :
    ∃ π, Reordered π y y' ∧ (y'.verbs.entries[border y.verbs.entries]? =
        y.verbs.entries[border y.verbs.entries]? →
      border y.verbs.entries < y.verbs.entries.length →
        π .verb (border y.verbs.entries) = border y.verbs.entries) := by
  have hmoves : ∀ type, ∃ π, Moves π (y.table type).entries (y'.table type).entries ∧
      ((y'.table type).entries[border y.verbs.entries]? =
        (y.table type).entries[border y.verbs.entries]? →
          border y.verbs.entries < (y.table type).entries.length →
            π (border y.verbs.entries) = border y.verbs.entries) := by
    intro type
    have hperm := (h.perm h' (hexpr type)).1
    by_cases hb : (y'.table type).entries[border y.verbs.entries]? =
        (y.table type).entries[border y.verbs.entries]?
    · obtain ⟨π, hπ, hfix⟩ := exists_moves_fixing hperm hb
      exact ⟨π, hπ, fun _ => hfix⟩
    · obtain ⟨π, hπ⟩ := exists_moves hperm
      exact ⟨π, hπ, fun hb' => absurd hb' hb⟩
  choose π hπ hfix using hmoves
  exact ⟨π, ⟨hπ, fun type => (h.perm h' (hexpr type)).2, fun f =>
    (h'.formats_iff hfrmt f).trans (h.formats_iff hfrmt f).symm⟩, hfix .verb⟩

/-- What calls make after the one load, they make after the other. -/
theorem Loads.exists_run (h : Loads db y) (h' : Loads db y')
    (hexpr : ∀ type, (db.rows type).length < 65536) (hfrmt : db.formats.length < 65536)
    (hfree : ∀ f ∈ y.formats.entries, ∀ m < f.count.toNat,
      OrderFree y y' (descriptorAt f.data m)) {outs : List Bytes}
    (hrun : ∃ trace, Run Calls (.loaded y) trace ∧
      trace.map (fun p => p.1.phrase) = outs.map some) :
    ∃ trace, Run Calls (.loaded y') trace ∧ trace.map (fun p => p.1.phrase) = outs.map some := by
  obtain ⟨trace, hrun, houts⟩ := hrun
  obtain ⟨y₁, -, hphrases⟩ := phrases_of_run hrun houts
  obtain ⟨π, hπ, hfix⟩ := h.exists_reordered h' hexpr hfrmt
  obtain ⟨y₁', hphrases', -⟩ := hphrases.reordered hπ fun f hf m hm =>
    have hd := hfree f hf m hm
    ⟨hd.unique, hd.verb, fun hflag hobj => hfix (hd.border hflag hobj)⟩
  obtain ⟨trace', hrun', -, houts'⟩ := run_of_phrases hphrases'
  exact ⟨trace', hrun', houts'⟩

/-- **The order of the rows does not matter**: any two loads of a database make the same
phrases in any number of calls. -/
theorem loads_same_phrases (h : Loads db y) (h' : Loads db y')
    (hexpr : ∀ type, (db.rows type).length < 65536) (hfrmt : db.formats.length < 65536)
    (hfree : ∀ f ∈ y.formats.entries, ∀ m < f.count.toNat,
      OrderFree y y' (descriptorAt f.data m)) {outs : List Bytes} :
    (∃ trace, Run Calls (.loaded y) trace ∧ trace.map (fun p => p.1.phrase) = outs.map some) ↔
      ∃ trace, Run Calls (.loaded y') trace ∧
        trace.map (fun p => p.1.phrase) = outs.map some := by
  refine ⟨h.exists_run h' hexpr hfrmt hfree, h'.exists_run h hexpr hfrmt fun f hf m hm => ?_⟩
  obtain ⟨π, hπ, -⟩ := h.exists_reordered h' hexpr hfrmt
  have hd := hfree f ((hπ.formats f).mp hf) m hm
  refine ⟨fun hflag => ?_, fun hflag => ?_, fun hflag hobj => ?_⟩
  · rw [(hπ.moves _).length_eq]
    exact hd.unique hflag
  · rw [hπ.sorted_iff]
    exact hd.verb hflag
  · rw [hπ.border_eq]
    exact (hd.border hflag hobj).symm

/-- Three verbs, of which two have the same flags. -/
def leaveVerbs (swapped : Bool) : List ExpressionRow :=
  let leave : ExpressionRow := ⟨ascii "leave", ascii "leaves", 0, 3⟩
  let see : ExpressionRow := ⟨ascii "see", ascii "sees", 0, 3⟩
  ⟨ascii "be", ascii "is", 0, 0⟩ :: if swapped then [see, leave] else [leave, see]

/-- Two nouns. -/
def leaveNouns (swapped : Bool) : List ExpressionRow :=
  let rock : ExpressionRow := ⟨ascii "rock", ascii "rocks", 3, 0⟩
  let lake : ExpressionRow := ⟨ascii "lake", ascii "lakes", 3, 0⟩
  if swapped then [lake, rock] else [rock, lake]

/-- A format with a verb that needs no postposition before an object, and a noun of its own. -/
def leaveDb : Database where
  expressions := leaveVerbs false ++ leaveNouns false
  formats := [⟨ascii "To %s the %s.", 0x2680, 2⟩]

/-- The state it is loaded into, in one of two orders. -/
def leaveLoad (swapped : Bool) : YogiGen :=
  { blank with
    verbs := .ofRows ((leaveVerbs swapped).map readExpr)
    objs := .ofRows ((leaveNouns swapped).map readExpr)
    formats := .ofRows (leaveDb.formats.map readFrmt) }

/-- Both orders of the rows are loads of the database. -/
theorem loads_leave (swapped : Bool) : Loads leaveDb (leaveLoad swapped) := by
  refine ⟨fun type => ?_, leaveDb.formats, .refl _, rfl⟩
  cases type with
  | verb =>
      refine ⟨leaveVerbs swapped, ?_, ?_, rfl⟩
      · cases swapped with
        | false => exact .refl _
        | true => exact .cons _ (.swap ..)
      · cases swapped <;> decide
  | object =>
      refine ⟨leaveNouns swapped, ?_, ?_, rfl⟩
      · cases swapped with
        | false => exact .refl _
        | true => exact .swap ..
      · cases swapped <;> decide
  | adjective | concept => exact ⟨[], .refl _, .nil, rfl⟩

/-- A phrase that both loads make, with draws of their own. -/
theorem loads_same_phrases_leave :
    (∃ trace, Run Calls (.loaded (leaveLoad false)) trace ∧
      trace.map (fun p => p.1.phrase) = [ascii "To see the lake."].map some) ↔
      ∃ trace, Run Calls (.loaded (leaveLoad true)) trace ∧
        trace.map (fun p => p.1.phrase) = [ascii "To see the lake."].map some := by
  refine loads_same_phrases (loads_leave false) (loads_leave true) ?_ (by decide) ?_
  · intro type
    cases type with
    | verb | adjective | concept | object => decide
  · intro f hf m hm
    obtain rfl := List.mem_singleton.mp hf
    have hm2 : m < 2 := hm
    obtain rfl | rfl : m = 0 ∨ m = 1 := by omega
    · exact ⟨by decide +kernel, by decide +kernel, by decide +kernel⟩
    · exact ⟨by decide +kernel, by decide +kernel, by decide +kernel⟩

end

end Yogigen
