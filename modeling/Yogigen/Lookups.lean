import Yogigen.Casts
import Yogigen.Scans

/-!
# Looking Up a Selection

`substitute_and_prettify` looks up again, by type and index, what `process_formats` has
chosen. An index that was drawn below the count of a table is found in it. The post-position
flags give an index of the verbs whatever the type is: the scans meet at the border of the
verbs, or the backward scan has begun before it. And the loop of `substitute_and_prettify`, a
`do` loop, looks up the first position also when there is none.

## Main results

* `AdmitsVerb.scans`: where the scans end for the table of any type.
* `Admits.lt`, `AdmitsVerb.exists_outside`: when the admitted indices are within the table.
* `lookups_succeed_iff`: when every lookup of every selection succeeds.
-/

open Printf Supply Supply.Reader

namespace Yogigen

/-! ### Post-position flags on any type -/

/-- A backward scan from below the border stops at once, and one from above it at the border. -/
theorem Sorted.backwardScan_limit {verbs : List Expression} (h : Sorted verbs) {limit : ℕ}
    (hpos : 0 < border verbs) (h0 : 0 < limit) (hle : limit ≤ verbs.length) :
    backwardScan verbs (limit - 1) = some (.ofNat (min (border verbs) limit - 1)) := by
  have hstop : min (border verbs) limit - 1 < verbs.length := by omega
  refine backwardScan_eq (by omega) (by omega) hstop (fun m hm hm' => ?_) ?_
  · rw [← UInt8.not_le, h.flags_le_iff]
    omega
  · rw [UInt8.not_lt, h.flags_le_iff]
    omega

section

variable {y : YogiGen} {type : ExprType} {id : UInt16} {flag : FstrFlag}

/-- **Where the scans end** for a type whose entries a post-position flag admits. The forward
scan stops at the border of the verbs; the backward scan starts from the count of the type. -/
theorem AdmitsVerb.scans (h : AdmitsVerb y type id flag) (hsorted : Sorted y.verbs.entries) :
    0 < (y.table type).entries.length ∧
      (y.table type).entries.length ≤ y.verbs.entries.length ∧
      border y.verbs.entries < y.verbs.entries.length ∧
      forwardScan (y.verbs.entries.drop 1) 1 = some (.ofNat (border y.verbs.entries)) ∧
      ∃ i, backwardScan y.verbs.entries ((y.table type).count.toNat - 1) = some i ∧
        i + 1 = .ofNat (min (border y.verbs.entries) (y.table type).entries.length) := by
  obtain ⟨h0, posX, i, hf, hb, -⟩ := h
  obtain ⟨hpos, hlt⟩ := hsorted.bounds_of_scans ⟨_, hf⟩ ⟨_, hb⟩
  have hne : 0 < (y.table type).entries.length := by
    rw [List.length_pos_iff, ne_eq, ← Table.count_eq_zero_iff]
    exact h0
  have hread := ((backwardScan_isSome_iff _ _).mp ⟨_, hb⟩).1
  rw [Table.toNat_count] at hread hb ⊢
  have hle : (y.table type).entries.length ≤ y.verbs.entries.length := by omega
  have hscan := hsorted.backwardScan_limit hpos hne hle
  obtain rfl := Option.some.inj (hb.symm.trans hscan)
  refine ⟨hne, hle, hlt, (hsorted.scans hpos hlt).1, _, hscan, ?_⟩
  obtain ⟨k, hk⟩ := Nat.exists_eq_succ_of_ne_zero
    (show min (border y.verbs.entries) (y.table type).entries.length ≠ 0 by omega)
  rw [hk, Nat.succ_sub_one, Nat.succ_eq_add_one, UInt16.ofNat_add]
  rfl

/-- Where the scans meet below the count, every draw gives an index below it. -/
theorem postposId_lt_limit {limit pos : UInt16} (h : pos < limit) (flag : FstrFlag)
    (rnd : UInt16) : postposId flag limit pos pos rnd < limit := by
  by_cases hobj : flag = .postposObj
  · have hlt := UInt16.lt_iff_toNat_lt.mp h
    have hmod : rnd.toNat % (limit.toNat - pos.toNat) < limit.toNat - pos.toNat :=
      Nat.mod_lt _ (by omega)
    rw [hobj, UInt16.lt_iff_toNat_lt, toNat_postposId_obj h]
    omega
  · rw [postposId_eq_self hobj]
    exact h

/-- **Types with more entries than there are verbs before the border** get indices of their
tables. -/
theorem AdmitsVerb.lt (h : AdmitsVerb y type id flag) (hsorted : Sorted y.verbs.entries)
    (hinside : border y.verbs.entries < (y.table type).entries.length) :
    id.toNat < (y.table type).entries.length := by
  obtain ⟨-, -, hlt, hf, i, hb, hi⟩ := h.scans hsorted
  obtain ⟨-, posX, i', hf', hb', hid⟩ := h
  obtain rfl := Option.some.inj (hf.symm.trans hf')
  obtain rfl := Option.some.inj (hb.symm.trans hb')
  rw [hi, Nat.min_eq_left hinside.le, ← exists_mod_add_iff (postposSpan_pos ..)] at hid
  obtain ⟨rnd, rfl⟩ := hid
  have hpos : UInt16.ofNat (border y.verbs.entries) < (y.table type).count := by
    rw [UInt16.lt_iff_toNat_lt, toNat_border hlt, Table.toNat_count]
    exact hinside
  rw [← postposId_eq, ← Table.toNat_count, ← UInt16.lt_iff_toNat_lt]
  exact postposId_lt_limit hpos flag rnd

/-- **Other types** can get an index outside: the one at which the interval begins. -/
theorem AdmitsVerb.exists_outside (h : AdmitsVerb y type id flag)
    (hsorted : Sorted y.verbs.entries)
    (hout : (y.table type).entries.length ≤ border y.verbs.entries) :
    ∃ id', AdmitsVerb y type id' flag ∧ id' ≠ errorIdx ∧
      (y.table type).entries.length ≤ id'.toNat := by
  obtain ⟨-, -, hlt, hf, i, hb, hi⟩ := h.scans hsorted
  have hsmall := y.verbs.small
  have hlimit : (UInt16.ofNat (y.table type).entries.length).toNat =
      (y.table type).entries.length := by
    rw [UInt16.toNat_ofNat', Nat.mod_eq_of_lt (by omega)]
  have hstart : ∀ {start : ℕ}, (UInt16.ofNat start).toNat = start →
      (y.table type).entries.length ≤ start → start ≤ border y.verbs.entries →
      UInt16.ofNat start ≠ errorIdx ∧
        (y.table type).entries.length ≤ (UInt16.ofNat start).toNat := by
    intro start hnat hle hborder
    refine ⟨fun herr => ?_, hnat.symm ▸ hle⟩
    have herror : (errorIdx : UInt16).toNat = 65535 := rfl
    rw [herr, herror] at hnat
    omega
  refine ⟨postposStart flag (.ofNat (border y.verbs.entries)) (i + 1), ⟨h.1, _, i, hf, hb, ?_⟩, ?_⟩
  · rw [UInt16.sub_self]
    exact postposSpan_pos ..
  · rw [postposStart, hi, Nat.min_eq_right hout]
    split_ifs
    · exact hstart hlimit le_rfl hout
    · exact hstart (toNat_border hlt) hout le_rfl

/-- **What is admitted is an index of the table**, if post-position flags stand on verbs or on
types with enough entries. -/
theorem Admits.lt {usedIds : Fin 4 → Int16} (h : Admits y type usedIds id flag)
    (hpost : flag.isPostpos = true → Sorted y.verbs.entries ∧
      (type = .verb ∨ border y.verbs.entries < (y.table type).entries.length)) :
    id.toNat < (y.table type).entries.length := by
  have hplain : id < (y.table type).count → id.toNat < (y.table type).entries.length := by
    rw [UInt16.lt_iff_toNat_lt, Table.toNat_count]
    exact fun hlt => hlt
  have hpostpos : flag.isPostpos = true → AdmitsVerb y type id flag →
      id.toNat < (y.table type).entries.length := by
    intro hflag hadmits
    obtain ⟨hsorted, rfl | hinside⟩ := hpost hflag
    · exact hadmits.lt hsorted (hadmits.scans hsorted).2.2.1
    · exact hadmits.lt hsorted hinside
  cases flag with
  | noFlags | indefArt => exact hplain h
  | unique => exact hplain h.1
  | postposCept | postposAll | postposObj => exact hpostpos rfl h
  | flag6 | flag7 => exact h.elim

end

/-! ### The lookups of a cast -/

/-- Everything that `substitute_and_prettify` looks up is found. -/
def AllFound (y : YogiGen) (s : SubstitutionData) : Prop :=
  ∀ i : Fin 8, i.val ≤ (s.count.toInt - 1).toNat → (lookup y s i).isSome

/-- Some choice of expressions for the slots of the format is admissible. -/
def Castable (y : YogiGen) (f : FormatString) : Prop :=
  ∃ σ : Cast, σ.Admissible y f.data f.count.toNat

/-- Where the first position of a slot has a post-position flag and another type than verb,
the type has more entries than there are verbs before the border. -/
def PostposInside (y : YogiGen) (f : FormatString) : Prop :=
  ∀ i < f.count.toNat, First f.data i → (f.descriptor i).flag.isPostpos = true →
    (f.descriptor i).type ≠ .verb →
      border y.verbs.entries < (y.table (f.descriptor i).type).entries.length

section

variable {y : YogiGen} {data : UInt64} {σ : Cast} {n : ℕ}

/-- The positions of an admissible cast are found. -/
theorem Cast.Admissible.found (h : σ.Admissible y data n) (hsorted : Sorted y.verbs.entries)
    (hinside : ∀ m < n, First data m → (descriptorAt data m).flag.isPostpos = true →
      (descriptorAt data m).type ≠ .verb →
        border y.verbs.entries < (y.table (descriptorAt data m).type).entries.length)
    {i : Fin 8} (hi : i.val < n) : (lookup y (σ.data data n) i).isSome := by
  obtain ⟨k, hk, hfirst, hsame⟩ := exists_first data i
  have hkn : k < n := by omega
  have hlt := (h k hkn hfirst).2.lt fun hflag => ⟨hsorted, or_iff_not_imp_left.mpr
    (hinside k hkn hfirst hflag)⟩
  rw [Cast.id, hsame.1, hsame.2] at hlt
  rw [Cast.lookup_data _ _ hi, isSome_getElem?]
  exact hlt

/-- Without positions nothing is found. -/
theorem Cast.lookup_data_zero : lookup y (σ.data data 0) 0 = none := by
  rw [Cast.data_zero]
  exact lookup_build y 0

/-- The first positions of different slots. -/
theorem First.eq {i m : ℕ} (hi : First data i) (hm : First data m)
    (hsame : SameSlot (descriptorAt data i) (descriptorAt data m)) : i = m := by
  rcases Nat.lt_trichotomy i m with hlt | heq | hgt
  · exact absurd hsame (hm i hlt)
  · exact heq
  · exact absurd hsame.symm (hi m hgt)

/-- An expression of a changed cast is as before, or the new one. -/
theorem Cast.set_cases (d : Descriptor) (id : UInt16) (type : ExprType) (k : Fin 4) :
    σ.set d id type k = σ type k ∨ σ.set d id type k = id := by
  rw [set]
  by_cases htype : type = d.type
  · subst htype
    rw [Function.update_self]
    by_cases hk : k = d.typeIdx
    · subst hk
      exact .inr (Function.update_self ..)
    · exact .inl (Function.update_of_ne hk ..)
  · exact .inl (congrFun (Function.update_of_ne htype ..) k)

/-- The assigned slots of a changed cast. -/
theorem Cast.slots_set_cases (d : Descriptor) (id : UInt16) (m : ℕ) (type : ExprType)
    (k : Fin 4) : (σ.set d id).slots data m type k = σ.slots data m type k ∨
      (σ.set d id).slots data m type k = id.toInt16 := by
  rw [slots, slots]
  split_ifs
  · exact (σ.set_cases d id type k).imp (congrArg UInt16.toInt16) (congrArg UInt16.toInt16)
  · exact .inl rfl

/-- The slots of other types stay. -/
theorem Cast.slots_set_of_ne {d : Descriptor} {type : ExprType} (htype : d.type ≠ type)
    (id : UInt16) (m : ℕ) : (σ.set d id).slots data m type = σ.slots data m type := by
  funext k
  rw [slots, slots, set, Function.update_of_ne htype.symm]

/-- A stored index that is not negative is the index. -/
theorem toInt_toInt16_of_nonneg {id : UInt16} (h : 0 ≤ id.toInt16.toInt) :
    id.toInt16.toInt = id.toNat := by
  have hlt := id.toNat_lt
  rw [← Int16.toInt_toBitVec, UInt16.toBitVec_toInt16, BitVec.toInt_eq_toNat_cond,
    UInt16.toNat_toBitVec] at h ⊢
  split_ifs at h ⊢
  · rfl
  · omega

/-- A post-position flag does not look at the ids in use. -/
theorem admits_iff_admitsVerb {type : ExprType} {usedIds : Fin 4 → Int16} {id : UInt16}
    {flag : FstrFlag} (hpost : flag.isPostpos = true) :
    Admits y type usedIds id flag ↔ AdmitsVerb y type id flag := by
  cases flag with
  | postposCept | postposAll | postposObj => exact Iff.rfl
  | noFlags | unique | indefArt | flag6 | flag7 => cases hpost

/-- An id outside the table of its type is like none for the test of the ids in use. -/
theorem clashes_of_outside {usedIds usedIds' : Fin 4 → Int16} {id out : UInt16}
    (hlt : id.toNat < out.toNat) (h : clashes usedIds id = false)
    (hslots : ∀ k, usedIds' k = usedIds k ∨ usedIds' k = out.toInt16) :
    clashes usedIds' id = false := by
  refine decide_eq_false ?_
  rintro ⟨k, hk, heq⟩
  rcases hslots k with hold | hnew
  · rw [hold] at hk heq
    exact of_decide_eq_false h ⟨k, hk, heq⟩
  · rw [hnew] at hk heq
    have hint : (out.toInt16).toInt = out.toNat := by
      rw [Int16.le_iff_toInt_le] at hk
      exact toInt_toInt16_of_nonneg hk
    omega

/-- An admissible cast can have an index outside instead at a first position whose flag admits
that too. -/
theorem Cast.Admissible.set_outside (h : σ.Admissible y data n) {i : ℕ} (hfirst : First data i)
    {out : UInt16} (hne : out ≠ errorIdx)
    (hadmits : AdmitsVerb y (descriptorAt data i).type out (descriptorAt data i).flag)
    (hpost : (descriptorAt data i).flag.isPostpos = true)
    (hout : (y.table (descriptorAt data i).type).entries.length ≤ out.toNat) :
    (σ.set (descriptorAt data i) out).Admissible y data n := by
  intro m hm hfirst'
  by_cases hsame : SameSlot (descriptorAt data i) (descriptorAt data m)
  · obtain rfl := hfirst.eq hfirst' hsame
    rw [Cast.id_set_of_same hsame]
    exact ⟨hne, (admits_iff_admitsVerb hpost).mpr hadmits⟩
  · rw [Cast.id_set_of_not_same hsame]
    obtain ⟨hid, hold⟩ := h m hm hfirst'
    refine ⟨hid, ?_⟩
    cases hflag : (descriptorAt data m).flag with
    | noFlags | indefArt | postposCept | postposAll | postposObj =>
        rw [hflag] at hold
        exact hold
    | flag6 | flag7 =>
        rw [hflag] at hold
        exact hold.elim
    | unique =>
        rw [hflag] at hold
        obtain ⟨hlt, hfree⟩ := hold
        refine ⟨hlt, ?_⟩
        by_cases htype : (descriptorAt data i).type = (descriptorAt data m).type
        · rw [UInt16.lt_iff_toNat_lt, Table.toNat_count, ← htype] at hlt
          exact clashes_of_outside (by omega) hfree fun k => Cast.slots_set_cases _ out m _ k
        · rw [Cast.slots_set_of_ne htype]
          exact hfree

end

/-- The text is put together if everything is found, and otherwise the check on the result
of `get_expression` fails. -/
theorem substituteAndPrettify_found {y : YogiGen} {s : SubstitutionData}
    (hn : (s.count.toInt - 1).toNat < 8) :
    (AllFound y s → ∃ r, substituteAndPrettify y s = .ok (some r)) ∧
      (¬ AllFound y s → substituteAndPrettify y s = .ok none) := by
  have hloop := @substituteLoop_ok_iff s (s.count.toInt - 1).toNat 0 y s.str (by omega)
  simp only [Nat.zero_le, true_implies, Nat.zero_add] at hloop
  constructor
  · intro hall
    obtain ⟨⟨y', out₀⟩, hok⟩ := hloop.mpr hall
    obtain ⟨out, hcap⟩ := capitalise_isSome out₀
    exact ⟨(out, y'), substituteAndPrettify_ok_iff.mpr ⟨out₀, hok, hcap⟩⟩
  · intro hnot
    obtain ⟨r, hr⟩ := @substituteAndPrettify_not_error y s hn
    cases r with
    | none => exact hr
    | some r =>
        obtain ⟨out₀, hok, -⟩ := substituteAndPrettify_ok_iff.mp hr
        exact absurd (hloop.mp ⟨_, hok⟩) hnot

/-- What can be selected is found, where all that is selected is. -/
theorem Cast.Admissible.found_of_forall {y : YogiGen} {f : FormatString} {σ : Cast}
    (hσ : σ.Admissible y f.data f.count.toNat) (hcount : f.count.toNat ≤ 8)
    (hall : ∀ draws s, (processFormats y f).Yields draws (some s) → AllFound y s) {i : Fin 8}
    (hi : i.val ≤ f.count.toNat - 1) :
    (lookup y (σ.data f.data f.count.toNat) i).isSome := by
  obtain ⟨draws, hdeals⟩ := exists_deals_iff.mpr hσ
  refine hall draws _ (yields_processFormats_iff.mpr ⟨_, hdeals.selects hcount, rfl⟩) i ?_
  rwa [further_positions_withFormat hcount]

/-- **When the lookups succeed.** With sorted verbs and a format with at most eight positions:
whatever the draws are, all of what `process_formats` selects is found again, if and only if
the format has a position and its post-position flags stand on verbs or on types with enough
entries, unless nothing can be selected at all. Where something is not found there is no
text. -/
theorem lookups_succeed_iff {y : YogiGen} {f : FormatString} (hsorted : Sorted y.verbs.entries)
    (hcount : f.count.toNat ≤ 8) :
    ((∀ draws s, (processFormats y f).Yields draws (some s) → AllFound y s) ↔
        (Castable y f → 0 < f.count.toNat ∧ PostposInside y f)) ∧
      ∀ draws s, (processFormats y f).Yields draws (some s) →
        (AllFound y s → ∃ r, substituteAndPrettify y s = .ok (some r)) ∧
        (¬ AllFound y s → substituteAndPrettify y s = .ok none) := by
  refine ⟨⟨fun hall hcast => ?_, fun hcond draws s h => ?_⟩, fun draws s h => ?_⟩
  · obtain ⟨σ, hσ⟩ := hcast
    have hpos : 0 < f.count.toNat := by
      by_contra h0
      have hzero : f.count.toNat = 0 := by omega
      have hsome := hσ.found_of_forall hcount hall (i := 0) (Nat.zero_le _)
      rw [hzero, Cast.lookup_data_zero] at hsome
      cases hsome
    refine ⟨hpos, fun i hi hfirst hpost hne => not_le.mp fun hout => ?_⟩
    -- the slot can be given the start of its interval
    have hadmits := (admits_iff_admitsVerb hpost).mp (hσ i hi hfirst).2
    obtain ⟨out, hadmits', hne', hlen⟩ := hadmits.exists_outside hsorted hout
    have hτ := hσ.set_outside hfirst hne' hadmits' hpost hlen
    have hsome := hτ.found_of_forall hcount hall (i := ⟨i, by omega⟩) (Nat.le_sub_one_of_lt hi)
    rw [Cast.lookup_data _ _ hi, Cast.id_set_of_same ⟨rfl, rfl⟩, isSome_getElem?] at hsome
    exact absurd hsome (not_lt.mpr hlen)
  · obtain ⟨s, hsel, rfl⟩ := yields_processFormats_iff.mp h
    obtain ⟨σ, hσ, rfl⟩ := (selects_iff_deals hcount).mp hsel
    obtain ⟨hpos, hinside⟩ := hcond ⟨σ, hσ.admissible⟩
    intro i hi
    rw [further_positions_withFormat hcount] at hi
    exact hσ.admissible.found hsorted hinside (show i.val < f.count.toNat by omega)
  · obtain ⟨s, hsel, rfl⟩ := yields_processFormats_iff.mp h
    have hfurther := further_positions_withFormat (s := s) hcount
    exact substituteAndPrettify_found (by omega)

/-- A state with two verbs, and one expression of each other type. -/
def oneEach : YogiGen where
  verbs := .ofRows [⟨0, 0, ascii "walk", ascii "walks"⟩, ⟨0, 3, ascii "talk", ascii "talks"⟩]
  adjs := .ofRows [⟨1, 0, ascii "calm", ascii "calmly"⟩]
  cepts := .ofRows [⟨2, 0, ascii "peace", ascii "peace"⟩]
  objs := .ofRows [⟨3, 0, ascii "river", ascii "rivers"⟩]
  formats := .ofRows []
  conn := ⟨none, [], 0, maxConnNumber, 0⟩

/-- A verb before an object, the verb again at once, and an adjective. -/
def talkFormat : FormatString where
  str := ascii "%s a %s, %s%s."
  data := pack [.first false .verb .postposObj, .first false .object .noFlags,
    .first true .verb .noFlags, .first true .adjective .noFlags]
  count := 4

/-- Four positions, whose lookups all succeed. -/
theorem lookups_succeed_talk :
    Sorted oneEach.verbs.entries ∧ talkFormat.count.toNat ≤ 8 ∧
      ∃ s, (processFormats oneEach talkFormat).Yields [some 0, some 0, some 0, some 0] (some s) ∧
        AllFound oneEach s := by
  have hsorted : Sorted oneEach.verbs.entries := by decide +kernel
  have hcount : talkFormat.count.toNat ≤ 8 := by decide
  have hflags : ∀ i < talkFormat.count.toNat, (talkFormat.descriptor i).flag.isPostpos = true →
      (talkFormat.descriptor i).type = .verb := by
    decide +kernel
  obtain ⟨s, hs⟩ : ∃ s, (processFormats oneEach talkFormat).Yields
      [some 0, some 0, some 0, some 0] (some s) := ⟨_, yields_iff_run.mpr rfl⟩
  refine ⟨hsorted, hcount, s, hs, ?_⟩
  exact (lookups_succeed_iff hsorted hcount).1.mpr (fun _ => ⟨by decide,
    fun i hi _ hpost hne => absurd (hflags i hi hpost) hne⟩) _ s hs

/-- Nothing is found for a format without positions, nor for an adjective that was given an
index of the verbs. -/
theorem lookups_fail :
    Sorted oneEach.verbs.entries ∧ (∀ type, (oneEach.table type).entries ≠ []) ∧
      (∃ s, (processFormats oneEach ⟨ascii "Om.", 0, 0⟩).Yields [] (some s) ∧
        ¬ AllFound oneEach s ∧ substituteAndPrettify oneEach s = .ok none) ∧
      ∃ s, (processFormats oneEach
          ⟨ascii "%s.", pack [⟨false, .adjective, 0, .postposObj⟩], 1⟩).Yields
          [some 0, some 0] (some s) ∧
        ¬ AllFound oneEach s ∧ substituteAndPrettify oneEach s = .ok none := by
  refine ⟨by decide +kernel, ?_, ?_, ?_⟩
  · intro type
    cases type with
    | verb | adjective | concept | object => decide +kernel
  · refine ⟨_, yields_iff_run.mpr rfl, fun hall => ?_, by decide +kernel⟩
    exact absurd (hall 0 (Nat.zero_le _)) (by decide +kernel)
  · refine ⟨_, yields_iff_run.mpr rfl, fun hall => ?_, by decide +kernel⟩
    exact absurd (hall 0 (Nat.zero_le _)) (by decide +kernel)

end Yogigen
