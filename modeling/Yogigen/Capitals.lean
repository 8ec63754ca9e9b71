import Yogigen.Substitution
import Mathlib.Data.Set.Lattice

/-!
# Capital Letters

The capitalisation of `substitute_and_prettify` looks at the first byte and, from the last
dot but one backwards, at the second byte after each dot. What it does to a text is to
apply `toupper` at a set of positions, and this set can be read off the text.

## Main results

* `capitaliseDots_eq`: the loop over the dots capitalises after each of them.
* `capitalise_eq`: the positions that are capitalised.
* `capitalise_spec`: what changes and what does not, for every text.
-/

/-! ### Applying a function at some positions -/

namespace Positions

variable {α : Type} {f : α → α}

open Classical in
/-- A list with a function applied at some of its positions. -/
noncomputable def mapOn (f : α → α) (ps : Set ℕ) (l : List α) : List α :=
  l.mapIdx fun i a => if i ∈ ps then f a else a

/-- No element is added or lost. -/
@[simp] theorem length_mapOn (ps : Set ℕ) (l : List α) : (mapOn f ps l).length = l.length :=
  List.length_mapIdx

/-- An element in one of the places is mapped. -/
theorem getElem?_mapOn_of_mem {ps : Set ℕ} {i : ℕ} (h : i ∈ ps) (l : List α) :
    (mapOn f ps l)[i]? = l[i]?.map f := by
  simp [mapOn, h]

/-- The others stay as they are. -/
theorem getElem?_mapOn_of_notMem {ps : Set ℕ} {i : ℕ} (h : i ∉ ps) (l : List α) :
    (mapOn f ps l)[i]? = l[i]? := by
  simp [mapOn, h]

/-- Two lists that are mapped to the same entries. -/
theorem mapOn_eq_of_getElem? {ps : Set ℕ} {l l' : List α}
    (hmem : ∀ i ∈ ps, l'[i]? = l[i]?.map f) (hnotMem : ∀ i ∉ ps, l'[i]? = l[i]?) :
    mapOn f ps l = l' := by
  refine List.ext_getElem? fun i => ?_
  by_cases hi : i ∈ ps
  · rw [getElem?_mapOn_of_mem hi, hmem i hi]
  · rw [getElem?_mapOn_of_notMem hi, hnotMem i hi]

/-- Without places nothing changes. -/
theorem mapOn_empty (l : List α) : mapOn f ∅ l = l :=
  mapOn_eq_of_getElem? (fun _ hi => absurd hi (Set.notMem_empty _)) fun _ _ => rfl

/-- **Composition**, for a function that is applied to the same effect twice. -/
theorem mapOn_mapOn (hf : ∀ a, f (f a) = f a) (ps qs : Set ℕ) (l : List α) :
    mapOn f qs (mapOn f ps l) = mapOn f (ps ∪ qs) l := by
  refine mapOn_eq_of_getElem? (fun i hi => ?_) fun i hi => ?_
  · by_cases hp : i ∈ ps
    · rw [getElem?_mapOn_of_mem (.inl hp), getElem?_mapOn_of_mem hp, Option.map_map]
      exact congrArg (fun g => l[i]?.map g) (funext fun a => (hf a).symm)
    · rw [getElem?_mapOn_of_mem (.inr hi), getElem?_mapOn_of_notMem hp]
  · by_cases hp : i ∈ ps
    · rw [getElem?_mapOn_of_mem (.inl hp), getElem?_mapOn_of_mem hp]
    · have hor : i ∉ ps ∪ qs := fun h => h.elim hp hi
      rw [getElem?_mapOn_of_notMem hor, getElem?_mapOn_of_notMem hp]

/-- Where the function is applied does not matter if it is then applied everywhere. -/
theorem map_mapOn (hf : ∀ a, f (f a) = f a) (ps : Set ℕ) (l : List α) :
    (mapOn f ps l).map f = l.map f := by
  refine List.ext_getElem? fun i => ?_
  rw [List.getElem?_map, List.getElem?_map]
  by_cases hi : i ∈ ps
  · rw [getElem?_mapOn_of_mem hi, Option.map_map]
    exact congrArg (fun g => l[i]?.map g) (funext hf)
  · rw [getElem?_mapOn_of_notMem hi]

/-- A value that the function neither makes nor changes stays where it is. -/
theorem getElem?_mapOn_eq_some_iff {ps : Set ℕ} {a : α} (hf : ∀ b, f b = a ↔ b = a)
    (l : List α) (i : ℕ) : (mapOn f ps l)[i]? = some a ↔ l[i]? = some a := by
  by_cases hi : i ∈ ps
  · rw [getElem?_mapOn_of_mem hi, Option.map_eq_some_iff]
    simp only [hf, exists_eq_right]
  · rw [getElem?_mapOn_of_notMem hi]

end Positions

open Positions

namespace Yogigen

/-! ### Letters -/

/-- The capital of a lower-case letter. -/
theorem toupper_of_islower {c : UInt8} (h : islower c = true) : toupper c = c - 32 :=
  if_pos h

/-- Other bytes stay as they are. -/
theorem toupper_of_not_islower {c : UInt8} (h : ¬ islower c = true) : toupper c = c :=
  if_neg h

/-- There is no lower-case letter among the results. -/
theorem islower_toupper (c : UInt8) : islower (toupper c) = false := by
  rw [toupper]
  split_ifs with h
  · simp only [islower, decide_eq_true_eq, decide_eq_false_iff_not, UInt8.le_iff_toNat_le,
      UInt8.toNat_sub] at h ⊢
    have := c.toNat_lt
    simp only [UInt8.reduceToNat] at h ⊢
    omega
  · exact Bool.eq_false_iff.mpr h

/-- A second time changes nothing. -/
theorem toupper_toupper (c : UInt8) : toupper (toupper c) = toupper c :=
  toupper_of_not_islower (Bool.eq_false_iff.mp (islower_toupper c))

/-- Capitalisation neither makes nor removes a byte below the letters, such as a dot. -/
theorem toupper_eq_iff {d : UInt8} (hd : d < 65) (c : UInt8) : toupper c = d ↔ c = d := by
  rw [toupper]
  split_ifs with h
  · simp only [islower, decide_eq_true_eq, UInt8.le_iff_toNat_le, UInt8.lt_iff_toNat_lt,
      ← UInt8.toNat_inj, UInt8.toNat_sub] at h hd ⊢
    simp only [UInt8.reduceToNat] at h hd ⊢
    omega
  · rfl

/-- Dots stay where they are. -/
theorem getElem?_toupper_dot (ps : Set ℕ) (b : Bytes) (i : ℕ) :
    (mapOn toupper ps b)[i]? = some 46 ↔ b[i]? = some 46 :=
  getElem?_mapOn_eq_some_iff (toupper_eq_iff (by decide)) b i

/-! ### The code -/

/-- Within the text and its terminator, one place is mapped. -/
theorem capitaliseAt_eq {out : Bytes} {i : ℕ} (h : i ≤ out.length) :
    capitaliseAt out i = some (mapOn toupper {i} out) := by
  rw [capitaliseAt]
  cases hc : out[i]? with
  | none =>
      have hlen := List.getElem?_eq_none_iff.mp hc
      have hself : mapOn toupper {i} out = out := by
        refine mapOn_eq_of_getElem? (fun k hk => ?_) fun _ _ => rfl
        obtain rfl := Set.mem_singleton_iff.mp hk
        simp [hc]
      dsimp only
      rw [if_pos (by omega), hself]
  | some c =>
      refine congrArg some (mapOn_eq_of_getElem? (fun k hk => ?_) fun k hk => ?_).symm
      · obtain rfl := Set.mem_singleton_iff.mp hk
        rw [hc, Option.map_some]
        split_ifs with hlow
        · exact List.getElem?_set_self (List.getElem?_eq_some_iff.mp hc).1
        · rw [hc, toupper_of_not_islower hlow]
      · split_ifs
        · exact List.getElem?_set_ne fun hik => hk hik.symm
        · rfl

/-- The positions two after a dot that is not behind `pos`. -/
def afterDots (b : Bytes) (pos : ℤ) : Set ℕ :=
  {i | ∃ d : ℕ, d ≤ pos ∧ b[d]? = some 46 ∧ d + 2 = i}

/-- Before the first byte there is no dot. -/
theorem afterDots_of_neg {b : Bytes} {pos : ℤ} (h : pos < 0) : afterDots b pos = ∅ := by
  refine Set.eq_empty_iff_forall_notMem.mpr ?_
  rintro i ⟨d, hd, -, -⟩
  omega

/-- The dots up to a position are the last of them and the dots before it. -/
theorem afterDots_bstrrchrp {b : Bytes} {pos : ℤ} (h : pos < b.length) :
    afterDots b (bstrrchrp b 46 pos) = afterDots b pos := by
  ext i
  constructor
  · rintro ⟨d, hd, hdot, rfl⟩
    have := bstrrchrp_le b 46 pos
    exact ⟨d, by omega, hdot, rfl⟩
  · rintro ⟨d, hd, hdot, rfl⟩
    rcases bstrrchrp_cases b 46 h with ⟨-, hnone⟩ | ⟨k, hk, -, -, hnone⟩
    · exact absurd hdot (hnone d hd)
    · by_cases hlt : k < d
      · exact absurd hdot (hnone d hd hlt)
      · exact ⟨d, by omega, hdot, rfl⟩

/-- **The loop over the dots** capitalises after every dot from the given one backwards. -/
theorem capitaliseDots_eq (out : Bytes) (dotPos : ℤ)
    (h : 0 ≤ dotPos → dotPos + 2 ≤ out.length ∧ out[dotPos.toNat]? = some 46) :
    capitaliseDots out dotPos = some (mapOn toupper (afterDots out dotPos) out) := by
  rw [capitaliseDots]
  split_ifs with hneg
  · rw [afterDots_of_neg hneg, mapOn_empty]
  · obtain ⟨hlen, hdot⟩ := h (by omega)
    rw [capitaliseAt_eq (by omega)]
    dsimp only
    generalize hout₁ : mapOn toupper {dotPos.toNat + 2} out = out₁
    have hlen₁ : out₁.length = out.length := by rw [← hout₁, length_mapOn]
    have hdots : ∀ d : ℕ, out₁[d]? = some 46 ↔ out[d]? = some 46 := by
      intro d
      rw [← hout₁]
      exact getElem?_toupper_dot _ out d
    have hpos : dotPos - 1 < out₁.length := by omega
    have hnext : 0 ≤ bstrrchrp out₁ 46 (dotPos - 1) →
        bstrrchrp out₁ 46 (dotPos - 1) + 2 ≤ out₁.length ∧
          out₁[(bstrrchrp out₁ 46 (dotPos - 1)).toNat]? = some 46 := by
      intro hnonneg
      rcases bstrrchrp_cases out₁ 46 hpos with ⟨hnone, -⟩ | ⟨k, hk, hle, hkdot, -⟩
      · omega
      · rw [hk, Int.toNat_natCast]
        exact ⟨by omega, hkdot⟩
    rw [capitaliseDots_eq out₁ _ hnext, afterDots_bstrrchrp hpos, ← hout₁,
      mapOn_mapOn toupper_toupper]
    -- the dots up to `dotPos` are `dotPos` and the ones before it
    have hset : {dotPos.toNat + 2} ∪ afterDots out₁ (dotPos - 1) = afterDots out dotPos := by
      ext i
      constructor
      · rintro (hi | ⟨d, hd, hddot, rfl⟩)
        · obtain rfl := Set.mem_singleton_iff.mp hi
          exact ⟨dotPos.toNat, by omega, hdot, rfl⟩
        · exact ⟨d, by omega, (hdots d).mp hddot, rfl⟩
      · rintro ⟨d, hd, hddot, rfl⟩
        by_cases heq : (d : ℤ) = dotPos
        · left
          rw [Set.mem_singleton_iff]
          omega
        · exact .inr ⟨d, by omega, (hdots d).mpr hddot, rfl⟩
    rw [hout₁, hset]
termination_by (dotPos + 1).toNat
decreasing_by exact bstrrchrp_before hneg

/-! ### Texts -/

/-- The start of a text and the positions two after a dot that another dot follows. -/
def heads (b : Bytes) : Set ℕ :=
  {i | i = 0 ∨ ∃ d e, d < e ∧ b[d]? = some 46 ∧ b[e]? = some 46 ∧ d + 2 = i}

/-- The places to capitalise stay the same. -/
theorem heads_mapOn (ps : Set ℕ) (b : Bytes) : heads (mapOn toupper ps b) = heads b := by
  simp only [heads, getElem?_toupper_dot]

/-- The first byte, and those that the search for dots comes to. -/
theorem heads_eq (b : Bytes) : heads b = {0} ∪ afterDots b (bstrrchr b 46 - 1) := by
  ext i
  have hlast := bstrrchrp_cases b 46 (show (b.length : ℤ) - 1 < b.length by omega)
  rw [bstrrchr]
  constructor
  · rintro (rfl | ⟨d, e, hlt, hd, he, rfl⟩)
    · exact .inl rfl
    · have hlen := (List.getElem?_eq_some_iff.mp he).1
      rcases hlast with ⟨-, hnone⟩ | ⟨k, hk, -, -, hnone⟩
      · exact absurd he (hnone e (by omega))
      · have hek : ¬ k < e := fun hke => hnone e (by omega) hke he
        exact .inr ⟨d, by omega, hd, rfl⟩
  · rintro (rfl | ⟨d, hle, hd, rfl⟩)
    · exact .inl rfl
    · rcases hlast with ⟨hneg, -⟩ | ⟨k, hk, -, hkdot, -⟩
      · omega
      · exact .inr ⟨d, k, by omega, hd, hkdot, rfl⟩

/-- **What is capitalised.** -/
theorem capitalise_eq (b : Bytes) : capitalise b = some (mapOn toupper (heads b) b) := by
  rw [capitalise, capitaliseAt_eq (Nat.zero_le _)]
  dsimp only
  generalize hout : mapOn toupper {0} b = out
  have hlen : out.length = b.length := by rw [← hout, length_mapOn]
  have hhead : heads out = heads b := by rw [← hout, heads_mapOn]
  have hlast := bstrrchrp_le out 46 (out.length - 1)
  have hpos : bstrrchr out 46 - 1 < out.length := by
    rw [bstrrchr]
    omega
  have hstart : 0 ≤ bstrrchrp out 46 (bstrrchr out 46 - 1) →
      bstrrchrp out 46 (bstrrchr out 46 - 1) + 2 ≤ out.length ∧
        out[(bstrrchrp out 46 (bstrrchr out 46 - 1)).toNat]? = some 46 := by
    intro hnonneg
    rcases bstrrchrp_cases out 46 hpos with ⟨hneg, -⟩ | ⟨k, hk, hle, hkdot, -⟩
    · omega
    · rw [hk, Int.toNat_natCast]
      rw [bstrrchr] at hle
      exact ⟨by omega, hkdot⟩
  rw [capitaliseDots_eq out _ hstart, afterDots_bstrrchrp hpos, ← hhead, heads_eq out, ← hout,
    mapOn_mapOn toupper_toupper]

/-- Capitalisation changes nothing but the case of letters. -/
theorem map_toupper_of_capitalise {b b' : Bytes} (h : capitalise b = some b') :
    b'.map toupper = b.map toupper := by
  rw [capitalise_eq, Option.some.injEq] at h
  rw [← h, map_mapOn toupper_toupper]

/-- **Capitalisation** ends within the text and keeps its length. It changes lowercase
letters at the start and two after a dot that is not the last one, and nothing else. In a
text that ends in a dot no sentence begins with a lowercase letter afterwards, and
capitalising again changes nothing. -/
theorem capitalise_spec (b : Bytes) :
    ∃ b', capitalise b = some b' ∧ b'.length = b.length ∧
      (∀ i c, b[i]? = some c → islower c = true →
        (i = 0 ∨ ∃ d e, d < e ∧ b[d]? = some 46 ∧ b[e]? = some 46 ∧ d + 2 = i) →
          b'[i]? = some (c - 32)) ∧
      (∀ i c, b[i]? = some c → ¬ (islower c = true ∧
        (i = 0 ∨ ∃ d e, d < e ∧ b[d]? = some 46 ∧ b[e]? = some 46 ∧ d + 2 = i)) →
          b'[i]? = some c) ∧
      (b.getLast? = some 46 → ∀ i c, b'[i]? = some c → islower c = true →
        i ≠ 0 ∧ ¬ ∃ d, d + 2 = i ∧ b'[d]? = some 46 ∧ b'[d + 1]? = some 32) ∧
      capitalise b' = some b' := by
  refine ⟨mapOn toupper (heads b) b, capitalise_eq b, length_mapOn _ b, ?_, ?_, ?_, ?_⟩
  · intro i c hc hlow hi
    rw [getElem?_mapOn_of_mem hi, hc, Option.map_some, toupper_of_islower hlow]
  · intro i c hc hno
    by_cases hi : i ∈ heads b
    · have hlow : ¬ islower c = true := fun hlow => hno ⟨hlow, hi⟩
      rw [getElem?_mapOn_of_mem hi, hc, Option.map_some, toupper_of_not_islower hlow]
    · rw [getElem?_mapOn_of_notMem hi, hc]
  · intro hend i c hc hlow
    have hnot : i ∉ heads b := by
      intro hi
      rw [getElem?_mapOn_of_mem hi, Option.map_eq_some_iff] at hc
      obtain ⟨c₀, -, rfl⟩ := hc
      rw [islower_toupper] at hlow
      exact absurd hlow (by simp)
    refine ⟨fun h0 => hnot (.inl h0), ?_⟩
    rintro ⟨d, rfl, hdot, -⟩
    -- the text's last dot is behind every position that has a byte two after it
    have hlen := (List.getElem?_eq_some_iff.mp hc).1
    rw [length_mapOn] at hlen
    rw [List.getLast?_eq_getElem?] at hend
    exact hnot (.inr ⟨d, b.length - 1, by omega, (getElem?_toupper_dot _ b d).mp hdot, hend, rfl⟩)
  · rw [capitalise_eq, heads_mapOn, mapOn_mapOn toupper_toupper, Set.union_self]

end Yogigen
