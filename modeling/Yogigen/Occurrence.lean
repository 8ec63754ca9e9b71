import Mathlib.Data.List.Basic
import Mathlib.Tactic.Common

/-!
# Occurrences in a Text

Where a pattern occurs in a text, and which occurrence is the first from some position on.
A scan that looks for the symbols of the pattern one after another, and passes over symbols
in between, is never ahead of an occurrence (`NotAhead.skip`, `NotAhead.take`): the end of
what it has found is a lower bound for the occurrences that are left.

## Main results

* `occursAt_append_iff`: occurrences as a decomposition of the text.
* `FirstFrom.unique`: there is one first occurrence.
* `OccursAt.getElem?`: the symbols of an occurrence.
-/

namespace Occurrence

variable {α : Type}

/-- The pattern stands in the text at a position. -/
def OccursAt (pat text : List α) (p : ℕ) : Prop :=
  pat <+: text.drop p

/-- The first occurrence from a position on. -/
structure FirstFrom (pat text : List α) (pos p : ℕ) : Prop where
  le : pos ≤ p
  occurs : OccursAt pat text p
  first : ∀ q, pos ≤ q → OccursAt pat text q → p ≤ q

/-- There is one first occurrence only. -/
theorem FirstFrom.unique {pat text : List α} {pos p q : ℕ} (hp : FirstFrom pat text pos p)
    (hq : FirstFrom pat text pos q) : p = q :=
  Nat.le_antisymm (hp.first q hq.le hq.occurs) (hq.first p hp.le hp.occurs)

/-- An occurrence lies within the text. -/
theorem OccursAt.length_le {pat text : List α} {p : ℕ} (h : OccursAt pat text p)
    (hne : pat ≠ []) : p + pat.length ≤ text.length := by
  have hle := List.IsPrefix.length_le h
  have hpos := List.length_pos_iff.mpr hne
  rw [List.length_drop] at hle
  omega

/-- The symbols of an occurrence are those of the pattern. -/
theorem OccursAt.getElem? {pat text : List α} {p : ℕ} (h : OccursAt pat text p) {k : ℕ}
    (hk : k < pat.length) : text[p + k]? = pat[k]? := by
  obtain ⟨rest, hrest⟩ := h
  rw [← List.getElem?_drop, ← hrest, List.getElem?_append_left hk]

/-- A pattern stands where all its symbols do. -/
theorem occursAt_of_getElem? {pat text : List α} {p : ℕ}
    (h : ∀ k < pat.length, text[p + k]? = pat[k]?) : OccursAt pat text p := by
  refine List.prefix_iff_eq_take.mpr (List.ext_getElem? fun k => ?_)
  rw [List.getElem?_take, List.getElem?_drop]
  split_ifs with hk
  · exact (h k hk).symm
  · exact List.getElem?_eq_none (Nat.le_of_not_lt hk)

/-- **An occurrence splits the text.** -/
theorem occursAt_append_iff {pat text : List α} {p : ℕ} (hp : p ≤ text.length) :
    OccursAt pat text p ↔
      ∃ before behind, text = before ++ (pat ++ behind) ∧ before.length = p := by
  constructor
  · rintro ⟨behind, h⟩
    refine ⟨text.take p, behind, ?_, List.length_take_of_le hp⟩
    rw [h, List.take_append_drop]
  · rintro ⟨before, behind, rfl, rfl⟩
    rw [OccursAt, List.drop_left]
    exact List.prefix_append pat behind

/-- Occurrences behind the start of a text. -/
theorem occursAt_drop_iff {pat text : List α} {pos q : ℕ} :
    OccursAt pat (text.drop pos) q ↔ OccursAt pat text (pos + q) := by
  rw [OccursAt, OccursAt, List.drop_drop]

/-- The first occurrence is also the first in what is left of the text. -/
theorem FirstFrom.drop {pat text : List α} {pos p : ℕ} (h : FirstFrom pat text pos p) :
    FirstFrom pat (text.drop pos) 0 (p - pos) where
  le := Nat.zero_le _
  occurs := by
    rw [occursAt_drop_iff, Nat.add_sub_cancel' h.le]
    exact h.occurs
  first q _ hq := by
    have := h.first (pos + q) (Nat.le_add_right _ _) (occursAt_drop_iff.mp hq)
    omega

/-! ### Scanning for one symbol after another -/

/-- A scan from `pos` that has found `j` symbols and stands at `i` is behind no occurrence. -/
def NotAhead (pat text : List α) (pos i j : ℕ) : Prop :=
  ∀ q, pos ≤ q → OccursAt pat text q → i ≤ q + j

/-- At the start no occurrence has been passed. -/
theorem notAhead_start (pat text : List α) (pos : ℕ) : NotAhead pat text pos pos 0 :=
  fun _ hq _ => hq

/-- A symbol that is not the next one of the pattern is passed over. -/
theorem NotAhead.skip {pat text : List α} {pos i j : ℕ} (h : NotAhead pat text pos i j)
    (hj : j < pat.length) (hne : text[i]? ≠ pat[j]?) : NotAhead pat text pos (i + 1) j := by
  intro q hpos hq
  have hle := h q hpos hq
  have hget := hq.getElem? hj
  have hi : q + j ≠ i := by
    rintro rfl
    exact hne hget
  omega

/-- The next symbol of the pattern is found. -/
theorem NotAhead.take {pat text : List α} {pos i j : ℕ} (h : NotAhead pat text pos i j) :
    NotAhead pat text pos (i + 1) (j + 1) := by
  intro q hpos hq
  have := h q hpos hq
  omega

/-- The scan starts over, as many symbols back as it has found. -/
theorem NotAhead.again {pat text : List α} {pos i j : ℕ} (h : NotAhead pat text pos i j) :
    NotAhead pat text pos (i - j) 0 := by
  intro q hpos hq
  have := h q hpos hq
  omega

/-- What is found without passing over a symbol is the first occurrence. -/
theorem NotAhead.first {pat text : List α} {pos i j p : ℕ} (h : NotAhead pat text pos i j)
    (hi : i = p + j) (hpos : pos ≤ p) (hp : OccursAt pat text p) : FirstFrom pat text pos p where
  le := hpos
  occurs := hp
  first q hq hocc := by
    have := h q hq hocc
    omega

/-- A scan that has come to the end of the text, or to its last symbol and needs another
one, has passed no occurrence. -/
theorem NotAhead.none {pat text : List α} {pos i j : ℕ} (h : NotAhead pat text pos i j)
    (hj : j < pat.length) (hi : text.length ≤ i + 1)
    (hlast : i + 1 = text.length → j + 1 = pat.length → text[i]? ≠ pat[j]?) (q : ℕ)
    (hpos : pos ≤ q) : ¬ OccursAt pat text q := by
  intro hq
  have hle := h q hpos hq
  have hlen := hq.length_le (List.ne_nil_of_length_pos (Nat.zero_lt_of_lt hj))
  have hget := hq.getElem? hj
  by_cases hlt : i + 1 = text.length
  · obtain rfl : i = q + j := by omega
    exact hlast hlt (by omega) hget
  · omega

end Occurrence
