import Mathlib.Data.List.Sort
import Mathlib.Logic.Equiv.Basic

/-!
# Lists in Another Order

A list and a rearrangement of it, related by a map of positions. What is done to an entry of
the one can be done to the same entry of the other.

## Main results

* `exists_moves_fixing`: a rearrangement has such a map, one that keeps a given position if
  the entries there agree.
* `Moves.set`: writing an entry on both sides.
* `map_eq_of_pairwise`: two lists in the order of a key have the same keys.
-/

namespace Reorder

variable {α : Type} {l l' : List α} {π : ℕ → ℕ}

/-- `π` takes the positions of `l` to positions of `l'` with the same entries. -/
structure Moves (π : ℕ → ℕ) (l l' : List α) : Prop where
  length_eq : l'.length = l.length
  inj : ∀ i < l.length, ∀ j < l.length, π i = π j → i = j
  getElem? : ∀ i < l.length, l'[π i]? = l[i]?

/-- Places within one list go to places within the other. -/
theorem Moves.lt (h : Moves π l l') {i : ℕ} (hi : i < l.length) : π i < l'.length := by
  have hget := h.getElem? i hi
  rw [List.getElem?_eq_getElem hi] at hget
  exact (List.getElem?_eq_some_iff.mp hget).1

/-- What is found at a position is found where it has moved. -/
theorem Moves.getElem?_eq_some (h : Moves π l l') {i : ℕ} {a : α} (ha : l[i]? = some a) :
    l'[π i]? = some a :=
  (h.getElem? i (List.getElem?_eq_some_iff.mp ha).1).trans ha

/-- **Writing an entry** on both sides. -/
theorem Moves.set (h : Moves π l l') {i : ℕ} (hi : i < l.length) (a : α) :
    Moves π (l.set i a) (l'.set (π i) a) := by
  refine ⟨?_, fun j hj k hk => ?_, fun j hj => ?_⟩
  · rw [List.length_set, List.length_set, h.length_eq]
  · rw [List.length_set] at hj hk
    exact h.inj j hj k hk
  · rw [List.length_set] at hj
    by_cases hij : i = j
    · subst hij
      rw [List.getElem?_set_self (h.lt hi), List.getElem?_set_self hi]
    · have hne : π i ≠ π j := fun heq => hij (h.inj i hi j hj heq)
      rw [List.getElem?_set_ne hne, List.getElem?_set_ne hij]
      exact h.getElem? j hj

/-- A rearrangement moves the positions. -/
theorem exists_moves (h : l.Perm l') : ∃ π, Moves π l l' := by
  classical
  refine ⟨fun i => if hi : i < l.length then h.idxBij ⟨i, hi⟩ else i, h.length_eq.symm,
    fun i hi j hj heq => ?_, fun i hi => ?_⟩
  · rw [dif_pos hi, dif_pos hj] at heq
    exact Fin.val_eq_of_eq (h.idxBij_injective (Fin.val_inj.mp heq))
  · rw [dif_pos hi, List.getElem?_eq_getElem (h.idxBij ⟨i, hi⟩).isLt, List.getElem?_eq_getElem hi]
    exact congrArg some (h.getElem_idxBij_eq_getElem ⟨i, hi⟩)

/-- **A position that is kept**: where the entries agree, some map leaves it alone. -/
theorem exists_moves_fixing (h : l.Perm l') {b : ℕ} (hb : l'[b]? = l[b]?) :
    ∃ π, Moves π l l' ∧ (b < l.length → π b = b) := by
  obtain ⟨π, hπ⟩ := exists_moves h
  by_cases hlt : b < l.length
  · refine ⟨fun i => Equiv.swap (π b) b (π i), ⟨hπ.length_eq, fun i hi j hj heq => ?_, ?_⟩,
      fun _ => Equiv.swap_apply_left _ _⟩
    · exact hπ.inj i hi j hj ((Equiv.swap (π b) b).injective heq)
    · -- the entries at the two positions that are exchanged are the same
      intro i hi
      have hsame : l'[b]? = l'[π b]? := hb.trans (hπ.getElem? b hlt).symm
      rw [← hπ.getElem? i hi]
      rcases eq_or_ne (π i) (π b) with heq | hne
      · rw [heq, Equiv.swap_apply_left]
        exact hsame
      · rcases eq_or_ne (π i) b with heq | hne'
        · rw [heq, Equiv.swap_apply_right]
          exact hsame.symm
        · rw [Equiv.swap_apply_of_ne_of_ne hne hne']
  · exact ⟨π, hπ, fun h => absurd h hlt⟩

/-- **Two lists in the order of a key** have the same keys. -/
theorem map_eq_of_pairwise {κ : Type} {r : κ → κ → Prop} (key : α → κ) (h : l.Perm l')
    (hanti : ∀ a b, r a b → r b a → a = b) (hl : l.Pairwise fun a b => r (key a) (key b))
    (hl' : l'.Pairwise fun a b => r (key a) (key b)) : l.map key = l'.map key :=
  (h.map key).eq_of_pairwise (fun a b _ _ => hanti a b) (List.pairwise_map.mpr hl)
    (List.pairwise_map.mpr hl')

end Reorder
