import Mathlib.Data.List.Basic
import Mathlib.Data.Int.Notation
import Mathlib.Tactic.Common

/-!
# Blocks of Memory

The memory behind a pointer, as the cells of one allocated block. A cell holds a value or
has not been written yet. Offsets and sizes are integers, as pointer arithmetic makes them:
an access that does not stay within the block is a violation, and so is reading the value of a
cell that holds none. Copying cells is no reading of their values.

The rules describe a block as cells before, at and behind the place of an access, in
right-nested appends; the place itself is given by an equation on its offset.

## Main results

* `cells_append`, `store_append`, `load_append`: the rules of the accesses.
* `move_right`, `move_left`: `memmove`, whether source and target overlap or not.
* `resize_append`: `realloc` to a larger size.
* `loop_ends`: a loop with an invariant and a bound on the turns that are left.
-/

namespace Memory

/-- An access that the language does not define, or a loop that has not ended in the turns
that it was given. -/
inductive Violation
  | outOfBounds
  | uninitialised
  | unfinished
  deriving DecidableEq

/-- The cells of a block; `none` for one that has not been written. -/
abbrev Block (α : Type) := List (Option α)

variable {α β : Type}

/-- A block that has just been allocated. -/
def alloc (n : ℤ) : Block α :=
  List.replicate n.toNat none

/-- `realloc`: cells are kept up to the new size, further ones are not written. -/
def resize (m : Block α) (n : ℤ) : Block α :=
  m.take n.toNat ++ List.replicate (n.toNat - m.length) none

/-- The `n` cells from offset `i` on, without looking at their values. -/
def cells (m : Block α) (i n : ℤ) : Except Violation (Block α) :=
  if 0 ≤ i ∧ 0 ≤ n ∧ i + n ≤ m.length then .ok ((m.drop i.toNat).take n.toNat)
  else .error .outOfBounds

/-- The value of the cell at offset `i`. -/
def load (m : Block α) (i : ℤ) : Except Violation α :=
  if i < 0 then .error .outOfBounds
  else
    match m[i.toNat]? with
    | none => .error .outOfBounds
    | some none => .error .uninitialised
    | some (some a) => .ok a

/-- Overwrite the cells from offset `i` on: `memcpy` from another block, `memset`. -/
def store (m : Block α) (i : ℤ) (new : Block α) : Except Violation (Block α) :=
  if 0 ≤ i ∧ i + new.length ≤ m.length then
    .ok (m.take i.toNat ++ (new ++ m.drop (i.toNat + new.length)))
  else .error .outOfBounds

/-- `memmove` of `n` cells within a block. -/
def move (m : Block α) (dst src n : ℤ) : Except Violation (Block α) := do
  let moved ← cells m src n
  store m dst moved

@[simp] theorem ok_bind (a : α) (f : α → Except Violation β) : (Except.ok a >>= f) = f a := rfl

@[simp] theorem error_bind (e : Violation) (f : α → Except Violation β) :
    (Except.error e >>= f) = .error e := rfl

/-- Two steps that succeed. -/
theorem ok_of_bind {x : Except Violation α} {f : α → Except Violation β} {b : β}
    (h : (x >>= f) = .ok b) : ∃ a, x = .ok a ∧ f a = .ok b := by
  cases x with
  | error e => exact absurd h (by simp)
  | ok a => exact ⟨a, rfl, h⟩

/-! ### The rules of the accesses -/

/-- Cells that have been written are read. -/
theorem cells_append (before mid behind : Block α) {i n : ℤ} (hi : i = before.length)
    (hn : n = mid.length) : cells (before ++ (mid ++ behind)) i n = .ok mid := by
  subst hi hn
  rw [cells, if_pos (by simp only [List.length_append]; omega), Int.toNat_natCast,
    Int.toNat_natCast, List.drop_left, List.take_left]

/-- New cells go in the place of old ones. -/
theorem store_append (before old behind new : Block α) {i : ℤ} (hi : i = before.length)
    (hnew : new.length = old.length) :
    store (before ++ (old ++ behind)) i new = .ok (before ++ (new ++ behind)) := by
  subst hi
  rw [store, if_pos (by simp only [List.length_append]; omega), Int.toNat_natCast,
    List.take_left, hnew, ← List.length_append, ← List.append_assoc before old behind,
    List.drop_left]

/-- A cell that has been written is read. -/
theorem load_append (before behind : Block α) (a : α) {i : ℤ} (hi : i = before.length) :
    load (before ++ some a :: behind) i = .ok a := by
  subst hi
  rw [load, if_neg (by omega), Int.toNat_natCast, List.getElem?_append_right (Nat.le_refl _),
    Nat.sub_self, List.getElem?_cons_zero]

/-- Storing over the first cell behind some others. -/
theorem store_cell (before behind : Block α) (old new : Option α) {i : ℤ}
    (hi : i = before.length) :
    store (before ++ old :: behind) i [new] = .ok (before ++ new :: behind) :=
  store_append before [old] behind [new] hi rfl

/-- A block keeps its size. -/
theorem length_store {m m' new : Block α} {i : ℤ} (h : store m i new = .ok m') :
    m'.length = m.length := by
  rw [store] at h
  split_ifs at h with hi
  obtain rfl := Except.ok.inj h
  simp only [List.length_append, List.length_take, List.length_drop]
  omega

/-! ### Moving -/

/-- **Moving to the right**: the cells that the target does not cover are left with old
contents. -/
theorem move_right (before mid gap behind : Block α) (dst src n : ℤ)
    (hsrc : src = before.length) (hn : n = mid.length) (hdst : dst = src + gap.length) :
    ∃ left : Block α, left.length = gap.length ∧
      move (before ++ (mid ++ (gap ++ behind))) dst src n =
        .ok (before ++ (left ++ (mid ++ behind))) := by
  have hlen : (mid ++ gap).length = gap.length + mid.length := by
    rw [List.length_append, Nat.add_comm]
  refine ⟨(mid ++ gap).take gap.length, by rw [List.length_take]; omega, ?_⟩
  rw [move, cells_append before mid _ hsrc hn, ok_bind, ← List.append_assoc mid,
    ← List.take_append_drop gap.length (mid ++ gap), List.append_assoc,
    ← List.append_assoc before]
  rw [store_append _ _ _ mid]
  · rw [List.append_assoc, List.take_append_drop]
  · rw [List.length_append, List.length_take]
    omega
  · rw [List.length_drop]
    omega

/-- **Moving to the left**: the cells behind the target are left with old contents. -/
theorem move_left (before gap mid behind : Block α) (dst src n : ℤ)
    (hdst : dst = before.length) (hsrc : src = dst + gap.length) (hn : n = mid.length) :
    move (before ++ (gap ++ (mid ++ behind))) dst src n =
      .ok (before ++ (mid ++ ((gap ++ mid).drop mid.length ++ behind))) := by
  have hlen : (gap ++ mid).length = gap.length + mid.length := List.length_append
  have hcells : cells (before ++ (gap ++ (mid ++ behind))) src n = .ok mid := by
    rw [← List.append_assoc before]
    refine cells_append _ _ _ ?_ hn
    rw [List.length_append]
    omega
  rw [move, hcells, ok_bind, ← List.append_assoc gap,
    ← List.take_append_drop mid.length (gap ++ mid), List.append_assoc]
  rw [store_append before _ _ mid hdst]
  · rw [List.take_append_drop]
  · rw [List.length_take]
    omega

/-- Texts that are moved to the left leave a text behind. -/
theorem move_left_text (before gap mid : List α) (behind : Block α) (dst src n : ℤ)
    (hdst : dst = before.length) (hsrc : src = dst + gap.length) (hn : n = mid.length) :
    ∃ left : List α, left.length = gap.length ∧
      move (before.map some ++ (gap.map some ++ (mid.map some ++ behind))) dst src n =
        .ok (before.map some ++ (mid.map some ++ (left.map some ++ behind))) := by
  refine ⟨(gap ++ mid).drop mid.length, ?_, ?_⟩
  · rw [List.length_drop, List.length_append, Nat.add_sub_cancel]
  · rw [move_left _ _ _ _ _ _ _ (by rwa [List.length_map]) (by rwa [List.length_map])
      (by rwa [List.length_map]), ← List.map_append, List.length_map, ← List.map_drop]

/-! ### Allocation -/

/-- A new block has the size that was asked for. -/
@[simp] theorem length_alloc (n : ℤ) : (alloc n : Block α).length = n.toNat :=
  List.length_replicate

/-- A block that is made larger keeps its cells. -/
theorem resize_append (front rest : Block α) {n : ℤ} (hn : (front.length : ℤ) ≤ n) :
    ∃ rest' : Block α, resize (front ++ rest) n = front ++ rest' ∧
      ((front ++ rest').length : ℤ) = n := by
  refine ⟨rest.take (n.toNat - front.length) ++
    List.replicate (n.toNat - (front ++ rest).length) none, ?_, ?_⟩
  · rw [resize, List.take_append, List.take_of_length_le (by omega), List.append_assoc]
  · simp only [List.length_append, List.length_take, List.length_replicate]
    omega

/-- Cells or symbols can be split at any place within them. -/
theorem exists_split (m : List α) {n : ℕ} (hn : n ≤ m.length) :
    ∃ front rest, m = front ++ rest ∧ front.length = n :=
  ⟨m.take n, m.drop n, (List.take_append_drop n m).symm, List.length_take_of_le hn⟩

/-- Behind a place that is not the end there is a cell. -/
theorem exists_split_cell (m : List α) {n : ℕ} (hn : n < m.length) :
    ∃ front c rest, m = front ++ c :: rest ∧ front.length = n := by
  obtain ⟨front, rest, rfl, hlen⟩ := exists_split m (Nat.le_of_lt hn)
  cases rest with
  | nil =>
      rw [List.append_nil] at hn
      omega
  | cons c rest => exact ⟨front, c, rest, rfl, hlen⟩

/-! ### Texts in a block -/

/-- Reading a symbol of a text at the start of a block. -/
theorem load_text {text : List α} (rest : Block α) {i : ℤ} {a : α} (hi : 0 ≤ i)
    (h : text[i.toNat]? = some a) : load (text.map some ++ rest) i = .ok a := by
  have hlt := (List.getElem?_eq_some_iff.mp h).1
  rw [load, if_neg (by omega), List.getElem?_append_left (by rwa [List.length_map]),
    List.getElem?_map, h]
  rfl

/-- Writing over a part of a text. -/
theorem store_text {text before old behind new : List α} (rest : Block α) {i : ℤ}
    (h : text = before ++ (old ++ behind)) (hi : i = before.length)
    (hnew : new.length = old.length) :
    store (text.map some ++ rest) i (new.map some) =
      .ok ((before ++ (new ++ behind)).map some ++ rest) := by
  subst h
  simp only [List.map_append, List.append_assoc]
  exact store_append _ _ _ _ (by rwa [List.length_map])
    (by rw [List.length_map, List.length_map]; exact hnew)

/-! ### Loops -/

/-- A loop, run for so many turns at most. -/
def loop {σ : Type} (step : σ → Except Violation (σ ⊕ α)) : ℕ → σ → Except Violation α
  | 0, _ => .error .unfinished
  | n + 1, s => do
      let r ← step s
      match r with
      | .inl s => loop step n s
      | .inr a => return a

/-- **A loop ends** without a violation, if each turn keeps an invariant and makes a bound
smaller. -/
theorem loop_ends {σ : Type} {step : σ → Except Violation (σ ⊕ α)} (inv : σ → Prop) (bound : σ → ℕ)
    (post : α → Prop)
    (hstep : ∀ s, inv s → (∃ s', step s = .ok (.inl s') ∧ inv s' ∧ bound s' < bound s) ∨
      ∃ a, step s = .ok (.inr a) ∧ post a) {n : ℕ} :
    ∀ {s : σ}, inv s → bound s < n → ∃ a, loop step n s = .ok a ∧ post a := by
  induction n with
  | zero => exact fun _ hlt => absurd hlt (Nat.not_lt_zero _)
  | succ n ih =>
      intro s hs hlt
      rcases hstep s hs with ⟨s', hok, hinv, hless⟩ | ⟨a, hok, hpost⟩
      · obtain ⟨a, ha, hpost⟩ := ih hinv (by omega)
        refine ⟨a, ?_, hpost⟩
        rw [loop, hok, ok_bind]
        exact ha
      · refine ⟨a, ?_, hpost⟩
        rw [loop, hok, ok_bind]
        rfl

/-- The turns of a loop with their numbers, for loops whose turns may turn out differently. -/
def numbered {σ : Type} (step : ℕ → σ → Except Violation (σ ⊕ α)) (s : ℕ × σ) :
    Except Violation ((ℕ × σ) ⊕ α) := do
  let r ← step s.1 s.2
  match r with
  | .inl s' => return .inl (s.1 + 1, s')
  | .inr a => return .inr a

/-- **A loop of numbered turns ends**, whatever number it starts with. -/
theorem numbered_ends {σ : Type} {step : ℕ → σ → Except Violation (σ ⊕ α)} (inv : σ → Prop)
    (bound : σ → ℕ) (post : α → Prop)
    (hstep : ∀ i s, inv s → (∃ s', step i s = .ok (.inl s') ∧ inv s' ∧ bound s' < bound s) ∨
      ∃ a, step i s = .ok (.inr a) ∧ post a) {n i : ℕ} {s : σ} (hs : inv s) (hlt : bound s < n) :
    ∃ a, loop (numbered step) n (i, s) = .ok a ∧ post a := by
  refine loop_ends (fun s => inv s.2) (fun s => bound s.2) post ?_ hs hlt
  rintro ⟨i, s⟩ hs
  rcases hstep i s hs with ⟨s', hok, hinv, hless⟩ | ⟨a, hok, hpost⟩
  · exact .inl ⟨(i + 1, s'), by rw [numbered, hok]; rfl, hinv, hless⟩
  · exact .inr ⟨a, by rw [numbered, hok]; rfl, hpost⟩

end Memory
