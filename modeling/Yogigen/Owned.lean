import Mathlib.Data.List.Basic

/-!
# Values Behind Handles

A program that manages the memory of its values by hand gets a handle for every value it
creates, and has to destroy the value when it is done. A store has a cell for each handle
given out so far, which holds the value or has been destroyed; destroyed cells are not used
again. Reading or destroying through NULL, or what has been destroyed, is a misuse, after
which nothing is known of the program.

A `Prog` is run on a store. The rules describe a store as the cells that were there before,
followed by the cells of the program at hand (`s ++ cells`), so what they say of a program
holds wherever it is run. `Tidy` programs destroy every value they create, each once, and
touch nothing else.

## Main results

* `create_append`, `get_append`, `put_append`, `destroy_append`: the rules of the operations.
* `access_destroyed`: the use of a destroyed value is a misuse.
* `not_tidy_of_misuse`: tidy programs misuse nothing.
-/

namespace Owned

/-- What must not be done with a handle. -/
inductive Misuse
  | null
  | destroyed
  deriving DecidableEq

/-- The cells of the handles given out so far; `none` for a destroyed value. -/
abbrev Store (α : Type) := List (Option α)

/-- A handle, or NULL. -/
abbrev Pointer := Option ℕ

/-- How far a program comes: it ends, it is still running, or it misuses a handle. -/
inductive Outcome (α β : Type)
  | done (value : β) (store : Store α)
  | running
  | misuse (m : Misuse)
  deriving DecidableEq

/-- A program over a store of `α` that ends with a `β`. -/
structure Prog (α β : Type) where
  run : Store α → Outcome α β

variable {α β γ : Type}

/-- Go on with a program from where another one has ended. -/
def Outcome.next (o : Outcome α β) (f : β → Prog α γ) : Outcome α γ :=
  match o with
  | .done b s => (f b).run s
  | .running => .running
  | .misuse m => .misuse m

namespace Prog

instance : Monad (Prog α) where
  pure b := ⟨fun s => .done b s⟩
  bind x f := ⟨fun s => (x.run s).next f⟩

/-- A program that has not come to its end. -/
def wait : Prog α β :=
  ⟨fun _ => .running⟩

@[simp] theorem run_pure (b : β) (s : Store α) : (pure b : Prog α β).run s = .done b s := rfl

/-- One program after another. -/
theorem run_bind (x : Prog α β) (f : β → Prog α γ) (s : Store α) :
    (x >>= f).run s = (x.run s).next f := rfl

/-- The second one goes on where the first is done. -/
theorem run_bind_done {x : Prog α β} {s s' : Store α} {b : β} (h : x.run s = .done b s')
    (f : β → Prog α γ) : (x >>= f).run s = (f b).run s' := by
  rw [run_bind, h, Outcome.next]

/-- A misuse ends both. -/
theorem run_bind_misuse {x : Prog α β} {s : Store α} {m : Misuse} (h : x.run s = .misuse m)
    (f : β → Prog α γ) : (x >>= f).run s = .misuse m := by
  rw [run_bind, h, Outcome.next]

/-! ### Operations -/

/-- Create a value. -/
def create (a : α) : Prog α ℕ :=
  ⟨fun s => .done s.length (s ++ [some a])⟩

/-- Use the value behind a pointer. -/
def access (p : Pointer) (use : ℕ → α → Prog α β) : Prog α β :=
  ⟨fun s =>
    match p with
    | none => .misuse .null
    | some h =>
        match s[h]? with
        | some (some a) => (use h a).run s
        | _ => .misuse .destroyed⟩

/-- Read the value behind a pointer. -/
def get (p : Pointer) : Prog α α :=
  access p fun _ a => pure a

/-- Replace the value behind a pointer. -/
def put (p : Pointer) (b : α) : Prog α Unit :=
  access p fun h _ => ⟨fun s => .done () (s.set h (some b))⟩

/-- Destroy the value behind a pointer. -/
def destroy (p : Pointer) : Prog α Unit :=
  access p fun h _ => ⟨fun s => .done () (s.set h none)⟩

/-- Destroy the value behind a pointer that is not NULL. -/
def destroyIf : Pointer → Prog α Unit
  | none => pure ()
  | some h => destroy (some h)

theorem destroyIf_some (h : ℕ) : (destroyIf (some h) : Prog α Unit) = destroy (some h) := rfl

/-! ### The rules of the operations -/

section

variable {s cells : Store α} {i : ℕ} {a : α}

/-- The cells of a program stand behind those that were there. -/
theorem getElem?_cells (s cells : Store α) (i : ℕ) :
    (s ++ cells)[s.length + i]? = cells[i]? := by
  rw [List.getElem?_append_right (Nat.le_add_right ..), Nat.add_sub_cancel_left]

/-- A change of them leaves those alone. -/
theorem set_cells (s cells : Store α) (i : ℕ) (c : Option α) :
    (s ++ cells).set (s.length + i) c = s ++ cells.set i c := by
  rw [List.set_append_right _ _ (Nat.le_add_right ..), Nat.add_sub_cancel_left]

/-- A cell that was given out before the last one. -/
theorem getElem?_of_cells {c : Option α} (h : cells[i]? = some c) (more : Store α) :
    (cells ++ more)[i]? = some c := by
  rw [List.getElem?_append_left (List.getElem?_eq_some_iff.mp h).1, h]

/-- The new cell is the last one. -/
theorem getElem?_last (cells : Store α) (c : Option α) :
    (cells ++ [c])[cells.length]? = some c :=
  List.getElem?_concat_length

/-- And is changed there. -/
theorem set_last (cells : Store α) (c c' : Option α) :
    (cells ++ [c]).set cells.length c' = cells ++ [c'] := by
  simp

/-- A new cell at the end. -/
theorem create_append (a : α) (s cells : Store α) :
    (create a).run (s ++ cells) =
      .done (s.length + cells.length) (s ++ (cells ++ [some a])) := by
  simp only [create, List.length_append, List.append_assoc]

/-- A cell that is there can be used. -/
theorem access_append (h : cells[i]? = some (some a)) (use : ℕ → α → Prog α β) :
    (access (some (s.length + i)) use).run (s ++ cells) =
      (use (s.length + i) a).run (s ++ cells) := by
  simp only [access, getElem?_cells, h]

/-- Reading a cell. -/
theorem get_append (h : cells[i]? = some (some a)) :
    (get (some (s.length + i))).run (s ++ cells) = .done a (s ++ cells) :=
  access_append h _

/-- Writing a cell. -/
theorem put_append (h : cells[i]? = some (some a)) (b : α) :
    (put (some (s.length + i)) b).run (s ++ cells) =
      .done () (s ++ cells.set i (some b)) := by
  simp only [put, access_append h, set_cells]

/-- Destroying a cell. -/
theorem destroy_append (h : cells[i]? = some (some a)) :
    (destroy (some (s.length + i))).run (s ++ cells) = .done () (s ++ cells.set i none) := by
  simp only [destroy, access_append h, set_cells]

/-- A destroyed value cannot be used. -/
theorem access_destroyed (h : cells[i]? = some none) (use : ℕ → α → Prog α β) :
    (access (some (s.length + i)) use).run (s ++ cells) = .misuse .destroyed := by
  simp only [access, getElem?_cells, h]

/-- Reading a cell that is destroyed is a misuse. -/
theorem get_destroyed (h : cells[i]? = some none) :
    (get (some (s.length + i))).run (s ++ cells) = .misuse .destroyed :=
  access_destroyed h _

/-- And so is destroying it once more. -/
theorem destroy_destroyed (h : cells[i]? = some none) :
    (destroy (some (s.length + i))).run (s ++ cells) = .misuse .destroyed :=
  access_destroyed h _

end

/-! ### Tidy programs -/

/-- Unless it is still running, the program has ended, and all it has created is destroyed,
while the cells that were there before are as they were. -/
def Tidy (x : Prog α β) : Prop :=
  ∀ s, x.run s = .running ∨ ∃ b k, x.run s = .done b (s ++ List.replicate k none)

/-- A program with a misuse is not tidy. -/
theorem not_tidy_of_misuse {x : Prog α β} {m : Misuse} {s : Store α}
    (h : x.run s = .misuse m) : ¬ Tidy x := by
  intro htidy
  rcases htidy s with hrun | ⟨b, k, hrun⟩
  · exact absurd (h.symm.trans hrun) (by simp)
  · exact absurd (h.symm.trans hrun) (by simp)

/-- A program that does nothing is tidy. -/
theorem tidy_pure (b : β) : Tidy (pure b : Prog α β) := fun s =>
  .inr ⟨b, 0, by rw [run_pure, List.replicate_zero, List.append_nil]⟩

/-- What a program does with its value alone does not matter. -/
theorem run_bind_pure_eq_done_iff {x : Prog α β} {f : β → γ} {s s' : Store α} {c : γ} :
    (x >>= fun b => pure (f b)).run s = .done c s' ↔ ∃ b, x.run s = .done b s' ∧ f b = c := by
  rw [run_bind]
  cases hx : x.run s with
  | done b s₁ =>
      simp only [Outcome.next, run_pure, Outcome.done.injEq]
      constructor
      · rintro ⟨rfl, rfl⟩
        exact ⟨b, ⟨rfl, rfl⟩, rfl⟩
      · rintro ⟨_, ⟨rfl, rfl⟩, rfl⟩
        exact ⟨rfl, rfl⟩
  | running => simp [Outcome.next]
  | misuse m => simp [Outcome.next]

/-- What is computed from the result does not matter. -/
theorem tidy_bind_pure_iff {x : Prog α β} (f : β → γ) :
    Tidy (x >>= fun b => pure (f b)) ↔ Tidy x := by
  refine forall_congr' fun s => or_congr ?_ ?_
  · rw [run_bind]
    cases x.run s with
    | done b s' => simp [Outcome.next]
    | running => simp [Outcome.next]
    | misuse m => simp [Outcome.next]
  · constructor
    · rintro ⟨c, k, hrun⟩
      obtain ⟨b, hx, -⟩ := run_bind_pure_eq_done_iff.mp hrun
      exact ⟨b, k, hx⟩
    · rintro ⟨b, k, hx⟩
      exact ⟨f b, k, run_bind_pure_eq_done_iff.mpr ⟨b, hx, rfl⟩⟩

end Prog

end Owned
