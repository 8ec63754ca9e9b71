import Mathlib.Data.List.Basic
import Mathlib.Data.List.Infix
import Mathlib.Data.List.Range

/-!
# Computations on a Supply of Answers

A program that calls out to its environment (a random source, a socket, a library)
sees nothing of it but the answers to its calls, one after another. A `Reader` is such
a program: it is run on a finite list of answers and either finishes, leaving the
answers it did not ask for, or asks for one more than it was given (`starved`), or runs
into an error from which there is no return (`fault`).

A `Reader` carries the proofs that its outcome depends on the answers it asked for and
on nothing else (`done_steady`, `fault_steady`), so every composition built from the
operations below has this property by construction. `Yields` is the denotational form
of a finished run, `x.Yields used a`: on exactly the answers `used`, whatever follows
them, `x` finishes with `a`.

## Main results

* `yields_bind_iff`, `fault_bind_iff`: the composition laws.
* `yields_loop_iff`, `fault_loop_iff`: the laws of an unbounded loop.
* `Yields.unique`: a finished run determines both its answers and its value.
* `faultless_law`, `total_law`: never to fault, and to finish on every stream, are
  properties of a composition that can be checked on its reachable parts.
-/

namespace Supply

/-- What a computation does with the answers it has been given so far. -/
inductive Outcome (δ ε α : Type) where
  | done (value : α) (rest : List δ)
  | starved
  | fault (error : ε)
  deriving DecidableEq

/-- A computation on a supply of answers `δ`, with errors `ε` and results `α`. -/
structure Reader (δ ε α : Type) where
  run : List δ → Outcome δ ε α
  done_steady : ∀ {ds a rest}, run ds = .done a rest →
    ∃ used, ds = used ++ rest ∧ ∀ more, run (used ++ more) = .done a more
  fault_steady : ∀ {ds e}, run ds = .fault e → ∀ more, run (ds ++ more) = .fault e

namespace Reader

variable {δ ε α β σ : Type}

/-! ### Operations -/

/-- Ask for one answer. -/
def next : Reader δ ε δ where
  run
    | [] => .starved
    | d :: ds => .done d ds
  done_steady := by
    rintro (_ | ⟨d, ds⟩) a rest h
    · exact absurd h (by simp)
    · simp only [Outcome.done.injEq] at h
      obtain ⟨rfl, rfl⟩ := h
      exact ⟨[d], rfl, fun _ => rfl⟩
  fault_steady := by
    rintro (_ | ⟨d, ds⟩) e h
    · exact absurd h (by simp)
    · exact absurd h (by simp)

/-- Stop with an error. -/
def fail (e : ε) : Reader δ ε α where
  run _ := .fault e
  done_steady h := absurd h (by simp)
  fault_steady h _ := h

/-- Finish with a value, asking for nothing. -/
def ret (a : α) : Reader δ ε α where
  run ds := .done a ds
  done_steady := by
    rintro ds b rest h
    simp only [Outcome.done.injEq] at h
    obtain ⟨rfl, rfl⟩ := h
    exact ⟨[], rfl, fun _ => rfl⟩
  fault_steady h := absurd h (by simp)

/-- Run `x`, then `f` on its value and on the answers it left. -/
def andThen (x : Reader δ ε α) (f : α → Reader δ ε β) : Reader δ ε β where
  run ds :=
    match x.run ds with
    | .done a rest => (f a).run rest
    | .starved => .starved
    | .fault e => .fault e
  done_steady := by
    intro ds b rest h
    cases hx : x.run ds with
    | done a mid =>
        simp only [hx] at h
        obtain ⟨u, rfl, hu⟩ := x.done_steady hx
        obtain ⟨v, rfl, hv⟩ := (f a).done_steady h
        refine ⟨u ++ v, (List.append_assoc ..).symm, fun more => ?_⟩
        simp only [List.append_assoc, hu, hv]
    | starved => simp [hx] at h
    | fault e => simp [hx] at h
  fault_steady := by
    intro ds e h more
    cases hx : x.run ds with
    | done a mid =>
        simp only [hx] at h
        obtain ⟨u, rfl, hu⟩ := x.done_steady hx
        simp only [List.append_assoc, hu]
        exact (f a).fault_steady h more
    | starved => simp [hx] at h
    | fault e' =>
        simp only [hx] at h
        simp only [x.fault_steady hx more]
        exact h

instance : Monad (Reader δ ε) where
  pure := ret
  bind := andThen

/-- A computation that asks for nothing. -/
def ofExcept : Except ε α → Reader δ ε α
  | .ok a => pure a
  | .error e => fail e

@[simp] theorem run_next_nil : (next : Reader δ ε δ).run [] = .starved := rfl

@[simp] theorem run_next_cons (d : δ) (ds : List δ) :
    (next : Reader δ ε δ).run (d :: ds) = .done d ds := rfl

@[simp] theorem run_fail (e : ε) (ds : List δ) :
    (fail e : Reader δ ε α).run ds = .fault e := rfl

@[simp] theorem run_pure (a : α) (ds : List δ) :
    (pure a : Reader δ ε α).run ds = .done a ds := rfl

/-- One reader after another. -/
theorem run_bind (x : Reader δ ε α) (f : α → Reader δ ε β) (ds : List δ) :
    (x >>= f).run ds =
      match x.run ds with
      | .done a rest => (f a).run rest
      | .starved => .starved
      | .fault e => .fault e := rfl

/-! ### Finished runs -/

/-- On exactly the answers `used`, whatever follows them, `x` finishes with `a`. -/
def Yields (x : Reader δ ε α) (used : List δ) (a : α) : Prop :=
  ∀ more, x.run (used ++ more) = .done a more

/-- What yields a result is done with it. -/
theorem Yields.run {x : Reader δ ε α} {used : List δ} {a : α} (h : x.Yields used a) :
    x.run used = .done a [] := by
  simpa using h []

/-- A finished run is a `Yields` fact about the answers it asked for. -/
theorem run_eq_done_iff {x : Reader δ ε α} {ds rest : List δ} {a : α} :
    x.run ds = .done a rest ↔ ∃ used, ds = used ++ rest ∧ x.Yields used a := by
  constructor
  · exact fun h => x.done_steady h
  · rintro ⟨used, rfl, h⟩
    exact h rest

/-- And the other way round. -/
theorem yields_iff_run {x : Reader δ ε α} {used : List δ} {a : α} :
    x.Yields used a ↔ x.run used = .done a [] := by
  refine ⟨Yields.run, fun h => ?_⟩
  obtain ⟨u, hu, hy⟩ := run_eq_done_iff.mp h
  rw [List.append_nil] at hu
  exact hu ▸ hy

/-- A finished run determines the answers it used and its value. -/
theorem Yields.unique {x : Reader δ ε α} {u v m n : List δ} {a b : α}
    (hu : x.Yields u a) (hv : x.Yields v b) (h : u ++ m = v ++ n) : u = v ∧ a = b := by
  have hrun := hu m
  rw [h, hv n] at hrun
  obtain ⟨rfl, rfl⟩ := Outcome.done.inj hrun
  exact ⟨List.append_cancel_right h, rfl⟩

@[simp] theorem yields_pure_iff {a b : α} {used : List δ} :
    (pure a : Reader δ ε α).Yields used b ↔ used = [] ∧ b = a := by
  rw [yields_iff_run, run_pure, Outcome.done.injEq]
  tauto

@[simp] theorem yields_next_iff {used : List δ} {d : δ} :
    (next : Reader δ ε δ).Yields used d ↔ used = [d] := by
  rw [yields_iff_run]
  cases used with
  | nil => simp
  | cons e es =>
      rw [run_next_cons, Outcome.done.injEq, List.cons.injEq]

@[simp] theorem yields_ofExcept_iff {r : Except ε α} {a : α} {used : List δ} :
    (ofExcept r : Reader δ ε α).Yields used a ↔ used = [] ∧ r = .ok a := by
  cases r with
  | ok b =>
      rw [ofExcept, yields_pure_iff, Except.ok.injEq]
      tauto
  | error e => simp [ofExcept, yields_iff_run]

@[simp] theorem not_yields_fail {e : ε} {a : α} {used : List δ} :
    ¬ (fail e : Reader δ ε α).Yields used a := by
  rw [yields_iff_run]
  simp

/-- **Composition of finished runs.** -/
theorem yields_bind_iff {x : Reader δ ε α} {f : α → Reader δ ε β} {used : List δ} {b : β} :
    (x >>= f).Yields used b ↔
      ∃ u v a, used = u ++ v ∧ x.Yields u a ∧ (f a).Yields v b := by
  constructor
  · intro h
    have hrun := h.run
    rw [run_bind] at hrun
    cases hx : x.run used with
    | done a rest =>
        rw [hx] at hrun
        obtain ⟨u, rfl, hu⟩ := run_eq_done_iff.mp hx
        exact ⟨u, rest, a, rfl, hu, yields_iff_run.mpr hrun⟩
    | starved => simp [hx] at hrun
    | fault e => simp [hx] at hrun
  · rintro ⟨u, v, a, rfl, hu, hv⟩ more
    rw [List.append_assoc, run_bind, hu]
    exact hv more

/-- What follows a finished run gets the answers after it. -/
theorem Yields.run_bind {x : Reader δ ε α} {used : List δ} {a : α} (h : x.Yields used a)
    (f : α → Reader δ ε β) (rest : List δ) : (x >>= f).run (used ++ rest) = (f a).run rest := by
  rw [Reader.run_bind, h rest]

/-- A composition that starts by asking. -/
theorem yields_next_bind_iff {f : δ → Reader δ ε β} {used : List δ} {b : β} :
    (next >>= f).Yields used b ↔ ∃ d rest, used = d :: rest ∧ (f d).Yields rest b := by
  rw [yields_bind_iff]
  constructor
  · rintro ⟨u, rest, d, rfl, hu, h⟩
    obtain rfl := yields_next_iff.mp hu
    exact ⟨d, rest, rfl, h⟩
  · rintro ⟨d, rest, rfl, h⟩
    exact ⟨[d], rest, d, rfl, yields_next_iff.mpr rfl, h⟩

/-- A composition that only changes the value. -/
theorem yields_bind_pure_iff {x : Reader δ ε α} {g : α → β} {used : List δ} {b : β} :
    (x >>= fun a => pure (g a)).Yields used b ↔ ∃ a, x.Yields used a ∧ b = g a := by
  rw [yields_bind_iff]
  constructor
  · rintro ⟨u, v, a, rfl, hu, hv⟩
    obtain ⟨rfl, rfl⟩ := yields_pure_iff.mp hv
    exact ⟨a, by rwa [List.append_nil], rfl⟩
  · rintro ⟨a, hu, rfl⟩
    exact ⟨used, [], a, (List.append_nil used).symm, hu, yields_pure_iff.mpr ⟨rfl, rfl⟩⟩

/-- **Composition of faulting runs.** -/
theorem fault_bind_iff {x : Reader δ ε α} {f : α → Reader δ ε β} {ds : List δ} {e : ε} :
    (x >>= f).run ds = .fault e ↔
      x.run ds = .fault e ∨ ∃ u v a, ds = u ++ v ∧ x.Yields u a ∧ (f a).run v = .fault e := by
  constructor
  · intro h
    rw [run_bind] at h
    cases hx : x.run ds with
    | done a rest =>
        rw [hx] at h
        obtain ⟨u, rfl, hu⟩ := run_eq_done_iff.mp hx
        exact .inr ⟨u, rest, a, rfl, hu, h⟩
    | starved => simp [hx] at h
    | fault e' =>
        simp only [hx, Outcome.fault.injEq] at h
        exact .inl (by rw [h])
  · rintro (h | ⟨u, v, a, rfl, hu, hv⟩)
    · rw [run_bind, h]
    · rw [run_bind, hu]
      exact hv

/-- Reading is no fault. -/
theorem fault_next_iff {ds : List δ} {e : ε} :
    (next : Reader δ ε δ).run ds = .fault e ↔ False := by
  cases ds <;> simp

/-! ### Unbounded loops -/

/-- The runs of `loop`: repeat `body` from state `s` until it leaves with a value. An
iteration that asks for nothing would repeat for ever, so it counts as starved. -/
def loopRun (body : σ → Reader δ ε (σ ⊕ α)) (s : σ) (ds : List δ) : Outcome δ ε α :=
  match (body s).run ds with
  | .done (.inr a) rest => .done a rest
  | .done (.inl s') rest =>
      if rest.length < ds.length then loopRun body s' rest else .starved
  | .starved => .starved
  | .fault e => .fault e
termination_by ds.length

/-- A turn that leaves the loop. -/
theorem loopRun_exit {body : σ → Reader δ ε (σ ⊕ α)} {s : σ} {used : List δ} {a : α}
    (h : (body s).Yields used (.inr a)) (more : List δ) :
    loopRun body s (used ++ more) = .done a more := by
  rw [loopRun, h more]

/-- A turn that is followed by another. -/
theorem loopRun_again {body : σ → Reader δ ε (σ ⊕ α)} {s s' : σ} {used : List δ}
    (h : (body s).Yields used (.inl s')) (hused : used ≠ []) (more : List δ) :
    loopRun body s (used ++ more) = loopRun body s' more := by
  have hlt : more.length < (used ++ more).length := by
    have := List.length_pos_iff.mpr hused
    simp only [List.length_append]
    omega
  rw [loopRun, h more]
  simp only [if_pos hlt]

/-- A turn with a fault. -/
theorem loopRun_fault {body : σ → Reader δ ε (σ ⊕ α)} {s : σ} {ds : List δ} {e : ε}
    (h : (body s).run ds = .fault e) : loopRun body s ds = .fault e := by
  rw [loopRun, h]

/-- **Inversion of one iteration**: a run of the loop leaves at once, goes round once
more, faults in the body, or starves. -/
theorem loopRun_cases (body : σ → Reader δ ε (σ ⊕ α)) (s : σ) (ds : List δ) :
    (∃ u v a, ds = u ++ v ∧ (body s).Yields u (.inr a) ∧ loopRun body s ds = .done a v) ∨
    (∃ u v s', ds = u ++ v ∧ u ≠ [] ∧ (body s).Yields u (.inl s') ∧
      loopRun body s ds = loopRun body s' v) ∨
    (∃ e, (body s).run ds = .fault e ∧ loopRun body s ds = .fault e) ∨
    loopRun body s ds = .starved := by
  cases hb : (body s).run ds with
  | done r rest =>
      obtain ⟨u, rfl, hu⟩ := run_eq_done_iff.mp hb
      cases r with
      | inr a => exact .inl ⟨u, rest, a, rfl, hu, loopRun_exit hu rest⟩
      | inl s' =>
          by_cases hnil : u = []
          · subst hnil
            refine .inr (.inr (.inr ?_))
            rw [loopRun, hb]
            simp
          · exact .inr (.inl ⟨u, rest, s', rfl, hnil, hu, loopRun_again hu hnil rest⟩)
  | starved =>
      refine .inr (.inr (.inr ?_))
      rw [loopRun, hb]
  | fault e => exact .inr (.inr (.inl ⟨e, rfl, loopRun_fault hb⟩))

/-- A loop that is done does not depend on what it has not read. -/
theorem loopRun_done_steady (body : σ → Reader δ ε (σ ⊕ α)) (n : ℕ) :
    ∀ {s : σ} {ds rest : List δ} {a : α}, ds.length ≤ n → loopRun body s ds = .done a rest →
      ∃ used, ds = used ++ rest ∧ ∀ more, loopRun body s (used ++ more) = .done a more := by
  induction n using Nat.strong_induction_on with
  | _ n ih =>
      intro s ds rest a hn h
      rcases loopRun_cases body s ds with ⟨u, v, b, rfl, hu, hl⟩ | ⟨u, v, s', rfl, hne, hu, hl⟩ |
        ⟨e, -, hl⟩ | hl
      · obtain ⟨rfl, rfl⟩ := Outcome.done.inj (hl.symm.trans h)
        exact ⟨u, rfl, fun more => loopRun_exit hu more⟩
      · rw [hl] at h
        have hpos := List.length_pos_iff.mpr hne
        rw [List.length_append] at hn
        obtain ⟨w, rfl, hw⟩ := ih v.length (by omega) le_rfl h
        refine ⟨u ++ w, (List.append_assoc ..).symm, fun more => ?_⟩
        rw [List.append_assoc, loopRun_again hu hne, hw]
      · exact absurd (hl.symm.trans h) (by simp)
      · exact absurd (hl.symm.trans h) (by simp)

/-- Neither does a fault. -/
theorem loopRun_fault_steady (body : σ → Reader δ ε (σ ⊕ α)) (n : ℕ) :
    ∀ {s : σ} {ds : List δ} {e : ε}, ds.length ≤ n → loopRun body s ds = .fault e →
      ∀ more, loopRun body s (ds ++ more) = .fault e := by
  induction n using Nat.strong_induction_on with
  | _ n ih =>
      intro s ds e hn h more
      rcases loopRun_cases body s ds with ⟨u, v, b, rfl, hu, hl⟩ | ⟨u, v, s', rfl, hne, hu, hl⟩ |
        ⟨e', hb, hl⟩ | hl
      · exact absurd (hl.symm.trans h) (by simp)
      · rw [hl] at h
        have hpos := List.length_pos_iff.mpr hne
        rw [List.length_append] at hn
        rw [List.append_assoc, loopRun_again hu hne]
        exact ih v.length (by omega) le_rfl h more
      · obtain rfl := Outcome.fault.inj (hl.symm.trans h)
        exact loopRun_fault ((body s).fault_steady hb more)
      · exact absurd (hl.symm.trans h) (by simp)

/-- Repeat `body` until it leaves with a value. -/
def loop (body : σ → Reader δ ε (σ ⊕ α)) (s : σ) : Reader δ ε α where
  run := loopRun body s
  done_steady h := loopRun_done_steady body _ le_rfl h
  fault_steady h := loopRun_fault_steady body _ le_rfl h

/-- **Finished loops**: the last iteration leaves, every earlier one asks for something. -/
theorem yields_loop_iff {body : σ → Reader δ ε (σ ⊕ α)} {s : σ} {used : List δ} {a : α} :
    (loop body s).Yields used a ↔
      (body s).Yields used (.inr a) ∨
      ∃ u v s', used = u ++ v ∧ u ≠ [] ∧ (body s).Yields u (.inl s') ∧
        (loop body s').Yields v a := by
  constructor
  · intro h
    have hrun : loopRun body s used = .done a [] := h.run
    rcases loopRun_cases body s used with ⟨u, v, b, rfl, hu, hl⟩ |
      ⟨u, v, s', rfl, hne, hu, hl⟩ | ⟨e, -, hl⟩ | hl
    · obtain ⟨rfl, rfl⟩ := Outcome.done.inj (hl.symm.trans hrun)
      rw [List.append_nil]
      exact .inl hu
    · exact .inr ⟨u, v, s', rfl, hne, hu, yields_iff_run.mpr (hl.symm.trans hrun)⟩
    · exact absurd (hl.symm.trans hrun) (by simp)
    · exact absurd (hl.symm.trans hrun) (by simp)
  · rintro (h | ⟨u, v, s', rfl, hne, hu, hv⟩)
    · exact fun more => loopRun_exit h more
    · intro more
      rw [List.append_assoc]
      exact (loopRun_again hu hne _).trans (hv more)

/-- A loop whose body asks for more than there is does so too. -/
theorem run_loop_starved {body : σ → Reader δ ε (σ ⊕ α)} {s : σ} {ds : List δ}
    (h : (body s).run ds = .starved) : (loop body s).run ds = .starved := by
  show loopRun body s ds = .starved
  rw [loopRun, h]

/-- After an iteration that goes round, the loop is run on the answers that are left. -/
theorem run_loop_again {body : σ → Reader δ ε (σ ⊕ α)} {s s' : σ} {used : List δ}
    (h : (body s).Yields used (.inl s')) (hused : used ≠ []) (rest : List δ) :
    (loop body s).run (used ++ rest) = (loop body s').run rest :=
  loopRun_again h hused rest

/-- **Faulting loops.** -/
theorem fault_loop_iff {body : σ → Reader δ ε (σ ⊕ α)} {s : σ} {ds : List δ} {e : ε} :
    (loop body s).run ds = .fault e ↔
      (body s).run ds = .fault e ∨
      ∃ u v s', ds = u ++ v ∧ u ≠ [] ∧ (body s).Yields u (.inl s') ∧
        (loop body s').run v = .fault e := by
  constructor
  · intro h
    rcases loopRun_cases body s ds with ⟨u, v, b, rfl, hu, hl⟩ |
      ⟨u, v, s', rfl, hne, hu, hl⟩ | ⟨e', hb, hl⟩ | hl
    · exact absurd (hl.symm.trans h) (by simp)
    · exact .inr ⟨u, v, s', rfl, hne, hu, hl.symm.trans h⟩
    · obtain rfl := Outcome.fault.inj (hl.symm.trans h)
      exact .inl hb
    · exact absurd (hl.symm.trans h) (by simp)
  · rintro (h | ⟨u, v, s', rfl, hne, hu, hv⟩)
    · exact loopRun_fault h
    · exact (loopRun_again hu hne _).trans hv

/-- **The invariant rule for faults**: a loop whose body keeps `inv` and never faults
under it never faults. -/
theorem loop_not_fault {body : σ → Reader δ ε (σ ⊕ α)} {inv : σ → Prop}
    (hbody : ∀ s, inv s → ∀ ds e, (body s).run ds ≠ .fault e)
    (hkeep : ∀ s, inv s → ∀ used s', (body s).Yields used (.inl s') → inv s') (n : ℕ) :
    ∀ {s : σ}, inv s → ∀ {ds : List δ} {e : ε}, ds.length ≤ n →
      (loop body s).run ds ≠ .fault e := by
  induction n using Nat.strong_induction_on with
  | _ n ih =>
      intro s hs ds e hn h
      rcases fault_loop_iff.mp h with hb | ⟨u, v, s', rfl, hne, hu, hv⟩
      · exact hbody s hs _ _ hb
      · have hpos := List.length_pos_iff.mpr hne
        rw [List.length_append] at hn
        exact ih v.length (by omega) (hkeep s hs _ _ hu) le_rfl hv

/-- **The invariant rule for results**: what every iteration keeps and the last one turns
into `post` holds of the result. -/
theorem Yields.loop_induct {body : σ → Reader δ ε (σ ⊕ α)} (inv : σ → Prop) (post : α → Prop)
    (hkeep : ∀ s, inv s → ∀ used s', (body s).Yields used (.inl s') → inv s')
    (hexit : ∀ s, inv s → ∀ used a, (body s).Yields used (.inr a) → post a) (n : ℕ) :
    ∀ {s : σ}, inv s → ∀ {used : List δ} {a : α}, used.length ≤ n →
      (loop body s).Yields used a → post a := by
  induction n using Nat.strong_induction_on with
  | _ n ih =>
      intro s hs used a hn h
      rcases yields_loop_iff.mp h with hx | ⟨u, v, s', rfl, hne, hu, hv⟩
      · exact hexit s hs _ _ hx
      · have hpos := List.length_pos_iff.mpr hne
        rw [List.length_append] at hn
        exact ih v.length (by omega) (hkeep s hs _ _ hu) le_rfl hv

/-! ### Infinite streams of answers -/

/-- The first `n` answers of a stream. -/
def prefixOf (stream : ℕ → δ) (n : ℕ) : List δ :=
  (List.range n).map stream

/-- A prefix has its length. -/
@[simp] theorem length_prefixOf (stream : ℕ → δ) (n : ℕ) : (prefixOf stream n).length = n := by
  simp [prefixOf]

/-- A prefix, and a prefix of what is left. -/
theorem prefixOf_add (stream : ℕ → δ) (m n : ℕ) :
    prefixOf stream (m + n) = prefixOf stream m ++ prefixOf (fun k => stream (m + k)) n := by
  simp only [prefixOf, List.range_add, List.map_append, List.map_map]
  rfl

/-- The first element, and a prefix of what is left. -/
theorem prefixOf_succ (stream : ℕ → δ) (n : ℕ) :
    prefixOf stream (n + 1) = stream 0 :: prefixOf (fun k => stream (k + 1)) n := by
  simp only [prefixOf, List.range_succ_eq_map, List.map_cons, List.map_map]
  rfl

/-- On the stream, the computation finishes with some value. -/
def Returns (x : Reader δ ε α) (stream : ℕ → δ) : Prop :=
  ∃ n a, x.Yields (prefixOf stream n) a

/-- On the stream, the computation never faults, however much of it is given. -/
def Safe (x : Reader δ ε α) (stream : ℕ → δ) : Prop :=
  ∀ n e, x.run (prefixOf stream n) ≠ .fault e

/-- A stream determines when a computation finishes on it, and with what. -/
theorem Yields.unique_prefixOf {x : Reader δ ε α} {stream : ℕ → δ} {m n : ℕ} {a b : α}
    (ha : x.Yields (prefixOf stream m) a) (hb : x.Yields (prefixOf stream n) b) : a = b := by
  refine (ha.unique hb (m := prefixOf (fun k => stream (m + k)) n)
    (n := prefixOf (fun k => stream (n + k)) m) ?_).2
  rw [← prefixOf_add, ← prefixOf_add, Nat.add_comm]

/-! ### What holds for all answers -/

/-- Whatever the answers, the computation never faults. -/
def Faultless (x : Reader δ ε α) : Prop :=
  ∀ ds e, x.run ds ≠ .fault e

/-- On every stream of answers, the computation finishes. -/
def Total (x : Reader δ ε α) : Prop :=
  ∀ stream, x.Returns stream

/-- A property of computations that is inherited by, and inherited from, the parts of a
composition that can be reached, and excludes errors. -/
structure Law (Φ : (α : Type) → Reader δ ε α → Prop) : Prop where
  pure : ∀ {α : Type} (a : α), Φ α (pure a)
  next : Φ δ next
  fail : ∀ {α : Type} (e : ε), ¬ Φ α (fail e)
  bind : ∀ {α β : Type} (x : Reader δ ε α) (f : α → Reader δ ε β),
    Φ β (x >>= f) ↔ Φ α x ∧ ∀ used a, x.Yields used a → Φ β (f a)

namespace Law

variable {Φ : (α : Type) → Reader δ ε α → Prop} (law : Law Φ)

include law

/-- A law of readers that begin with an element. -/
theorem next_bind_iff {f : δ → Reader δ ε β} : Φ β (Reader.next >>= f) ↔ ∀ d, Φ β (f d) := by
  rw [law.bind]
  constructor
  · exact fun h d => h.2 [d] d (yields_next_iff.mpr rfl)
  · exact fun h => ⟨law.next, fun _ d _ => h d⟩

/-- What follows a computation does not matter if it asks for nothing and cannot fail. -/
theorem bind_iff_of_pure {x : Reader δ ε α} {f : α → Reader δ ε β}
    (hf : ∀ a, ∃ b, f a = Pure.pure b) : Φ β (x >>= f) ↔ Φ α x := by
  rw [law.bind]
  refine and_iff_left fun _ a _ => ?_
  obtain ⟨b, hb⟩ := hf a
  rw [hb]
  exact law.pure b

end Law

/-- Both parts have to be without fault. -/
theorem faultless_bind_iff {x : Reader δ ε α} {f : α → Reader δ ε β} :
    (x >>= f).Faultless ↔ x.Faultless ∧ ∀ used a, x.Yields used a → (f a).Faultless := by
  constructor
  · intro h
    refine ⟨fun ds e hx => h ds e (fault_bind_iff.mpr (.inl hx)), fun used a hy ds e hf => ?_⟩
    exact h (used ++ ds) e (fault_bind_iff.mpr (.inr ⟨used, ds, a, rfl, hy, hf⟩))
  · rintro ⟨hx, hf⟩ ds e h
    rcases fault_bind_iff.mp h with h | ⟨u, v, a, rfl, hu, hv⟩
    · exact hx ds e h
    · exact hf u a hu v e hv

/-- Not to fault is a law. -/
theorem faultless_law : Law fun α (x : Reader δ ε α) => x.Faultless where
  pure a ds e h := absurd h (by simp)
  next ds e h := fault_next_iff.mp h
  fail e h := h [] e rfl
  bind x f := faultless_bind_iff

/-- A list of answers followed by a stream. -/
def followedBy (ds : List δ) (stream : ℕ → δ) (n : ℕ) : δ :=
  ds.getD n (stream (n - ds.length))

/-- A list before a stream is the start of it. -/
theorem prefixOf_followedBy (ds : List δ) (stream : ℕ → δ) (n : ℕ) :
    prefixOf (followedBy ds stream) (ds.length + n) = ds ++ prefixOf stream n := by
  rw [prefixOf_add]
  congr 1
  · refine List.ext_getElem (by simp) fun i hi hi' => ?_
    simp [prefixOf, followedBy, List.getElem?_eq_getElem hi']
  · refine List.ext_getElem (by simp) fun i hi hi' => ?_
    simp [prefixOf, followedBy]

/-- An initial part of a prefix is a prefix. -/
theorem eq_prefixOf_of_append {stream : ℕ → δ} {n : ℕ} {u v : List δ}
    (h : prefixOf stream n = u ++ v) : u = prefixOf stream u.length := by
  have hlen : n = u.length + v.length := by
    rw [← length_prefixOf stream n, h, List.length_append]
  rw [hlen, prefixOf_add] at h
  exact (List.append_inj h (length_prefixOf ..)).1.symm

/-- Both parts have to end. -/
theorem total_bind_iff {x : Reader δ ε α} {f : α → Reader δ ε β} :
    (x >>= f).Total ↔ x.Total ∧ ∀ used a, x.Yields used a → (f a).Total := by
  constructor
  · intro h
    refine ⟨fun stream => ?_, fun used a hy stream => ?_⟩
    · obtain ⟨n, b, hb⟩ := h stream
      obtain ⟨u, v, a, huv, hu, -⟩ := yields_bind_iff.mp hb
      exact ⟨u.length, a, eq_prefixOf_of_append huv ▸ hu⟩
    · -- a stream that begins with what `x` uses makes `x` use just that
      obtain ⟨n, b, hb⟩ := h (followedBy used stream)
      obtain ⟨u, v, a', huv, hu, hv⟩ := yields_bind_iff.mp hb
      have hlong := prefixOf_followedBy used stream n
      rw [Nat.add_comm, prefixOf_add, huv, List.append_assoc] at hlong
      obtain ⟨rfl, rfl⟩ := hu.unique hy hlong
      have hrest := (List.append_cancel_left hlong).symm
      exact ⟨v.length, b, eq_prefixOf_of_append hrest ▸ hv⟩
  · rintro ⟨hx, hf⟩ stream
    obtain ⟨n, a, hn⟩ := hx stream
    obtain ⟨m, b, hm⟩ := hf _ a hn fun k => stream (n + k)
    refine ⟨n + m, b, ?_⟩
    rw [prefixOf_add]
    exact yields_bind_iff.mpr ⟨_, _, a, rfl, hn, hm⟩

/-- To finish on every stream is a law, as soon as there are any streams. -/
theorem total_law [Inhabited δ] : Law fun α (x : Reader δ ε α) => x.Total where
  pure a stream := ⟨0, a, yields_pure_iff.mpr ⟨rfl, rfl⟩⟩
  next stream := ⟨1, stream 0, yields_next_iff.mpr rfl⟩
  fail e h := by
    obtain ⟨n, a, hy⟩ := h fun _ => default
    exact not_yields_fail hy
  bind x f := total_bind_iff

/-- Safety on every stream is faultlessness. -/
theorem forall_safe_iff [Inhabited δ] {x : Reader δ ε α} :
    (∀ stream, x.Safe stream) ↔ x.Faultless := by
  constructor
  · intro h ds e hx
    have hpre := prefixOf_followedBy ds (fun _ => default) 0
    rw [Nat.add_zero, show prefixOf (fun _ => (default : δ)) 0 = [] from rfl,
      List.append_nil] at hpre
    exact h (followedBy ds fun _ => default) ds.length e (by rw [hpre]; exact hx)
  · exact fun h stream n e => h _ e

/-- What finishes does not fault. -/
theorem Returns.safe {x : Reader δ ε α} {stream : ℕ → δ} (h : x.Returns stream) :
    x.Safe stream := by
  intro n e hfault
  obtain ⟨m, a, hy⟩ := h
  have hlong := x.fault_steady hfault (prefixOf (fun k => stream (n + k)) m)
  rw [← prefixOf_add, Nat.add_comm, prefixOf_add, hy] at hlong
  exact absurd hlong (by simp)

end Reader

end Supply
