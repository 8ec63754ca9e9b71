import Mathlib.Algebra.Order.BigOperators.Group.Finset
import Mathlib.Data.Fintype.Card

/-!
# Labelled Runs and Guarded Runs

A system is a labelled step relation `step s l s'` on states. A `Run` records the steps
taken from a state, each with its label and the state it reached, so a statement about
all entries of a run is a statement about every state the system passed through.

`Guarded guard s trace` says that every step of the run was taken from a state and with
a label that satisfy `guard`; a guard is how a condition on the schedule or on the
inputs of the single steps is imposed on a whole run.

## Main results

* `Run.invariant`: what holds at the start and is preserved by every guarded step holds
  of every state of a guarded run.
* `Run.exists_step`: each step of a run is one from a state of the invariant.
* `Run.final_of_exists`, `Run.final_iff_exists`: what an event sets for good holds at the end.
* `Run.forall_iff_guarded`: when the guard is exactly what one step needs to preserve a
  property, a run preserves the property throughout if and only if it is guarded.
* `Run.along_iff_guarded`: the same for a law that relates the two ends of each step.
* `Run.filterMap`, `Run.exists_filterMap_eq`: what is seen of the runs of a system are the runs
  of a second one that simulates it.
* `population_update`: how the number of parties in some kind of place changes when one
  party moves.
-/

namespace Transition

variable {σ ℓ : Type*} {step : σ → ℓ → σ → Prop}

/-- The runs of a step relation from a state, with the label of each step and the state
it reached. -/
inductive Run (step : σ → ℓ → σ → Prop) : σ → List (ℓ × σ) → Prop
  | nil (s : σ) : Run step s []
  | cons {s s' : σ} {l : ℓ} {trace : List (ℓ × σ)} :
      step s l s' → Run step s' trace → Run step s ((l, s') :: trace)

/-- Every step of the run satisfies `guard` in the state it was taken from. -/
def Guarded (guard : σ → ℓ → Prop) : σ → List (ℓ × σ) → Prop
  | _, [] => True
  | s, (l, s') :: trace => guard s l ∧ Guarded guard s' trace

/-- The state a run ends in. -/
def final : σ → List (ℓ × σ) → σ
  | s, [] => s
  | _, (_, s') :: trace => final s' trace

/-- The first step, and the rest of the run. -/
theorem Run.cons_inv {s s' : σ} {l : ℓ} {trace : List (ℓ × σ)}
    (h : Run step s ((l, s') :: trace)) : step s l s' ∧ Run step s' trace := by
  cases h with
  | cons hs ht => exact ⟨hs, ht⟩

/-- The state after a run and another one. -/
theorem final_append (s : σ) (trace more : List (ℓ × σ)) :
    final s (trace ++ more) = final (final s trace) more := by
  induction trace generalizing s with
  | nil => rfl
  | cons p trace ih => exact ih p.2

/-- A run can be interrupted anywhere. -/
theorem Run.append_inv {s : σ} {trace more : List (ℓ × σ)} (h : Run step s (trace ++ more)) :
    Run step s trace ∧ Run step (final s trace) more := by
  induction trace generalizing s with
  | nil => exact ⟨.nil s, h⟩
  | cons p trace ih =>
      obtain ⟨hstep, hrest⟩ := h.cons_inv
      exact ⟨.cons hstep (ih hrest).1, (ih hrest).2⟩

/-- A run can be continued where it ended. -/
theorem Run.append {s : σ} {trace more : List (ℓ × σ)} (h : Run step s trace)
    (hmore : Run step (final s trace) more) : Run step s (trace ++ more) := by
  induction h with
  | nil => exact hmore
  | cons hl _ ih => exact .cons hl (ih hmore)

/-- What guards a run guards both of its parts. -/
theorem Guarded.append_inv {guard : σ → ℓ → Prop} {s : σ} {trace more : List (ℓ × σ)}
    (h : Guarded guard s (trace ++ more)) :
    Guarded guard s trace ∧ Guarded guard (final s trace) more := by
  induction trace generalizing s with
  | nil => exact ⟨trivial, h⟩
  | cons p trace ih => exact ⟨⟨h.1, (ih h.2).1⟩, (ih h.2).2⟩

/-- A guarded run can be continued by one. -/
theorem Guarded.append {guard : σ → ℓ → Prop} {s : σ} {trace more : List (ℓ × σ)}
    (h : Guarded guard s trace) (hmore : Guarded guard (final s trace) more) :
    Guarded guard s (trace ++ more) := by
  induction trace generalizing s with
  | nil => exact hmore
  | cons p trace ih => exact ⟨h.1, ih h.2 hmore⟩

/-- Two guards of a run are one. -/
theorem Guarded.and {guard guard' : σ → ℓ → Prop} {s : σ} {trace : List (ℓ × σ)}
    (h : Guarded guard s trace) (h' : Guarded guard' s trace) :
    Guarded (fun s l => guard s l ∧ guard' s l) s trace := by
  induction trace generalizing s with
  | nil => trivial
  | cons p trace ih => exact ⟨⟨h.1, h'.1⟩, ih h.2 h'.2⟩

/-- The state a run ends in is its start or one of the states it reached. -/
theorem final_eq_or_mem (s : σ) (trace : List (ℓ × σ)) :
    final s trace = s ∨ ∃ l, (l, final s trace) ∈ trace := by
  induction trace generalizing s with
  | nil => exact .inl rfl
  | cons p trace ih =>
      rcases ih p.2 with h | ⟨l, h⟩
      · exact .inr ⟨p.1, by rw [final, h]; exact List.mem_cons_self⟩
      · exact .inr ⟨l, List.mem_cons_of_mem _ h⟩

/-- **The invariant rule**: an invariant that every guarded step preserves holds of every
state of a guarded run. -/
theorem Run.invariant {guard : σ → ℓ → Prop} {inv : σ → Prop}
    (hstep : ∀ s l s', inv s → guard s l → step s l s' → inv s') {s : σ}
    {trace : List (ℓ × σ)} (h : Run step s trace) (hs : inv s)
    (hg : Guarded guard s trace) : ∀ p ∈ trace, inv p.2 := by
  induction h with
  | nil => exact fun p hp => absurd hp List.not_mem_nil
  | cons hl _ ih =>
      obtain ⟨hg, hg'⟩ := hg
      have hs' := hstep _ _ _ hs hg hl
      exact List.forall_mem_cons.mpr ⟨hs', ih hs' hg'⟩

/-- The invariant holds at the end. -/
theorem Run.invariant_final {guard : σ → ℓ → Prop} {inv : σ → Prop}
    (hstep : ∀ s l s', inv s → guard s l → step s l s' → inv s') {s : σ}
    {trace : List (ℓ × σ)} (h : Run step s trace) (hs : inv s)
    (hg : Guarded guard s trace) : inv (final s trace) := by
  rcases final_eq_or_mem s trace with he | ⟨l, hl⟩
  · exact he.symm ▸ hs
  · exact h.invariant hstep hs hg _ hl

/-- Every step of a run is taken from a state of the invariant. -/
theorem Run.exists_step {inv : σ → Prop} (hstep : ∀ s l s', inv s → step s l s' → inv s')
    {s : σ} {trace : List (ℓ × σ)} (h : Run step s trace) (hs : inv s) {p : ℓ × σ}
    (hp : p ∈ trace) : ∃ s₀, inv s₀ ∧ step s₀ p.1 p.2 := by
  induction h with
  | nil => exact absurd hp List.not_mem_nil
  | cons hl _ ih =>
      rcases List.mem_cons.mp hp with rfl | hp
      · exact ⟨_, hs, hl⟩
      · exact ih (hstep _ _ _ hs hl) hp

/-- **Marks**: what an event sets and no step removes holds at the end of a run with the
event. -/
theorem Run.final_of_exists {inv mark : σ → Prop} {event : ℓ → Prop}
    (hinv : ∀ s l s', inv s → step s l s' → inv s')
    (hstep : ∀ s l s', inv s → step s l s' → mark s ∨ event l → mark s') {s : σ}
    {trace : List (ℓ × σ)} (h : Run step s trace) (hs : inv s)
    (hmark : mark s ∨ ∃ q ∈ trace, event q.1) : mark (final s trace) := by
  induction h with
  | nil =>
      refine hmark.resolve_right ?_
      rintro ⟨q, hq, -⟩
      exact absurd hq List.not_mem_nil
  | @cons s s' l trace hl _ ih =>
      refine ih (hinv _ _ _ hs hl) ?_
      rcases hmark with hmark | ⟨q, hq, hevent⟩
      · exact .inl (hstep _ _ _ hs hl (.inl hmark))
      · rcases List.mem_cons.mp hq with rfl | hq
        · exact .inl (hstep _ _ _ hs hl (.inr hevent))
        · exact .inr ⟨q, hq, hevent⟩

/-- **Exact marks**: what exactly an event sets holds at the end of exactly the runs with the
event. -/
theorem Run.final_iff_exists {inv mark : σ → Prop} {event : ℓ → Prop}
    (hinv : ∀ s l s', inv s → step s l s' → inv s')
    (hstep : ∀ s l s', inv s → step s l s' → (mark s' ↔ mark s ∨ event l)) {s : σ}
    {trace : List (ℓ × σ)} (h : Run step s trace) (hs : inv s) :
    mark (final s trace) ↔ mark s ∨ ∃ q ∈ trace, event q.1 := by
  induction h with
  | nil => simp [final]
  | @cons s s' l trace hl _ ih =>
      rw [final, ih (hinv _ _ _ hs hl), hstep _ _ _ hs hl]
      simp only [List.mem_cons, exists_eq_or_imp, or_assoc]

/-- A guard on the labels alone is a condition on each step of the run. -/
theorem guarded_label (guard : ℓ → Prop) {s : σ} {trace : List (ℓ × σ)} :
    Guarded (fun _ l => guard l) s trace ↔ ∀ p ∈ trace, guard p.1 := by
  induction trace generalizing s with
  | nil => exact ⟨fun _ p hp => absurd hp List.not_mem_nil, fun _ => trivial⟩
  | cons p trace ih => rw [Guarded, ih, List.forall_mem_cons]

/-- **Exact guards**: when, among the states of an invariant, a step from a good state
reaches a good state exactly if it satisfies the guard, a run from a good state stays
good throughout exactly if it is guarded. -/
theorem Run.forall_iff_guarded {guard : σ → ℓ → Prop} {inv good : σ → Prop}
    (hinv : ∀ s l s', inv s → step s l s' → inv s')
    (hstep : ∀ s l s', inv s → good s → step s l s' → (good s' ↔ guard s l)) {s : σ}
    {trace : List (ℓ × σ)} (h : Run step s trace) (hs : inv s) (hg : good s) :
    (∀ p ∈ trace, good p.2) ↔ Guarded guard s trace := by
  induction h with
  | nil => exact ⟨fun _ => trivial, fun _ p hp => absurd hp List.not_mem_nil⟩
  | cons hl _ ih =>
      have hiff := hstep _ _ _ hs hg hl
      have hs' := hinv _ _ _ hs hl
      rw [List.forall_mem_cons, Guarded, ← hiff]
      exact and_congr_right fun hgood => ih hs' hgood

/-- Every step of the run, with the states before and after it, satisfies `law`. -/
def Along (law : σ → ℓ → σ → Prop) : σ → List (ℓ × σ) → Prop
  | _, [] => True
  | s, (l, s') :: trace => law s l s' ∧ Along law s' trace

/-- What every guarded step obeys holds along a guarded run. -/
theorem Run.along_of_guarded {law : σ → ℓ → σ → Prop} {guard : σ → ℓ → Prop}
    (inv : σ → Prop) (hstep : ∀ s l s', inv s → guard s l → step s l s' → law s l s' ∧ inv s')
    {s : σ} {trace : List (ℓ × σ)} (h : Run step s trace) (hs : inv s)
    (hg : Guarded guard s trace) : Along law s trace := by
  induction h with
  | nil => trivial
  | cons hl _ ih =>
      obtain ⟨hg, hg'⟩ := hg
      obtain ⟨hlaw, hs'⟩ := hstep _ _ _ hs hg hl
      exact ⟨hlaw, ih hs' hg'⟩

/-- **Laws of steps**: when a step obeys a law exactly if it satisfies the guard, a run
obeys the law throughout exactly if it is guarded. -/
theorem Run.along_iff_guarded (law : σ → ℓ → σ → Prop) (guard : σ → ℓ → Prop)
    (hstep : ∀ s l s', step s l s' → (law s l s' ↔ guard s l)) {s : σ}
    {trace : List (ℓ × σ)} (h : Run step s trace) :
    Along law s trace ↔ Guarded guard s trace := by
  induction h with
  | nil => exact Iff.rfl
  | cons hl _ ih =>
      have hiff := hstep _ _ _ hl
      rw [Along, Guarded, hiff, ih]

/-! ### Simulations -/

section Simulation

variable {τ m : Type*} {step' : τ → m → τ → Prop} {R : σ → τ → Prop}
  {obs : ℓ × σ → Option (m × τ)}

/-- **Simulation**: when each step is seen as a step of a second system, or not at all, what is
seen of a run is a run of that system. -/
theorem Run.filterMap
    (hstep : ∀ s l s' t, R s t → step s l s' →
      (obs (l, s') = none ∧ R s' t) ∨ ∃ q, obs (l, s') = some q ∧ step' t q.1 q.2 ∧ R s' q.2)
    {s : σ} {t : τ} {trace : List (ℓ × σ)} (h : Run step s trace) (hR : R s t) :
    Run step' t (trace.filterMap obs) := by
  induction h generalizing t with
  | nil => exact .nil t
  | cons hl _ ih =>
      rcases hstep _ _ _ _ hR hl with ⟨hnone, hR'⟩ | ⟨q, hsome, hq, hR'⟩
      · rw [List.filterMap_cons_none hnone]
        exact ih hR'
      · rw [List.filterMap_cons_some hsome]
        exact .cons hq (ih hR')

/-- **Lifting**: when some steps are seen as any good step of the second system, every run of
good steps is what is seen of a run. -/
theorem Run.exists_filterMap_eq {good : m → Prop}
    (hstep : ∀ s t q t', R s t → good q → step' t q t' → ∃ seg, Run step s seg ∧
      seg.filterMap obs = [(q, t')] ∧ R (final s seg) t')
    {t : τ} {seen : List (m × τ)} (h : Run step' t seen) {s : σ} (hR : R s t)
    (hgood : ∀ p ∈ seen, good p.1) : ∃ trace, Run step s trace ∧ trace.filterMap obs = seen := by
  induction h generalizing s with
  | nil => exact ⟨[], .nil s, rfl⟩
  | cons hq _ ih =>
      obtain ⟨hg, hgood⟩ := List.forall_mem_cons.mp hgood
      obtain ⟨seg, hseg, hobs, hR'⟩ := hstep _ _ _ _ hR hg hq
      obtain ⟨trace, hrun, rfl⟩ := ih hR' hgood
      exact ⟨seg ++ trace, hseg.append hrun,
        by rw [List.filterMap_append, hobs, List.singleton_append]⟩

end Simulation

/-! ### Executable systems -/

/-- The step relation of a partial next-state function. -/
def Enabled (next : σ → ℓ → Option σ) (s : σ) (l : ℓ) (s' : σ) : Prop :=
  next s l = some s'

/-- Take the steps with the given labels, if each of them is possible. -/
def traceOf (next : σ → ℓ → Option σ) : σ → List ℓ → Option (List (ℓ × σ))
  | _, [] => some []
  | s, l :: labels =>
      (next s l).bind fun s' => (traceOf next s' labels).map ((l, s') :: ·)

/-- A trace that can be computed is a run. -/
theorem run_of_traceOf {next : σ → ℓ → Option σ} {s : σ} {labels : List ℓ}
    {trace : List (ℓ × σ)} (h : traceOf next s labels = some trace) :
    Run (Enabled next) s trace := by
  induction labels generalizing s trace with
  | nil =>
      obtain rfl := Option.some.inj h
      exact .nil s
  | cons l labels ih =>
      obtain ⟨s', hs, ht⟩ := Option.bind_eq_some_iff.mp h
      obtain ⟨rest, hrest, rfl⟩ := Option.map_eq_some_iff.mp ht
      exact .cons hs (ih hrest)

/-- The trace of labels that can all be taken is a run. -/
theorem run_traceOf {next : σ → ℓ → Option σ} {s : σ} {labels : List ℓ}
    (h : (traceOf next s labels).isSome) :
    Run (Enabled next) s ((traceOf next s labels).getD []) := by
  obtain ⟨trace, ht⟩ := Option.isSome_iff_exists.mp h
  rw [ht]
  exact run_of_traceOf ht

instance decidableGuarded (guard : σ → ℓ → Prop) [∀ s l, Decidable (guard s l)] :
    ∀ (s : σ) (trace : List (ℓ × σ)), Decidable (Guarded guard s trace)
  | _, [] => inferInstanceAs (Decidable True)
  | s, (l, s') :: trace =>
      have := decidableGuarded guard s' trace
      inferInstanceAs (Decidable (guard s l ∧ Guarded guard s' trace))

/-! ### Parties in places -/

variable {ι π : Type*} [Fintype ι]

/-- The number of parties whose place satisfies `p`. -/
def population (p : π → Prop) [DecidablePred p] (place : ι → π) : ℕ :=
  ∑ i, if p (place i) then 1 else 0

/-- **One party moves**: it leaves the count of its old place and enters that of its new
one. -/
theorem population_update [DecidableEq ι] (p : π → Prop) [DecidablePred p] (place : ι → π)
    (i : ι) (x : π) :
    population p (Function.update place i x) + (if p (place i) then 1 else 0) =
      population p place + if p x then 1 else 0 := by
  have hrest : ∑ j ∈ Finset.univ.erase i, (if p (Function.update place i x j) then 1 else 0) =
      ∑ j ∈ Finset.univ.erase i, if p (place j) then 1 else 0 :=
    Finset.sum_congr rfl fun j hj => by
      rw [Function.update_of_ne (Finset.ne_of_mem_erase hj)]
  have hold := Finset.add_sum_erase Finset.univ (fun j => if p (place j) then 1 else 0)
    (Finset.mem_univ i)
  have hnew := Finset.add_sum_erase Finset.univ
    (fun j => if p (Function.update place i x j) then 1 else 0) (Finset.mem_univ i)
  simp only [Function.update_self] at hnew
  rw [population, population, ← hold, ← hnew, hrest]
  omega

/-- With one inhabitant the population is positive. -/
theorem population_pos {p : π → Prop} [DecidablePred p] {place : ι → π} {i : ι}
    (h : p (place i)) : 0 < population p place := by
  have hle := Finset.single_le_sum (f := fun j => if p (place j) then 1 else 0)
    (fun _ _ => Nat.zero_le _) (Finset.mem_univ i)
  simp only [if_pos h] at hle
  exact hle

/-- And the other way round. -/
theorem exists_of_population_pos {p : π → Prop} [DecidablePred p] {place : ι → π}
    (h : 0 < population p place) : ∃ i, p (place i) := by
  obtain ⟨i, -, hi⟩ := Finset.exists_ne_zero_of_sum_ne_zero h.ne'
  exact ⟨i, by_contra fun hn => hi (if_neg hn)⟩

/-- Without any it is zero. -/
theorem population_eq_zero {p : π → Prop} [DecidablePred p] {place : ι → π}
    (h : ∀ i, ¬ p (place i)) : population p place = 0 :=
  Finset.sum_eq_zero fun i _ => if_neg (h i)

end Transition
