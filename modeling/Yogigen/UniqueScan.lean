import Yogigen.Choices
import Mathlib.Data.Fin.VecNotation
import Mathlib.Data.Fintype.Card

/-!
# The Scan for a Unique Expression

The `FSTR_UNIQUE` branch of `random_expression_id`, turn by turn: compare the id with the
next of the four used ids, draw a new one and start over where they are equal, and stop
behind the last. `uniqueBody` treats the comparisons between two draws as one test;
`UniqueScan` is the loop as the code has it, with the position of the scan and the number
of draws so far.

## Main results

* `scan_pass`, `scan_hit`: a scan that is left, and one that starts over.
* `uniqueEnds_iff`: the loop ends with the residue of the first draw that is not used.
* `exists_unused`: an unassigned slot leaves one of four residues unused.
-/

open Supply Supply.Reader Printf

namespace Yogigen

/-! ### The loop -/

/-- The variables of the loop, and the number of draws so far. -/
structure UniqueScan where
  i : ℕ
  resId : UInt16
  drawn : ℕ

/-- One turn of `while (i < 4)`: the next configuration, or the id the loop leaves. -/
def UniqueScan.step (limit : UInt16) (usedIds : Fin 4 → Int16) (draws : ℕ → UInt16)
    (s : UniqueScan) : UniqueScan ⊕ UInt16 :=
  if hi : s.i < 4 then
    if 0 ≤ usedIds ⟨s.i, hi⟩ ∧ (usedIds ⟨s.i, hi⟩).toInt = s.resId.toNat then
      .inl ⟨0, draws s.drawn % limit, s.drawn + 1⟩
    else .inl { s with i := s.i + 1 }
  else .inr s.resId

/-- So many turns: the id the loop was left with, if it was left. -/
def UniqueScan.run (limit : UInt16) (usedIds : Fin 4 → Int16) (draws : ℕ → UInt16) :
    ℕ → UniqueScan → Option UInt16
  | 0, _ => none
  | n + 1, s =>
      match s.step limit usedIds draws with
      | .inl s => run limit usedIds draws n s
      | .inr id => some id

/-- The loop, entered with the first draw, ends with an id. -/
def UniqueEnds (limit : UInt16) (usedIds : Fin 4 → Int16) (draws : ℕ → UInt16) (id : UInt16) :
    Prop :=
  ∃ n, UniqueScan.run limit usedIds draws n ⟨0, draws 0 % limit, 1⟩ = some id

/-- No used id equals the id. -/
def Unused (usedIds : Fin 4 → Int16) (id : UInt16) : Prop :=
  ∀ k, (usedIds k).toInt ≠ id.toNat

/-- The residue of the draw is the first that is not used. -/
def FirstUnused (limit : UInt16) (usedIds : Fin 4 → Int16) (draws : ℕ → UInt16) (k : ℕ) : Prop :=
  Unused usedIds (draws k % limit) ∧ ∀ j < k, ¬ Unused usedIds (draws j % limit)

/-- An index is unused when nothing clashes with it. -/
theorem unused_iff {usedIds : Fin 4 → Int16} {id : UInt16} :
    Unused usedIds id ↔ clashes usedIds id = false := by
  rw [clashes, decide_eq_false_iff_not, not_exists]
  refine forall_congr' fun k => ⟨fun h hk => h hk.2, fun h hk => h ⟨?_, hk⟩⟩
  rw [Int16.le_iff_toInt_le, hk]
  exact Int.natCast_nonneg _

section Loop

variable (limit : UInt16) (draws : ℕ → UInt16) {usedIds : Fin 4 → Int16}

/-- The index has been used, so another one is drawn. -/
theorem step_of_eq {s : UniqueScan} (hi : s.i < 4)
    (h : (usedIds ⟨s.i, hi⟩).toInt = s.resId.toNat) :
    s.step limit usedIds draws = .inl ⟨0, draws s.drawn % limit, s.drawn + 1⟩ := by
  have hpos : 0 ≤ usedIds ⟨s.i, hi⟩ := by
    rw [Int16.le_iff_toInt_le, h]
    exact Int.natCast_nonneg _
  rw [UniqueScan.step, dif_pos hi, if_pos ⟨hpos, h⟩]

/-- It is compared with the next one that has been used. -/
theorem step_of_ne {s : UniqueScan} (hi : s.i < 4)
    (h : (usedIds ⟨s.i, hi⟩).toInt ≠ s.resId.toNat) :
    s.step limit usedIds draws = .inl { s with i := s.i + 1 } := by
  rw [UniqueScan.step, dif_pos hi, if_neg fun hk => h hk.2]

/-- **An unused id passes**: the scan runs to the end of the used ids. -/
theorem scan_pass (m : ℕ) :
    ∀ {s : UniqueScan}, s.i + m = 4 → Unused usedIds s.resId →
      UniqueScan.run limit usedIds draws (m + 1) s = some s.resId := by
  induction m with
  | zero =>
      intro s hi _
      rw [UniqueScan.run, UniqueScan.step, dif_neg (by omega)]
  | succ m ih =>
      intro s hi hunused
      rw [UniqueScan.run, step_of_ne limit draws (by omega) (hunused _)]
      exact ih (s := { s with i := s.i + 1 }) (by dsimp only; omega) hunused

/-- **A used id is met**: some turns later the scan starts over with the next draw. -/
theorem scan_hit (m : ℕ) :
    ∀ {s : UniqueScan}, s.i + m = 4 →
      (∃ k : Fin 4, s.i ≤ k ∧ (usedIds k).toInt = s.resId.toNat) →
      ∃ n, 0 < n ∧ (∀ fuel, UniqueScan.run limit usedIds draws (n + fuel) s =
          UniqueScan.run limit usedIds draws fuel ⟨0, draws s.drawn % limit, s.drawn + 1⟩) ∧
        ∀ fuel ≤ n, UniqueScan.run limit usedIds draws fuel s = none := by
  induction m with
  | zero =>
      rintro s hi ⟨k, hk, -⟩
      omega
  | succ m ih =>
      rintro s hi ⟨k, hk, heq⟩
      have hlt : s.i < 4 := by omega
      by_cases hhere : (usedIds ⟨s.i, hlt⟩).toInt = s.resId.toNat
      · refine ⟨1, Nat.one_pos, fun fuel => ?_, fun fuel hfuel => ?_⟩
        · rw [Nat.add_comm, UniqueScan.run, step_of_eq limit draws hlt hhere]
        · cases fuel with
          | zero => rfl
          | succ fuel =>
              obtain rfl : fuel = 0 := by omega
              rw [UniqueScan.run, step_of_eq limit draws hlt hhere]
              rfl
      · have hne : s.i ≠ k := by
          intro h
          exact hhere (by simpa only [h] using heq)
        obtain ⟨n, -, hrun, hnone⟩ := ih (s := { s with i := s.i + 1 })
          (by dsimp only; omega) ⟨k, by dsimp only; omega, heq⟩
        refine ⟨n + 1, Nat.succ_pos n, fun fuel => ?_, fun fuel hfuel => ?_⟩
        · rw [Nat.add_right_comm, UniqueScan.run, step_of_ne limit draws hlt hhere]
          exact hrun fuel
        · cases fuel with
          | zero => rfl
          | succ fuel =>
              rw [UniqueScan.run, step_of_ne limit draws hlt hhere]
              exact hnone fuel (by omega)

/-- A used index is met. -/
theorem hit_of_not_unused {id : UInt16} (h : ¬ Unused usedIds id) :
    ∃ k : Fin 4, 0 ≤ (k : ℕ) ∧ (usedIds k).toInt = id.toNat := by
  obtain ⟨k, hk⟩ := not_forall.mp h
  exact ⟨k, Nat.zero_le _, not_not.mp hk⟩

/-- From a draw on, the loop ends with the first residue that is not used. -/
theorem run_of_first (k : ℕ) :
    ∀ {drawn : ℕ} {id : UInt16}, (id = draws drawn % limit) →
      (∀ j < k, ¬ Unused usedIds (draws (drawn + j) % limit)) →
      Unused usedIds (draws (drawn + k) % limit) →
      ∃ n, UniqueScan.run limit usedIds draws n ⟨0, id, drawn + 1⟩ =
        some (draws (drawn + k) % limit) := by
  induction k with
  | zero =>
      rintro drawn id rfl - hunused
      exact ⟨4 + 1, scan_pass limit draws 4 (s := ⟨0, draws drawn % limit, drawn + 1⟩) rfl hunused⟩
  | succ k ih =>
      rintro drawn id rfl hused hunused
      obtain ⟨n, hn⟩ := @ih (drawn + 1) _ rfl
        (fun j hj => by
          rw [Nat.add_right_comm]
          exact hused (j + 1) (by omega))
        (by
          rw [Nat.add_right_comm]
          exact hunused)
      obtain ⟨m, -, hrun, -⟩ := scan_hit limit draws 4
        (s := ⟨0, draws drawn % limit, drawn + 1⟩) rfl
        (hit_of_not_unused (hused 0 (Nat.succ_pos k)))
      refine ⟨m + n, (hrun n).trans ?_⟩
      rw [Nat.add_right_comm drawn 1 k] at hn
      exact hn

/-- While every residue is used, the loop goes on. -/
theorem run_eq_none (hused : ∀ k, ¬ Unused usedIds (draws k % limit)) (fuel : ℕ) :
    ∀ {drawn : ℕ}, UniqueScan.run limit usedIds draws fuel ⟨0, draws drawn % limit, drawn + 1⟩ =
      none := by
  induction fuel using Nat.strong_induction_on with
  | _ fuel ih =>
      intro drawn
      obtain ⟨n, hpos, hrun, hnone⟩ := scan_hit limit draws 4
        (s := ⟨0, draws drawn % limit, drawn + 1⟩) rfl (hit_of_not_unused (hused drawn))
      by_cases hle : fuel ≤ n
      · exact hnone fuel hle
      · obtain ⟨rest, rfl⟩ := Nat.exists_eq_add_of_le (by omega : n ≤ fuel)
        exact (hrun rest).trans (ih rest (by omega))

/-- The scan has one result only. -/
theorem run_unique {m n : ℕ} {s : UniqueScan} {a b : UInt16}
    (ha : UniqueScan.run limit usedIds draws m s = some a)
    (hb : UniqueScan.run limit usedIds draws n s = some b) : a = b := by
  induction m generalizing n s with
  | zero => exact absurd ha (by simp [UniqueScan.run])
  | succ m ih =>
      cases n with
      | zero => exact absurd hb (by simp [UniqueScan.run])
      | succ n =>
          rw [UniqueScan.run] at ha hb
          cases hstep : s.step limit usedIds draws with
          | inl s' =>
              rw [hstep] at ha hb
              exact ih ha hb
          | inr id =>
              rw [hstep] at ha hb
              exact Option.some.inj (ha.symm.trans hb)

/-- There is a first unused draw if there is one at all. -/
theorem exists_firstUnused_iff :
    (∃ k, FirstUnused limit usedIds draws k) ↔ ∃ k, Unused usedIds (draws k % limit) := by
  classical
  constructor
  · rintro ⟨k, hk, -⟩
    exact ⟨k, hk⟩
  · intro h
    exact ⟨Nat.find h, Nat.find_spec h, fun j hj => Nat.find_min h hj⟩

/-- **How the loop ends**: with the residue of the first draw that is not used. -/
theorem uniqueEnds_iff {id : UInt16} :
    UniqueEnds limit usedIds draws id ↔
      ∃ k, FirstUnused limit usedIds draws k ∧ id = draws k % limit := by
  have hends : ∀ k, FirstUnused limit usedIds draws k →
      UniqueEnds limit usedIds draws (draws k % limit) := by
    rintro k ⟨hunused, hused⟩
    have hrun := @run_of_first limit draws usedIds k 0 _ rfl (by simpa using hused)
      (by simpa using hunused)
    simpa [UniqueEnds] using hrun
  constructor
  · intro hid
    by_cases h : ∃ k, Unused usedIds (draws k % limit)
    · obtain ⟨k, hk⟩ := (exists_firstUnused_iff limit draws).mpr h
      obtain ⟨m, hm⟩ := hid
      obtain ⟨n, hn⟩ := hends k hk
      exact ⟨k, hk, run_unique limit draws hm hn⟩
    · obtain ⟨n, hn⟩ := hid
      rw [run_eq_none limit draws (not_exists.mp h)] at hn
      exact absurd hn (by simp)
  · rintro ⟨k, hk, rfl⟩
    exact hends k hk

end Loop

/-! ### Unused residues -/

/-- **Three ids cannot cover four residues**: where one of the four slots is unassigned and
there are at least four expressions, one of them is not used. -/
theorem exists_unused {usedIds : Fin 4 → Int16} {k : Fin 4} (hk : usedIds k = -1)
    {limit : UInt16} (hlimit : 4 ≤ limit) : ∃ id < limit, Unused usedIds id := by
  by_contra hall
  have hsmall : ∀ r : Fin 4, (UInt16.ofNat r).toNat = r := by decide
  have hslot : ∀ r : Fin 4, ∃ k, (usedIds k).toInt = (r : ℕ) := by
    intro r
    have hlt : UInt16.ofNat r < limit := by
      have h4 : (4 : UInt16).toNat ≤ limit.toNat := UInt16.le_iff_toNat_le.mp hlimit
      rw [UInt16.lt_iff_toNat_lt, hsmall]
      exact lt_of_lt_of_le r.isLt h4
    obtain ⟨k, -, hk⟩ := hit_of_not_unused fun h => hall ⟨_, hlt, h⟩
    exact ⟨k, by rw [hk, hsmall]⟩
  choose slotOf hslotOf using hslot
  -- four residues in four slots leave no slot over
  have hinj : Function.Injective slotOf := by
    intro r r' h
    have hr := hslotOf r
    rw [h, hslotOf r'] at hr
    exact Fin.ext (by omega)
  obtain ⟨r, hr⟩ := Finite.surjective_of_injective hinj k
  have hneg := hslotOf r
  rw [hr, hk] at hneg
  exact absurd hneg (by rw [show (-1 : Int16).toInt = -1 from rfl]; omega)

/-! ### The branch of `random_expression_id` -/

/-- A residue is never the index reserved for errors. -/
theorem mod_ne_errorIdx (rnd : UInt16) {limit : UInt16} (h0 : limit ≠ 0) :
    rnd % limit ≠ errorIdx := by
  intro h
  have hlt := UInt16.lt_iff_toNat_lt.mp (UInt16.mod_lt rnd (UInt16.pos_iff_ne_zero.mpr h0))
  rw [h] at hlt
  have hmax := limit.toNat_lt
  rw [show errorIdx.toNat = 65535 from rfl] at hlt
  omega

section Branch

variable {y : YogiGen} {type : ExprType} {usedIds : Fin 4 → Int16} {draws : ℕ → UInt16}

/-- The first draw with an unused residue is the last that is asked for. -/
theorem yields_unique_of_first {k : ℕ} (hcount : (y.table type).count ≠ 0)
    (h : FirstUnused (y.table type).count usedIds draws k) :
    (randomExpressionId y type .unique usedIds).Yields
      (prefixOf (fun j => some (draws j)) (k + 1)) (draws k % (y.table type).count) := by
  obtain ⟨hunused, hused⟩ := h
  have hid := mod_ne_errorIdx (draws k) hcount
  have hsettles := @settles_of_first (y.table type).count usedIds k draws
    (fun j hj => Bool.eq_true_of_not_eq_false fun hc => hused j hj (unused_iff.mpr hc))
    (unused_iff.mp hunused)
  rw [prefixOf_succ]
  exact (yields_randomExpressionId_iff hid).mpr
    ⟨draws 0, _, rfl, hcount, (yields_unique_iff hid).mpr hsettles⟩

/-- Without an unused residue among the draws, the branch asks for ever. -/
theorem unique_starved (hcount : (y.table type).count ≠ 0)
    (hused : ∀ k, ¬ Unused usedIds (draws k % (y.table type).count)) (n : ℕ) :
    (randomExpressionId y type .unique usedIds).run (prefixOf (fun j => some (draws j)) n) =
      .starved := by
  have hclash : ∀ k, clashes usedIds (draws k % (y.table type).count) = true :=
    fun k => Bool.eq_true_of_not_eq_false fun hc => hused k (unused_iff.mpr hc)
  cases n with
  | zero => rfl
  | succ n =>
      rw [prefixOf_succ, randomExpressionId, run_bind, run_next_cons]
      dsimp only
      rw [if_neg hcount]
      exact uniqueLoop_starved n (hclash 0) fun k => hclash (k + 1)

/-- **The unique flag.** For every table that is not empty, every four used ids and every
sequence of draws: the retry loop ends if and only if some draw has a residue that is not
used, with the residue of the first such draw, and this is what the branch returns; where
all residues are used it never ends; and as long as one slot is unassigned, one of four
residues is not used. -/
theorem unique_ends (draws : ℕ → UInt16) (hcount : (y.table type).count ≠ 0) :
    ((∃ id, UniqueEnds (y.table type).count usedIds draws id) ↔
      ∃ k, Unused usedIds (draws k % (y.table type).count)) ∧
    (∀ id, UniqueEnds (y.table type).count usedIds draws id ↔
      ∃ k, FirstUnused (y.table type).count usedIds draws k ∧
        id = draws k % (y.table type).count) ∧
    (∀ id, (∃ n, (randomExpressionId y type .unique usedIds).Yields
        (prefixOf (fun j => some (draws j)) n) id) ↔
      UniqueEnds (y.table type).count usedIds draws id) ∧
    ((∀ id < (y.table type).count, ¬ Unused usedIds id) → ∀ n,
      (randomExpressionId y type .unique usedIds).run (prefixOf (fun j => some (draws j)) n) =
        .starved) ∧
    (∀ (s : SubstitutionData) (d : Descriptor), d.type = type → s.slot d = -1 →
      4 ≤ (y.table type).count → ∃ id < (y.table type).count, Unused (s.typewiseIdx type) id) := by
  refine ⟨?_, fun id => uniqueEnds_iff _ _, fun id => ⟨?_, ?_⟩, fun hall => ?_, ?_⟩
  · rw [← exists_firstUnused_iff]
    simp only [uniqueEnds_iff]
    exact ⟨fun ⟨_, k, hk, _⟩ => ⟨k, hk⟩, fun ⟨k, hk⟩ => ⟨_, k, hk, rfl⟩⟩
  · rintro ⟨n, hy⟩
    by_cases h : ∃ k, Unused usedIds (draws k % (y.table type).count)
    · obtain ⟨k, hk⟩ := (exists_firstUnused_iff _ _).mpr h
      obtain ⟨-, rfl⟩ := hy.unique (yields_unique_of_first hcount hk)
        (m := prefixOf (fun j => some (draws (n + j))) (k + 1))
        (n := prefixOf (fun j => some (draws (k + 1 + j))) n) (by
          rw [← prefixOf_add (fun j => some (draws j)), ← prefixOf_add (fun j => some (draws j)),
            Nat.add_comm])
      exact (uniqueEnds_iff _ _).mpr ⟨k, hk, rfl⟩
    · have hstarved := unique_starved hcount (not_exists.mp h) n
      exact absurd (hy.run.symm.trans hstarved) (by simp)
  · intro hends
    obtain ⟨k, hk, rfl⟩ := (uniqueEnds_iff _ _).mp hends
    exact ⟨k + 1, yields_unique_of_first hcount hk⟩
  · exact unique_starved hcount fun k =>
      hall _ (UInt16.mod_lt _ (UInt16.pos_iff_ne_zero.mpr hcount))
  · rintro s d rfl hslot hfour
    exact exists_unused hslot hfour

end Branch

/-- A state with five verbs. -/
def fiveVerbs : YogiGen where
  verbs := .ofRows (List.replicate 5 ⟨0, 0, ascii "be", ascii "is"⟩)
  adjs := .ofRows []
  cepts := .ofRows []
  objs := .ofRows []
  formats := .ofRows []
  conn := ⟨none, [], 0, maxConnNumber, 0⟩

/-- Three of five verbs are used, and the fourth draw is the first of another one. -/
theorem unique_ends_fourth_draw :
    UniqueEnds (fiveVerbs.table .verb).count ![0, 1, 2, -1] (fun k => .ofNat k) 3 := by
  have hends := (@unique_ends fiveVerbs .verb ![0, 1, 2, -1] (fun k => .ofNat k)
    (by decide)).2.1 3
  exact hends.mpr ⟨3, ⟨by simp only [Unused]; decide, by simp only [Unused]; decide⟩, by decide⟩

end Yogigen
