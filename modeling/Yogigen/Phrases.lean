import Yogigen.Calls
import Yogigen.Casts

/-!
# The Phrases that Can Come Out

Which phrases `YogiGen_generate` can make, without the draws: what an admissible cast makes of
a format of the tables.

## Main results

* `exists_draws_iff`, `exists_run_iff`: the phrases of one call, and of any number of calls.
* `calls_prefixed`: what calls do to the texts of the tables.
-/

open Printf Supply Supply.Reader Transition

namespace Yogigen

/-! ### Phrases -/

/-- What a format of the tables makes of an admissible cast, and the tables after it. -/
def Phrase (y : YogiGen) (out : Bytes) (y' : YogiGen) : Prop :=
  ∃ f ∈ y.formats.entries, f.count.toNat ≤ 8 ∧ ∃ σ : Cast, σ.Admissible y f.data f.count.toNat ∧
    substituteAndPrettify y ((σ.data f.data f.count.toNat).withFormat f) = .ok (some (out, y'))

/-- Some draw selects each format. -/
theorem exists_getFormats_iff {y : YogiGen} {f : FormatString} :
    (∃ rnd : UInt16, y.formats.count ≠ 0 ∧ getFormats y (rnd % y.formats.count) = some f) ↔
      f ∈ y.formats.entries := by
  constructor
  · rintro ⟨rnd, -, h⟩
    rw [getFormats] at h
    split_ifs at h with hlt
    exact List.mem_of_getElem? h
  · intro h
    obtain ⟨i, hi, rfl⟩ := List.getElem_of_mem h
    have hcount := Table.toNat_count y.formats
    have hsmall := y.formats.small
    have hidx : (UInt16.ofNat i).toNat = i := UInt16.toNat_ofNat_of_lt' (by
      rw [UInt16.size]
      omega)
    have hlt : UInt16.ofNat i < y.formats.count := by
      rw [UInt16.lt_iff_toNat_lt, hidx, hcount]
      exact hi
    refine ⟨.ofNat i, fun h0 => ?_, ?_⟩
    · rw [h0] at hlt
      exact UInt16.not_lt_zero hlt
    · rw [UInt16.mod_eq_of_lt hlt, getFormats, if_pos hlt, hidx, List.getElem?_eq_getElem hi]

/-- **A phrase is made** of what the draws select. -/
theorem yields_composePhrase_iff {y y' : YogiGen} {draws : List (Option UInt16)} {out : Bytes} :
    (composePhrase y).Yields draws (some (out, y')) ↔ ∃ f s, Chooses y draws f s ∧
      substituteAndPrettify y (s.withFormat f) = .ok (some (out, y')) := by
  constructor
  · exact chooses_of_yields
  · rintro ⟨f, s, hchooses, hsub⟩
    cases hchooses with
    | @intro rnd rest _ _ h0 hf hs =>
        refine yields_bind_iff.mpr ⟨[some rnd], rest, some f, rfl,
          yields_randomFormats_iff.mpr ⟨rnd, rfl, h0, hf⟩, ?_⟩
        refine yields_bind_iff.mpr ⟨rest, [], some (s.withFormat f), (List.append_nil _).symm,
          yields_processFormats_iff.mpr ⟨s, hs, rfl⟩, ?_⟩
        exact yields_ofExcept_iff.mpr ⟨rfl, hsub⟩

/-- **The phrases of one call.** -/
theorem exists_draws_iff {y y' : YogiGen} {out : Bytes} :
    (∃ draws, (composePhrase y).Yields draws (some (out, y'))) ↔ Phrase y out y' := by
  constructor
  · rintro ⟨draws, h⟩
    obtain ⟨f, s, hchooses, hsub⟩ := yields_composePhrase_iff.mp h
    cases hchooses with
    | @intro rnd rest _ _ h0 hf hs =>
        obtain ⟨σ, hσ, rfl⟩ := (selects_iff_deals hs.count_le).mp hs
        exact ⟨f, exists_getFormats_iff.mp ⟨rnd, h0, hf⟩, hs.count_le, σ, hσ.admissible, hsub⟩
  · rintro ⟨f, hmem, hcount, σ, hσ, hsub⟩
    obtain ⟨rnd, h0, hf⟩ := exists_getFormats_iff.mpr hmem
    obtain ⟨rest, hdeals⟩ := exists_deals_iff.mpr hσ
    have hs := hdeals.selects hcount
    exact ⟨some rnd :: rest, yields_composePhrase_iff.mpr ⟨f, _, .intro h0 hf hs, hsub⟩⟩

/-! ### Runs of calls -/

/-- Phrases one after another, each of the tables that the one before it has left. -/
inductive Phrases : YogiGen → List Bytes → YogiGen → Prop
  | nil (y : YogiGen) : Phrases y [] y
  | cons {y y₁ y' : YogiGen} {out : Bytes} {outs : List Bytes} :
      Phrase y out y₁ → Phrases y₁ outs y' → Phrases y (out :: outs) y'

/-- A call that makes a phrase, on the loaded object. -/
theorem calls_loaded_iff {y : YogiGen} {draws : List (Option UInt16)} {out : Bytes} {o' : Object} :
    Calls (.loaded y) ⟨draws, some out⟩ o' ↔
      ∃ y', o' = .loaded y' ∧ (composePhrase y).Yields draws (some (out, y')) := by
  constructor
  · intro h
    obtain ⟨y₁, hc, ⟨out', y', hr, rfl, hy⟩ | ⟨hr, -, -⟩⟩ := generate_cases h
    · obtain rfl := Option.some.inj hc
      obtain rfl := Option.some.inj hr
      exact ⟨y', rfl, hy⟩
    · cases hr
  · rintro ⟨y', rfl, hy⟩
    refine yields_bind_iff.mpr ⟨draws, [], some (out, y'), (List.append_nil _).symm, hy, ?_⟩
    exact yields_pure_iff.mpr ⟨rfl, rfl⟩

/-- A call that returns NULL releases the object. -/
theorem calls_null {o o' : Object} {draws : List (Option UInt16)}
    (h : Calls o ⟨draws, none⟩ o') : o'.contents = none := by
  obtain ⟨y, -, ⟨out, y', hr, -, -⟩ | ⟨-, rfl, -⟩⟩ := generate_cases h
  · cases hr
  · rfl

/-- Calls that all make a phrase leave a loaded object, and make what the formats and
admissible casts make one after another. -/
theorem phrases_of_run {y : YogiGen} {outs : List Bytes} {trace : List (GenCall × Object)}
    (hrun : Run Calls (.loaded y) trace)
    (houts : trace.map (fun p => p.1.phrase) = outs.map some) :
    ∃ y', final (.loaded y) trace = .loaded y' ∧ Phrases y outs y' := by
  induction outs generalizing y trace with
  | nil =>
      obtain rfl := List.map_eq_nil_iff.mp houts
      exact ⟨y, rfl, .nil y⟩
  | cons out outs ih =>
      obtain ⟨⟨⟨draws, phrase⟩, o'⟩, trace, rfl, rfl, hrest⟩ := List.map_eq_cons_iff.mp houts
      obtain ⟨hcall, hrun⟩ := hrun.cons_inv
      obtain ⟨y₁, rfl, hy⟩ := calls_loaded_iff.mp hcall
      obtain ⟨y', hfinal, hphrases⟩ := ih hrun hrest
      exact ⟨y', hfinal, .cons (exists_draws_iff.mp ⟨draws, hy⟩) hphrases⟩

/-- What they make, some calls return. -/
theorem run_of_phrases {y y' : YogiGen} {outs : List Bytes} (h : Phrases y outs y') :
    ∃ trace, Run Calls (.loaded y) trace ∧ final (.loaded y) trace = .loaded y' ∧
      trace.map (fun p => p.1.phrase) = outs.map some := by
  induction h with
  | nil y => exact ⟨[], .nil _, rfl, rfl⟩
  | @cons y y₁ y' out outs hphrase _ ih =>
      obtain ⟨draws, hy⟩ := exists_draws_iff.mpr hphrase
      obtain ⟨trace, hrun, hfinal, houts⟩ := ih
      refine ⟨(⟨draws, some out⟩, .loaded y₁) :: trace, ?_, hfinal, ?_⟩
      · exact .cons (calls_loaded_iff.mpr ⟨y₁, rfl, hy⟩) hrun
      · rw [List.map_cons, List.map_cons, houts]

/-- **The phrases of any number of calls**: what a run returns, with the tables that it
leaves, is what the formats and admissible casts make one after another. -/
theorem exists_run_iff {y y' : YogiGen} {outs : List Bytes} :
    (∃ trace, Run Calls (.loaded y) trace ∧ final (.loaded y) trace = .loaded y' ∧
      trace.map (fun p => p.1.phrase) = outs.map some) ↔ Phrases y outs y' := by
  constructor
  · rintro ⟨trace, hrun, hfinal, houts⟩
    obtain ⟨y₁, hfinal₁, hphrases⟩ := phrases_of_run hrun houts
    obtain rfl := Option.some.inj (congrArg Object.contents (hfinal.symm.trans hfinal₁))
    exact hphrases
  · exact run_of_phrases

/-! ### The texts of the tables -/

/-- The prefix that a corrected article leaves, a number of times. -/
def marks (k : ℕ) : Bytes :=
  (List.replicate k (ascii "n ")).flatten

/-- An entry with prefixes, if it is one that wants `an`. -/
structure Expression.Prefixed (e e' : Expression) : Prop where
  type : e'.type = e.type
  flags : e'.flags = e.flags
  text : ∀ mode, ∃ k, e'.field mode = marks k ++ e.field mode ∧ (e.flags ≠ aOflagAn → k = 0)

/-- Tables with prefixes, and the same formats. -/
structure Prefixed (y y' : YogiGen) : Prop where
  table : ∀ type, List.Forall₂ Expression.Prefixed (y.table type).entries (y'.table type).entries
  formats : y'.formats = y.formats

/-- Prefixes one after another. -/
theorem marks_add (m n : ℕ) : marks (m + n) = marks m ++ marks n := by
  rw [marks, List.replicate_add, List.flatten_append]
  rfl

/-- No prefix is one of length zero. -/
theorem Expression.Prefixed.refl (e : Expression) : e.Prefixed e :=
  ⟨rfl, rfl, fun _ => ⟨0, rfl, fun _ => rfl⟩⟩

/-- More prefixes. -/
theorem Expression.Prefixed.trans {e e' e'' : Expression} (h : e.Prefixed e')
    (h' : e'.Prefixed e'') : e.Prefixed e'' := by
  refine ⟨h'.type.trans h.type, h'.flags.trans h.flags, fun mode => ?_⟩
  obtain ⟨k, htext, hk⟩ := h.text mode
  obtain ⟨k', htext', hk'⟩ := h'.text mode
  refine ⟨k' + k, ?_, fun hne => ?_⟩
  · rw [htext', htext, marks_add, List.append_assoc]
  · rw [hk hne, hk' (h.flags ▸ hne)]

/-- The tables as they are. -/
theorem Prefixed.refl (y : YogiGen) : Prefixed y y :=
  ⟨fun _ => List.forall₂_same.mpr fun e _ => .refl e, rfl⟩

/-- The tables after more phrases. -/
theorem Prefixed.trans {y y' y'' : YogiGen} (h : Prefixed y y') (h' : Prefixed y' y'') :
    Prefixed y y'' := by
  refine ⟨fun type => ?_, h'.formats.trans h.formats⟩
  have hlen := (h.table type).length_eq
  have hlen' := (h'.table type).length_eq
  refine List.forall₂_iff_get.mpr ⟨hlen.trans hlen', fun i hi hi'' => ?_⟩
  have hfst := (List.forall₂_iff_get.mp (h.table type)).2 i hi (hlen ▸ hi)
  exact hfst.trans ((List.forall₂_iff_get.mp (h'.table type)).2 i (hlen ▸ hi) hi'')

/-- A corrected article is one more prefix. -/
theorem Expression.prefixed_withPrefix {e : Expression} (h : e.flags = aOflagAn) (mode : Bool) :
    e.Prefixed (e.withPrefix mode) := by
  have hprefix : binsert (e.field mode) 0 [110, 32] 32 = marks 1 ++ e.field mode := by
    rw [binsert_zero]
    rfl
  have hkeep : ∃ k, e.field (!mode) = marks k ++ e.field (!mode) ∧ (e.flags ≠ aOflagAn → k = 0) :=
    ⟨0, rfl, fun _ => rfl⟩
  have hnew : ∃ k, marks 1 ++ e.field mode = marks k ++ e.field mode ∧
      (e.flags ≠ aOflagAn → k = 0) :=
    ⟨1, rfl, fun hne => absurd h hne⟩
  rw [Expression.withPrefix, hprefix]
  cases mode with
  | false =>
      refine ⟨rfl, rfl, ?_⟩
      rintro (_ | _)
      · exact hnew
      · exact hkeep
  | true =>
      refine ⟨rfl, rfl, ?_⟩
      rintro (_ | _)
      · exact hkeep
      · exact hnew

/-- Writing one entry. -/
theorem prefixed_setExpression {y : YogiGen} {idx : UInt16} {type : ExprType} {e e' : Expression}
    (h : getExpression y idx type = some e) (he : e.Prefixed e') :
    Prefixed y (y.setExpression idx type e') := by
  refine ⟨fun type' => ?_, by cases type <;> rfl⟩
  rw [table_setExpression]
  split_ifs with htype
  · subst htype
    rw [getExpression_eq] at h
    refine List.forall₂_iff_get.mpr ⟨List.length_set.symm, fun i hi hi' => ?_⟩
    simp only [List.get_eq_getElem, List.getElem_set]
    split_ifs with hidx
    · subst hidx
      rw [List.getElem?_eq_getElem hi, Option.some.injEq] at h
      exact h ▸ he
    · exact .refl _
  · exact List.forall₂_same.mpr fun e _ => .refl e

/-- **One step** of the loop only adds a prefix. -/
theorem substituteStep_prefixed {y y' : YogiGen} {s : SubstitutionData} {i : Fin 8}
    {out out' : Bytes} (h : substituteStep y s i out = some (y', out')) : Prefixed y y' := by
  obtain ⟨e, hl, ⟨⟨-, e', he', hflags⟩, rfl⟩ | ⟨-, rfl⟩⟩ := substituteStep_cases h
  · obtain rfl := Option.some.inj (hl.symm.trans he')
    exact prefixed_setExpression hl (Expression.prefixed_withPrefix hflags (s.modes i))
  · exact .refl _

/-- So does the whole loop. -/
theorem substituteLoop_prefixed {s : SubstitutionData} {n i : ℕ} {y y' : YogiGen}
    {out out' : Bytes} (h : substituteLoop s n i y out = .ok (some (y', out'))) :
    Prefixed y y' := by
  induction n generalizing i y out with
  | zero =>
      obtain ⟨hi, hs⟩ := substituteLoop_zero_iff.mp h
      exact substituteStep_prefixed hs
  | succ n ih =>
      obtain ⟨hi, y₁, out₁, hs, hrest⟩ := substituteLoop_succ_iff.mp h
      exact (substituteStep_prefixed hs).trans (ih hrest)

/-- **What a phrase does to the tables.** -/
theorem Phrase.prefixed {y y' : YogiGen} {out : Bytes} (h : Phrase y out y') : Prefixed y y' := by
  obtain ⟨f, -, -, σ, -, hsub⟩ := h
  obtain ⟨out₀, hloop, -⟩ := substituteAndPrettify_ok_iff.mp hsub
  exact substituteLoop_prefixed hloop

/-- **The tables over a run.** After any calls the object is released, or its tables are the
loaded ones but for prefixes of entries that want `an`; and a phrase is one of such tables. -/
theorem calls_prefixed {y : YogiGen} {trace : List (GenCall × Object)}
    (h : Run Calls (.loaded y) trace) :
    ∀ p ∈ trace, (p.2.contents = none ∧ p.1.phrase = none) ∨
      ∃ y₁ y' out, p.1.phrase = some out ∧ p.2 = .loaded y' ∧ Prefixed y y₁ ∧ Phrase y₁ out y' ∧
        Prefixed y y' := by
  intro p hp
  have hstep : ∀ o call o', (o.contents = none ∨ ∃ y', o = .loaded y' ∧ Prefixed y y') →
      Calls o call o' → (o'.contents = none ∨ ∃ y', o' = .loaded y' ∧ Prefixed y y') := by
    rintro o ⟨draws, phrase⟩ o' (hc | ⟨y', rfl, hy'⟩) hcall
    · exact absurd hcall (not_calls_released hc)
    · cases phrase with
      | none => exact .inl (calls_null hcall)
      | some out =>
          obtain ⟨y₂, rfl, hy⟩ := calls_loaded_iff.mp hcall
          exact .inr ⟨y₂, rfl, hy'.trans (exists_draws_iff.mp ⟨draws, hy⟩).prefixed⟩
  obtain ⟨o, ho, hcall⟩ := h.exists_step hstep (.inr ⟨y, rfl, .refl y⟩) hp
  rcases ho with hc | ⟨y₁, rfl, hy₁⟩
  · exact absurd hcall (not_calls_released hc)
  · obtain ⟨⟨draws, phrase⟩, o'⟩ := p
    cases phrase with
    | none => exact .inl ⟨calls_null hcall, rfl⟩
    | some out =>
        obtain ⟨y', rfl, hy⟩ := calls_loaded_iff.mp hcall
        have hphrase := exists_draws_iff.mp ⟨draws, hy⟩
        exact .inr ⟨y₁, y', out, rfl, rfl, hy₁, hphrase, hy₁.trans hphrase.prefixed⟩

/-- The umbrella has two prefixes after two calls. -/
theorem calls_prefixed_umbrella :
    ∃ y, Prefixed umbrella y ∧
      Phrase y (ascii "An n umbrella.") (umbrellaWith (ascii "n n umbrella")) ∧
      Prefixed umbrella (umbrellaWith (ascii "n n umbrella")) := by
  rcases calls_prefixed run_umbrellaTrace _ (List.mem_cons_of_mem _ List.mem_cons_self) with
    ⟨-, hnull⟩ | ⟨y₁, y', out, hout, ho, h⟩
  · cases hnull
  · obtain rfl := Option.some.inj hout
    obtain rfl := Option.some.inj (congrArg Object.contents ho)
    exact ⟨y₁, h⟩

end Yogigen
