import Yogigen.Calls
import Yogigen.Capitals

/-!
# The Bytes of a Phrase

A phrase is made of the bytes of its format and of its expressions, of the `n ` of
corrected articles and of capital letters. Any other byte stays out of every phrase, and
out of the tables, however long the server runs.

## Main results

* `Lacks.phrase`: a byte that the loaded texts lack is in no phrase of a run.
* `zero_notMem_phrase`: no phrase of a run from a loaded state contains a NUL.
-/

open Printf Transition Positions

namespace Yogigen

/-! ### Bytes that no text contains -/

/-- No expression of the tables contains the byte. -/
def FreeOf (c : UInt8) (y : YogiGen) : Prop :=
  ∀ type, ∀ e ∈ (y.table type).entries, ∀ mode, c ∉ e.field mode

/-- No expression and no format contains the byte. -/
structure Lacks (c : UInt8) (y : YogiGen) : Prop where
  expressions : FreeOf c y
  formats : ∀ f ∈ y.formats.entries, c ∉ f.str

/-- What is looked up is free of the byte. -/
theorem FreeOf.lookup {c : UInt8} {y : YogiGen} (h : FreeOf c y) {s : SubstitutionData}
    {i : Fin 8} {e : Expression} (he : lookup y s i = some e) (mode : Bool) :
    c ∉ e.field mode := by
  rw [Yogigen.lookup, getExpression_eq] at he
  exact h _ e (List.mem_of_getElem? he) mode

/-- An entry that is free of it keeps the tables so. -/
theorem FreeOf.setExpression {c : UInt8} {y : YogiGen} (h : FreeOf c y) {e : Expression}
    (he : ∀ mode, c ∉ e.field mode) (idx : UInt16) (type : ExprType) :
    FreeOf c (y.setExpression idx type e) := by
  intro type' e' he'
  rw [table_setExpression] at he'
  split_ifs at he'
  · rcases List.mem_or_eq_of_mem_set he' with hold | rfl
    · exact h type e' hold
    · exact he
  · exact h type' e' he'

/-- The field with the prefix. -/
theorem field_withPrefix (e : Expression) (mode : Bool) :
    (e.withPrefix mode).field mode = [110, 32] ++ e.field mode := by
  rw [Expression.withPrefix, field_setField, binsert_zero]

/-- The other field. -/
theorem field_withPrefix_of_ne (e : Expression) {mode mode' : Bool} (h : mode' ≠ mode) :
    (e.withPrefix mode).field mode' = e.field mode' := by
  cases mode <;> cases mode' <;> first | rfl | exact absurd rfl h

/-- The formats are left alone. -/
theorem formats_setExpression (y : YogiGen) (idx : UInt16) (type : ExprType) (e : Expression) :
    (y.setExpression idx type e).formats = y.formats := by
  cases type <;> rfl

/-! ### Generation -/

section

variable {c : UInt8} (hc : c < 65) (hblank : c ≠ 32)
include hc hblank

/-- The prefix has an `n` and a blank. -/
theorem notMem_articleN : c ∉ ([110, 32] : Bytes) := by
  rintro (_ | ⟨_, _ | ⟨_, h⟩⟩)
  · exact absurd hc (by decide)
  · exact hblank rfl
  · exact absurd h List.not_mem_nil

/-- The prefix of an article brings no such byte into an expression. -/
theorem notMem_withPrefix {e : Expression} (he : ∀ mode, c ∉ e.field mode) (mode mode' : Bool) :
    c ∉ (e.withPrefix mode).field mode' := by
  by_cases hmode : mode' = mode
  · rw [hmode, field_withPrefix]
    exact List.mem_append.not.mpr (not_or.mpr ⟨notMem_articleN hc hblank, he mode⟩)
  · rw [field_withPrefix_of_ne e hmode]
    exact he mode'

/-- **One iteration** brings no such byte into the tables or the output. -/
theorem Lacks.substituteStep {y y' : YogiGen} {s : SubstitutionData} {i : Fin 8}
    {out out' : Bytes} (h : Lacks c y) (hout : c ∉ out)
    (hstep : substituteStep y s i out = some (y', out')) : Lacks c y' ∧ c ∉ out' := by
  rw [Yogigen.substituteStep] at hstep
  cases he : Yogigen.lookup y s i with
  | none => simp [he] at hstep
  | some e =>
      have hfree := h.expressions.lookup he
      have hinsert : ∀ (pos pos' len : ℤ) (blk : Bytes), c ∉ blk →
          c ∉ binsert (bdelete out pos' len) pos blk 32 := by
        intro pos pos' len blk hblk hmem
        rcases mem_of_mem_binsert hmem with hmem | hmem | hmem
        · exact hout (mem_of_mem_bdelete hmem)
        · exact hblk hmem
        · exact hblank hmem
      simp only [he] at hstep
      split_ifs at hstep
      · obtain ⟨rfl, rfl⟩ := Prod.mk.inj (Option.some.inj hstep)
        have hcorrected := notMem_withPrefix hc hblank hfree (s.modes i)
        refine ⟨⟨h.expressions.setExpression hcorrected _ _, ?_⟩, hinsert _ _ _ _ ?_⟩
        · rw [formats_setExpression]
          exact h.formats
        · rw [binsert_zero]
          exact field_withPrefix e (s.modes i) ▸ hcorrected (s.modes i)
      · obtain ⟨rfl, rfl⟩ := Prod.mk.inj (Option.some.inj hstep)
        exact ⟨h, hinsert _ _ _ _ (hfree _)⟩

/-- The loop adds no other byte. -/
theorem Lacks.substituteLoop {y y' : YogiGen} {s : SubstitutionData} {n i : ℕ}
    {out out' : Bytes} (h : Lacks c y) (hout : c ∉ out)
    (hloop : substituteLoop s n i y out = .ok (some (y', out'))) : Lacks c y' ∧ c ∉ out' := by
  induction n generalizing i y out with
  | zero =>
      obtain ⟨hi, hstep⟩ := substituteLoop_zero_iff.mp hloop
      exact h.substituteStep hc hblank hout hstep
  | succ n ih =>
      obtain ⟨hi, y₁, out₁, hstep, hrest⟩ := substituteLoop_succ_iff.mp hloop
      obtain ⟨h₁, hout₁⟩ := h.substituteStep hc hblank hout hstep
      exact ih h₁ hout₁ hrest

omit hblank in
/-- Capital letters are no such bytes. -/
theorem notMem_capitalise {out out' : Bytes} (hout : c ∉ out)
    (h : capitalise out = some out') : c ∉ out' := by
  rw [capitalise_eq] at h
  obtain rfl := Option.some.inj h
  intro hmem
  obtain ⟨i, hi⟩ := List.mem_iff_getElem?.mp hmem
  rw [getElem?_mapOn_eq_some_iff (toupper_eq_iff hc)] at hi
  exact hout (List.mem_of_getElem? hi)

/-- **One phrase** contains no such byte, and neither do the tables after it. -/
theorem Lacks.composePhrase {y y' : YogiGen} {draws : List (Option UInt16)} {out : Bytes}
    (h : Lacks c y) (hy : (composePhrase y).Yields draws (some (out, y'))) :
    Lacks c y' ∧ c ∉ out := by
  obtain ⟨f, s, hchooses, hsub⟩ := chooses_of_yields hy
  obtain ⟨out₀, hloop, hcap⟩ := substituteAndPrettify_ok_iff.mp hsub
  cases hchooses with
  | intro h0 hf hs =>
      rw [getFormats] at hf
      split_ifs at hf
      have hstr := h.formats f (List.mem_of_getElem? hf)
      obtain ⟨h', hout₀⟩ := h.substituteLoop hc hblank hstr hloop
      exact ⟨h', notMem_capitalise hc hout₀ hcap⟩

/-- **Phrases of a run**: a byte that the loaded texts lack is in none of them. -/
theorem Lacks.phrase {y : YogiGen} (h : Lacks c y) {trace : List (GenCall × Object)}
    (hrun : Run Calls (.loaded y) trace) {call : GenCall} {o : Object}
    (hmem : (call, o) ∈ trace) {phrase : Bytes} (hphrase : call.phrase = some phrase) :
    c ∉ phrase := by
  have hstep : ∀ (o : Object) (call : GenCall) (o' : Object),
      (∀ y, o.contents = some y → Lacks c y) → Calls o call o' →
        ∀ y, o'.contents = some y → Lacks c y := by
    intro o call o' ho hcall y' hy'
    obtain ⟨y, hcontents, ⟨out, y₁, -, rfl, hyields⟩ | ⟨-, rfl, -⟩⟩ := generate_cases hcall
    · obtain rfl := Option.some.inj hy'
      exact ((ho y hcontents).composePhrase hc hblank hyields).1
    · exact absurd hy' (by simp)
  obtain ⟨o₀, ho₀, hcall⟩ := hrun.exists_step hstep
    (fun y' hy' => Option.some.inj hy' ▸ h) hmem
  obtain ⟨y₀, hcontents, ⟨out, y₁, hout, -, hyields⟩ | ⟨hnull, -⟩⟩ := generate_cases hcall
  · obtain rfl := Option.some.inj (hphrase.symm.trans hout)
    exact ((ho₀ y₀ hcontents).composePhrase hc hblank hyields).2
  · exact absurd (hphrase.symm.trans hnull) (by simp)

end

/-! ### Strings from the database -/

/-- What is loaded ends before the first NUL. -/
theorem Loads.lacks_zero {db : Database} {y : YogiGen} (h : Loads db y) : Lacks 0 y := by
  refine ⟨fun type e he mode => ?_, fun f hf => ?_⟩
  · obtain ⟨rows, -, -, htable⟩ := h.expressions type
    rw [htable, Table.ofRows] at he
    obtain ⟨row, -, rfl⟩ := List.mem_map.mp (List.mem_of_mem_take he)
    cases mode with
    | true | false => exact zero_notMem_cstr _
  · obtain ⟨rows, -, hformats⟩ := h.formats
    rw [hformats, Table.ofRows] at hf
    obtain ⟨row, -, rfl⟩ := List.mem_map.mp (List.mem_of_mem_take hf)
    exact zero_notMem_cstr _

/-- **Phrases are C strings.** -/
theorem zero_notMem_phrase {db : Database} {y : YogiGen} (h : Loads db y)
    {trace : List (GenCall × Object)} (hrun : Run Calls (.loaded y) trace) {call : GenCall}
    {o : Object} (hmem : (call, o) ∈ trace) {phrase : Bytes}
    (hphrase : call.phrase = some phrase) : 0 ∉ phrase :=
  h.lacks_zero.phrase (by decide) (by decide) hrun hmem hphrase

end Yogigen
