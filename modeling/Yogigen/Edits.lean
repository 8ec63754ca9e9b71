import Yogigen.Growing
import Yogigen.Replace

/-!
# Runs of Edits

Any sequence of the calls of `bstrlib.c` that change a string, made on one string in memory.
A call may fail, for want of memory or for arguments that it refuses; the string is then as
it was, and the calls that follow are made on it. What memory is found for may be something
else in each call.

## Main results

* `Edit.call_cases`: one call does to the text what the function does on lists of bytes, or
  fails, or has written behind the tightest block.
* `edits_refine`: the same for runs, where nothing fails that is not too long as long as
  memory is had.
-/

open Memory

namespace Yogigen

namespace Tagbstring

/-- A call that changes a string, with its operands. -/
inductive Edit (σ : Type) where
  | bdelete (pos len : ℤ)
  | binsert (pos : ℤ) (b2 : σ) (fill : UInt8)
  | bfindreplace (find repl : σ) (pos : ℤ)
  | bassign (b : σ)
  | bassignformat (fmt text : Bytes)

/-- What a call makes of a text. -/
def Edit.text (s : Bytes) : Edit Bytes → Bytes
  | .bdelete pos len => Yogigen.bdelete s pos len
  | .binsert pos t fill => Yogigen.binsert s pos t fill
  | .bfindreplace find repl pos => Yogigen.bfindreplace s find repl pos
  | .bassign t => t
  | .bassignformat _ t => t

/-- The call in memory, with the allocators of what it calls itself. -/
def Edit.call (A : ℕ → Allocator) (b : Tagbstring) : Edit Tagbstring → Status
  | .bdelete pos len => Tagbstring.bdelete b pos len
  | .binsert pos b2 fill => Tagbstring.binsert (A 0) b pos b2 fill
  | .bfindreplace find repl pos => Tagbstring.bfindreplace A b find repl pos
  | .bassign b2 => Tagbstring.bassign (A 0) b b2
  | .bassignformat fmt text => Tagbstring.bassignformat A b fmt text

/-- The operands in memory, with positions that are integers of the program and texts of less
than one GiB. -/
inductive Edit.Given : Edit Tagbstring → Edit Bytes → Prop
  | bdelete {pos len : ℤ} (hlow : -intMax ≤ pos + len) (hhigh : pos + len ≤ intMax) :
      Given (.bdelete pos len) (.bdelete pos len)
  | binsert {pos : ℤ} {b2 : Tagbstring} {t : Bytes} (fill : UInt8) (hpos : pos ≤ intMax)
      (h2 : b2.Holds t) : Given (.binsert pos b2 fill) (.binsert pos t fill)
  | bfindreplace {f r : Tagbstring} {find repl : Bytes} (pos : ℤ) (hf : f.Holds find)
      (hr : r.Holds repl) : Given (.bfindreplace f r pos) (.bfindreplace find repl pos)
  | bassign {b2 : Tagbstring} {t : Bytes} (h2 : b2.Holds t) (hlen : t.length < 1073741823) :
      Given (.bassign b2) (.bassign t)
  | bassignformat {fmt text : Bytes} (hfree : 0 ∉ text) (hlen : text.length < 1073741823) :
      Given (.bassignformat fmt text) (.bassignformat fmt text)

/-- Calls one after another, whether they fail or not, each with allocators of its own. -/
def calls (A : ℕ → ℕ → Allocator) :
    List (Edit Tagbstring) → Tagbstring → Except Violation Tagbstring
  | [], b => .ok b
  | e :: es, b => do
      let (_, b) ← e.call (A 0) b
      calls (fun i => A (i + 1)) es b

/-- The text after some calls, each of which was carried out or has failed. -/
inductive Edited : (ℕ → ℕ → Allocator) → List (Edit Bytes) → Bytes → Bytes → Prop
  | nil (A : ℕ → ℕ → Allocator) (s : Bytes) : Edited A [] s s
  | done {A : ℕ → ℕ → Allocator} {e : Edit Bytes} {es : List (Edit Bytes)} {s s' : Bytes}
      (h : Edited (fun i => A (i + 1)) es (e.text s) s') : Edited A (e :: es) s s'
  | failed {A : ℕ → ℕ → Allocator} {e : Edit Bytes} {es : List (Edit Bytes)} {s s' : Bytes}
      (hA : Plenty (A 0) → 134217727 ≤ (e.text s).length)
      (h : Edited (fun i => A (i + 1)) es s s') : Edited A (e :: es) s s'

/-! ### One call -/

/-- An assignment, which overruns only when memory is short. -/
theorem assigned_cases {a b : Tagbstring} {s t : Bytes} (ha : a.Holds s) (hb : b.Holds t)
    (A : ℕ → Allocator) (hlen : t.length < 1073741823) :
    (∃ ok a', bassign (A 0) a b = .ok (ok, a') ∧ a'.Holds t) ∨
    (bassign (A 0) a b = .ok (false, a) ∧ (Plenty A → 134217727 ≤ t.length)) ∨
    (bassign (A 0) a b = .error .outOfBounds ∧ ¬ Plenty A) := by
  obtain ⟨hiff, hcases⟩ := bassign_cases ha hb (A 0) (by omega)
  by_cases htight : t ≠ [] ∧ Tight (A 0) a t.length
  · refine .inr (.inr ⟨hiff.mpr htight, fun h => ?_⟩)
    have hfail := htight.2.2.2.1
    rw [(h 0).realloc] at hfail
    cases hfail
  · rcases hcases htight with ⟨a', hok, hholds⟩ | ⟨hfail, hA⟩
    · exact .inl ⟨true, a', hok, hholds⟩
    · exact .inr (.inl ⟨hfail, fun h => absurd (h 0) hA⟩)

/-- **One call**, for every allocator. -/
theorem Edit.call_cases {A : ℕ → Allocator} {b : Tagbstring} {s : Bytes} {e : Edit Tagbstring}
    {e' : Edit Bytes} (hb : b.Holds s) (he : e.Given e') :
    (∃ ok b', e.call A b = .ok (ok, b') ∧ b'.Holds (e'.text s)) ∨
    (e.call A b = .ok (false, b) ∧ (Plenty A → 134217727 ≤ (e'.text s).length)) ∨
    (e.call A b = .error .outOfBounds ∧ ¬ Plenty A) := by
  have hmax := intMax_eq
  cases he with
  | bdelete hlow hhigh =>
      rcases bdelete_cases hb hlow hhigh with ⟨b', hok, hholds⟩ | ⟨hfail, hsame⟩
      · exact .inl ⟨true, b', hok, hholds⟩
      · exact .inl ⟨false, b, hfail, by rwa [Edit.text, hsame]⟩
  | @binsert pos _ t fill hpos h2 =>
      rcases binsert_cases hb h2 (A 0) hpos fill with ⟨b', hok, hholds, -⟩ | ⟨hfail, hA⟩
      · exact .inl ⟨true, b', hok, hholds⟩
      · by_cases hneg : pos < 0
        · exact .inl ⟨false, b, hfail, by rwa [Edit.text, Yogigen.binsert, if_pos hneg]⟩
        · refine .inr (.inl ⟨hfail, fun h => ?_⟩)
          rw [Edit.text]
          have := (hA (h 0)).resolve_left hneg
          omega
  | @bfindreplace _ _ find repl pos hf hr =>
      rcases bfindreplace_cases hb hf hr A pos with hok | ⟨hfail, hwhy⟩
      · obtain ⟨b', hok, hholds⟩ := hok
        exact .inl ⟨true, b', hok, hholds⟩
      · by_cases hbad : pos < 0 ∨ find = []
        · exact .inl ⟨false, b, hfail, by rwa [Edit.text, Yogigen.bfindreplace, if_pos hbad]⟩
        · obtain ⟨hpos, hne⟩ := not_or.mp hbad
          exact .inr (.inl ⟨hfail, (hwhy.resolve_left hpos).resolve_left hne⟩)
  | bassign h2 hlen => exact assigned_cases hb h2 A hlen
  | @bassignformat fmt text hfree hlen =>
      rcases @bassignformat_cases A b s fmt text hb hfree hlen with
        ⟨buff, -, hbuff, heq⟩ | ⟨-, hfail, hA⟩
      · rw [Edit.call, heq]
        exact assigned_cases hb hbuff A hlen
      · exact .inr (.inl ⟨hfail, fun h => absurd h hA⟩)

/-! ### Runs -/

/-- A run, whatever memory is found for. -/
theorem calls_cases {A : ℕ → ℕ → Allocator} {b : Tagbstring} {s : Bytes}
    {es : List (Edit Tagbstring)} {es' : List (Edit Bytes)} (hb : b.Holds s)
    (hes : List.Forall₂ Edit.Given es es') :
    (∃ b' s', calls A es b = .ok b' ∧ Edited A es' s s' ∧ b'.Holds s') ∨
    (calls A es b = .error .outOfBounds ∧ ∃ i, ¬ Plenty (A i)) := by
  induction hes generalizing A b s with
  | nil => exact .inl ⟨b, s, rfl, .nil A s, hb⟩
  | @cons e e' es es' he _ ih =>
      have hshift : (∃ i, ¬ Plenty (A (i + 1))) → ∃ i, ¬ Plenty (A i) :=
        fun ⟨i, hi⟩ => ⟨i + 1, hi⟩
      rcases @Edit.call_cases (A 0) b s e e' hb he with
        ⟨ok, b₁, hcall, hb₁⟩ | ⟨hcall, hlong⟩ | ⟨hcall, hA⟩
      · rw [calls, hcall, ok_bind]
        refine (ih hb₁).imp ?_ (And.imp_right hshift)
        rintro ⟨b', s', hrun, hedited, hb'⟩
        exact ⟨b', s', hrun, .done hedited, hb'⟩
      · rw [calls, hcall, ok_bind]
        refine (ih hb).imp ?_ (And.imp_right hshift)
        rintro ⟨b', s', hrun, hedited, hb'⟩
        exact ⟨b', s', hrun, .failed hlong hedited, hb'⟩
      · exact .inr ⟨by rw [calls, hcall, error_bind], 0, hA⟩

/-- With ample memory, all calls are carried out as long as the text stays short. -/
theorem Edited.eq_of_ample {A : ℕ → ℕ → Allocator} {es : List (Edit Bytes)} {s s' : Bytes}
    (h : Edited A es s s') (hA : ∀ i, Plenty (A i))
    (hshort : ∀ es₁, es₁ <+: es → (es₁.foldl Edit.text s).length < 134217727) :
    s' = es.foldl Edit.text s := by
  induction h with
  | nil A s => rfl
  | @done A e es s s' _ ih =>
      refine ih (fun i => hA (i + 1)) fun es₁ hpre => ?_
      exact hshort (e :: es₁) (List.prefix_cons_inj e |>.mpr hpre)
  | @failed A e es s s' hlong _ _ =>
      have hone := hshort [e] ⟨es, rfl⟩
      have := hlong (hA 0)
      rw [List.foldl_cons, List.foldl_nil] at hone
      omega

/-- **Any run of edits** keeps the string well formed and its text is that of the same edits on
lists of bytes; a write behind a block needs that memory is short in some call. -/
theorem edits_refine {A : ℕ → ℕ → Allocator} {b : Tagbstring} {s : Bytes}
    {es : List (Edit Tagbstring)} {es' : List (Edit Bytes)} (hb : b.Holds s)
    (hes : List.Forall₂ Edit.Given es es') :
    ((∃ b' s', calls A es b = .ok b' ∧ Edited A es' s s' ∧ b'.Holds s') ∨
      (calls A es b = .error .outOfBounds ∧ ∃ i, ¬ Plenty (A i))) ∧
    ((∀ i, Plenty (A i)) →
      (∀ es₁, es₁ <+: es' → (es₁.foldl Edit.text s).length < 134217727) →
      ∃ b', calls A es b = .ok b' ∧ b'.Holds (es'.foldl Edit.text s)) := by
  refine ⟨calls_cases hb hes, fun hA hshort => ?_⟩
  rcases calls_cases hb hes with ⟨b', s', hrun, hedited, hb'⟩ | ⟨-, i, hnot⟩
  · exact ⟨b', hrun, hedited.eq_of_ample hA hshort ▸ hb'⟩
  · exact absurd (hA i) hnot

/-- An article goes before a noun, and an apostrophe becomes a quote. -/
theorem edits_refine_quoted :
    ∃ b', calls (fun _ _ => ⟨true, fun _ => true, fun _ => true⟩)
        [.binsert 0 (stored [97, 32]) 32, .bfindreplace (stored [39]) (stored [38, 35]) 0,
          .bdelete 1 1] (stored [39, 39]) = .ok b' ∧
      b'.Holds [97, 38, 35, 38, 35] := by
  have hedits : List.Forall₂ Edit.Given
      [.binsert 0 (stored [97, 32]) 32, .bfindreplace (stored [39]) (stored [38, 35]) 0,
        .bdelete 1 1]
      [.binsert 0 [97, 32] 32, .bfindreplace [39] [38, 35] 0, .bdelete 1 1] :=
    .cons (.binsert 32 (by decide) (stored_holds (by decide)))
      (.cons (.bfindreplace 0 (stored_holds (by decide)) (stored_holds (by decide)))
        (.cons (.bdelete (by decide) (by decide)) .nil))
  have hshort : ∀ es₁ ∈ List.inits [.binsert 0 [97, 32] 32, .bfindreplace [39] [38, 35] 0,
      .bdelete 1 1], (es₁.foldl Edit.text [39, 39]).length < 134217727 := by
    decide +kernel
  exact (edits_refine (stored_holds (by decide)) hedits).2
    (fun _ _ => ⟨rfl, fun _ => rfl, fun _ => rfl⟩)
    fun es₁ hpre => hshort es₁ ((List.mem_inits _ _).mpr hpre)

end Tagbstring

end Yogigen
