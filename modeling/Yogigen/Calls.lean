import Yogigen.Generate
import Yogigen.Transition

/-!
# Runs of Calls

A `/gen` request makes one call of `YogiGen_generate`, on the object that the server
loaded at its start; nothing else the request does touches the object. A run of calls
records the draws of each call and what it returned.

## Main results

* `keepsTables_iff`, `tables_kept_iff`: the calls of a run leave the tables alone, and
  make their phrases from the tables as they were loaded, exactly if no call that makes a
  phrase corrects an article.
* `keepsObject_iff`, `object_kept_iff`: a call that returns NULL takes the object with it,
  so the object survives a run exactly if every call makes a phrase.
-/

open Printf Supply Supply.Reader Transition

namespace Yogigen

/-- One call: the draws it was given, and the phrase it returned (`none` for NULL). -/
structure GenCall where
  draws : List (Option UInt16)
  phrase : Option Bytes

/-- A completed call of `YogiGen_generate`. -/
def Calls (o : Object) (call : GenCall) (o' : Object) : Prop :=
  (generate o).Yields call.draws (call.phrase, o')

/-! ### The tables between calls -/

/-- A call that makes a phrase leaves the tables as they were. -/
def KeepsTables (o : Object) (call : GenCall) (o' : Object) : Prop :=
  call.phrase ≠ none →
    ∀ type, o'.contents.map (·.table type) = o.contents.map (·.table type)

/-- The phrase is what the tables as loaded yield for the draws of the call. -/
def AsLoaded (y : YogiGen) (_ : Object) (call : GenCall) (_ : Object) : Prop :=
  call.phrase ≠ none →
    ∃ o', (generate (.loaded y)).Yields call.draws (call.phrase, o')

/-- The call makes a phrase, and corrects an article in it. -/
def TakesArticle (o : Object) (call : GenCall) : Prop :=
  ∃ y f s, o.contents = some y ∧ Chooses y call.draws f s ∧ Complete y f s ∧
    ∃ i : Fin 8, i.val < f.count.toNat ∧ Articled y s i

/-- A complete selection corrects an article if the flag of one of its positions says so. -/
theorem takesArticle_iff {o : Object} {call : GenCall} {y : YogiGen} {f : FormatString}
    {s : SubstitutionData} (hc : o.contents = some y) (hchooses : Chooses y call.draws f s)
    (hcomplete : Complete y f s) :
    TakesArticle o call ↔ ∃ i : Fin 8, i.val < f.count.toNat ∧ Articled y s i := by
  constructor
  · rintro ⟨y', f', s', hc', hchooses', -, hart⟩
    obtain rfl := Option.some.inj (hc.symm.trans hc')
    obtain ⟨rfl, rfl⟩ := hchooses.unique hchooses'
    exact hart
  · exact fun hart => ⟨y, f, s, hc, hchooses, hcomplete, hart⟩

/-- **One call** leaves the tables alone exactly if it corrects no article. -/
theorem keepsTables_iff {o o' : Object} {call : GenCall} (h : Calls o call o') :
    KeepsTables o call o' ↔ ¬ TakesArticle o call := by
  obtain ⟨y, hc, ⟨out, y', hr, rfl, hy⟩ | ⟨hr, -, hy⟩⟩ := generate_cases h
  · obtain ⟨f, s, hchooses, hcomplete, htables, -⟩ := yields_composePhrase_inv hy
    have hmap : KeepsTables o call { o with contents := some y' } ↔
        ∀ type, y'.table type = y.table type := by
      simp [KeepsTables, hr, hc]
    rw [hmap, htables, takesArticle_iff hc hchooses hcomplete]
    simp only [not_exists, not_and]
  · have hfail : ¬ Succeeds y call.draws := fun hs => (succeeds_of_yields hy).mp hs rfl
    constructor
    · rintro - ⟨y', f, s, hc', hchooses, hcomplete, -⟩
      obtain rfl := Option.some.inj (hc.symm.trans hc')
      exact hfail ⟨f, s, hchooses, hcomplete⟩
    · exact fun _ hphrase => absurd hr hphrase

/-- A call that corrects no article leaves the object as it is, or releases it. -/
theorem same_or_released {o o' : Object} {call : GenCall} (h : Calls o call o')
    (hno : ¬ TakesArticle o call) : o' = o ∨ (o'.contents = none ∧ call.phrase = none) := by
  obtain ⟨y₁, hc, ⟨out, y', hr, rfl, hy⟩ | ⟨hr, rfl, hy⟩⟩ := generate_cases h
  · obtain ⟨f, s, hchooses, hcomplete, -, heq⟩ := yields_composePhrase_inv hy
    rw [takesArticle_iff hc hchooses hcomplete] at hno
    rw [heq fun i hi hart => hno ⟨i, hi, hart⟩, ← hc]
    exact .inl rfl
  · exact .inr ⟨rfl, hr⟩

/-- No call is made on a released object. -/
theorem not_calls_released {o o' : Object} {call : GenCall} (hc : o.contents = none) :
    ¬ Calls o call o' := by
  intro h
  obtain ⟨y, hc', -⟩ := generate_cases h
  exact absurd (hc.symm.trans hc') (by simp)

/-- **Tables over a run.** Every call that makes a phrase leaves all tables as they were,
and makes the phrase that the loaded tables yield for its draws, if and only if no call
makes a phrase with a corrected article. -/
theorem tables_kept_iff (y : YogiGen) (trace : List (GenCall × Object))
    (h : Run Calls (.loaded y) trace) :
    (Along KeepsTables (.loaded y) trace ∧ Along (AsLoaded y) (.loaded y) trace) ↔
      Guarded (fun o call => ¬ TakesArticle o call) (.loaded y) trace := by
  have hiff := Run.along_iff_guarded KeepsTables (fun o call => ¬ TakesArticle o call)
    (fun _ _ _ hcall => keepsTables_iff hcall) h
  refine ⟨fun hkeeps => hiff.mp hkeeps.1, fun hguarded => ⟨hiff.mpr hguarded, ?_⟩⟩
  refine Run.along_of_guarded (fun o => o = .loaded y ∨ o.contents = none) ?_ h (.inl rfl)
    hguarded
  rintro o call o' (rfl | hc) hno hcall
  · exact ⟨fun _ => ⟨o', hcall⟩, (same_or_released hcall hno).imp_right And.left⟩
  · exact absurd hcall (not_calls_released hc)

/-- A database with one noun and one format. -/
def umbrellaDb : Database where
  expressions := [⟨ascii "umbrella", ascii "umbrellas", 3, 1⟩]
  formats := [⟨ascii "a %s.", 0xA6, 1⟩]

/-- The state it is loaded into, with the text its noun has by now. -/
def umbrellaWith (text : Bytes) : YogiGen where
  verbs := .ofRows []
  adjs := .ofRows []
  cepts := .ofRows []
  objs := .ofRows [⟨3, 1, text, ascii "umbrellas"⟩]
  formats := .ofRows [⟨ascii "a %s.", 0xA6, 1⟩]
  conn := ⟨none, [], 0, maxConnNumber, 0⟩

/-- The state as loaded. -/
def umbrella : YogiGen :=
  umbrellaWith (ascii "umbrella")

/-- The state is one that the program loads from the database. -/
theorem loads_umbrella : Loads umbrellaDb umbrella := by
  refine ⟨fun type => ?_, umbrellaDb.formats, .refl _, by decide +kernel⟩
  cases type with
  | object => exact ⟨umbrellaDb.expressions, .refl _, List.pairwise_singleton .., by decide +kernel⟩
  | verb | adjective | concept => exact ⟨[], .refl _, .nil, by decide +kernel⟩

/-- Two calls with the same draws. -/
def umbrellaTrace : List (GenCall × Object) :=
  [(⟨[some 0, some 0], some (ascii "An umbrella.")⟩, .loaded (umbrellaWith (ascii "n umbrella"))),
    (⟨[some 0, some 0], some (ascii "An n umbrella.")⟩,
      .loaded (umbrellaWith (ascii "n n umbrella")))]

/-- Both calls are calls of the program. -/
theorem run_umbrellaTrace : Run Calls (.loaded umbrella) umbrellaTrace := by
  refine .cons (yields_iff_run.mpr ?_) (.cons (yields_iff_run.mpr ?_) (.nil _))
  · decide +kernel
  · decide +kernel

/-- Tables whose noun does not want `an`. -/
def heart : YogiGen :=
  { umbrella with objs := .ofRows [⟨3, 0, ascii "heart", ascii "hearts"⟩] }

/-- Two calls that correct no article. -/
def heartTrace : List (GenCall × Object) :=
  [(⟨[some 0, some 0], some (ascii "A heart.")⟩, .loaded heart),
    (⟨[some 7, some 5], some (ascii "A heart.")⟩, .loaded heart)]

/-- The calls are calls of the program. -/
theorem run_heartTrace : Run Calls (.loaded heart) heartTrace := by
  refine .cons (yields_iff_run.mpr ?_) (.cons (yields_iff_run.mpr ?_) (.nil _))
  · decide +kernel
  · decide +kernel

/-- A run that keeps the tables, and one that does not. -/
theorem tables_kept_iff_umbrella :
    Guarded (fun o call => ¬ TakesArticle o call) (.loaded heart) heartTrace ∧
      ((Along KeepsTables (.loaded umbrella) umbrellaTrace ∧
          Along (AsLoaded umbrella) (.loaded umbrella) umbrellaTrace) ↔
        Guarded (fun o call => ¬ TakesArticle o call) (.loaded umbrella) umbrellaTrace) := by
  refine ⟨(tables_kept_iff _ heartTrace run_heartTrace).mp ⟨?_, ?_⟩,
    tables_kept_iff _ umbrellaTrace run_umbrellaTrace⟩
  · exact ⟨fun _ _ => rfl, fun _ _ => rfl, trivial⟩
  · obtain ⟨hfirst, hrest⟩ := run_heartTrace.cons_inv
    exact ⟨fun _ => ⟨_, hfirst⟩, fun _ => ⟨_, hrest.cons_inv.1⟩, trivial⟩

/-- Two successful calls with the same draws, of which the first changes the noun and the
second says it changed. -/
theorem tables_not_kept :
    Loads umbrellaDb umbrella ∧ Run Calls (.loaded umbrella) umbrellaTrace ∧
      ¬ Along KeepsTables (.loaded umbrella) umbrellaTrace ∧
      ¬ Along (AsLoaded umbrella) (.loaded umbrella) umbrellaTrace := by
  refine ⟨loads_umbrella, run_umbrellaTrace, ?_, ?_⟩
  · rintro ⟨hkeeps, -⟩
    have htable := hkeeps (Option.some_ne_none _) .object
    exact absurd htable (by decide +kernel)
  · rintro ⟨-, hsecond, -⟩
    obtain ⟨o', ho'⟩ := hsecond (Option.some_ne_none _)
    have hfirst := (Run.cons_inv run_umbrellaTrace).1
    have huniq := ho'.unique hfirst (m := []) (n := []) rfl
    have hphrase : some (ascii "An n umbrella.") = some (ascii "An umbrella.") :=
      congrArg Prod.fst huniq.2
    exact absurd hphrase (by decide +kernel)

/-! ### The object between calls -/

/-- A call that returns NULL leaves the object as it was. -/
def KeepsObject (o : Object) (call : GenCall) (o' : Object) : Prop :=
  call.phrase = none → o' = o

/-- The draws of the call make a phrase. -/
def MakesPhrase (o : Object) (call : GenCall) : Prop :=
  ∃ y, o.contents = some y ∧ Succeeds y call.draws

/-- `YogiServer_close`, as far as the shared object goes: `server->yogen` is never reset. -/
def yogiServerClose (o : Object) : Except Fault Object :=
  yogiGenClose o

/-- **One call** that returns NULL releases the object, so it keeps it exactly if its
draws make a phrase. -/
theorem keepsObject_iff {o o' : Object} {call : GenCall} (h : Calls o call o') :
    KeepsObject o call o' ↔ MakesPhrase o call := by
  obtain ⟨y, hc, ⟨out, y', hr, -, hy⟩ | ⟨hr, rfl, hy⟩⟩ := generate_cases h
  · have hs : Succeeds y call.draws := (succeeds_of_yields hy).mpr (by simp)
    constructor
    · exact fun _ => ⟨y, hc, hs⟩
    · exact fun _ hnull => absurd (hr.symm.trans hnull) (by simp)
  · constructor
    · intro hkeeps
      have hsame := hkeeps hr
      rw [← hsame] at hc
      exact absurd hc (by simp)
    · rintro ⟨y', hc', hs⟩
      obtain rfl := Option.some.inj (hc.symm.trans hc')
      exact absurd rfl ((succeeds_of_yields hy).mp hs)

/-- A call whose draws make a phrase leaves a live object, released as often as before. -/
theorem live_after {o o' : Object} {call : GenCall} (h : Calls o call o')
    (hmakes : MakesPhrase o call) : o'.contents ≠ none ∧ o'.closes = o.closes := by
  obtain ⟨y, hc, ⟨out, y', -, rfl, -⟩ | ⟨-, -, hy⟩⟩ := generate_cases h
  · exact ⟨by simp, rfl⟩
  · obtain ⟨y', hc', hs⟩ := hmakes
    obtain rfl := Option.some.inj (hc.symm.trans hc')
    exact absurd rfl ((succeeds_of_yields hy).mp hs)

/-- **The object over a run.** Every call that returns NULL leaves the object as it was,
every call finds and leaves a live object, and `YogiServer_close` after the run releases
it once, if and only if the draws of every call make a phrase. -/
theorem object_kept_iff (y : YogiGen) (trace : List (GenCall × Object))
    (h : Run Calls (.loaded y) trace) :
    (Along KeepsObject (.loaded y) trace ∧ (∀ p ∈ trace, p.2.contents ≠ none) ∧
      ∃ o', yogiServerClose (final (.loaded y) trace) = .ok o' ∧ o'.closes = 1) ↔
      Guarded MakesPhrase (.loaded y) trace := by
  have hiff := Run.along_iff_guarded KeepsObject MakesPhrase
    (fun _ _ _ hcall => keepsObject_iff hcall) h
  refine ⟨fun hkeeps => hiff.mp hkeeps.1, fun hguarded => ⟨hiff.mpr hguarded, ?_⟩⟩
  have hstep : ∀ o call o', (o.contents ≠ none ∧ o.closes = 0) → MakesPhrase o call →
      Calls o call o' → o'.contents ≠ none ∧ o'.closes = 0 := by
    intro o call o' ho hmakes hcall
    have hlive := live_after hcall hmakes
    exact ⟨hlive.1, hlive.2.trans ho.2⟩
  have hstart : (Object.loaded y).contents ≠ none ∧ (Object.loaded y).closes = 0 :=
    ⟨Option.some_ne_none y, rfl⟩
  refine ⟨fun p hp => (h.invariant hstep hstart hguarded p hp).1, ?_⟩
  obtain ⟨hlive, hcloses⟩ := h.invariant_final hstep hstart hguarded
  obtain ⟨y', hy'⟩ := Option.ne_none_iff_exists'.mp hlive
  refine ⟨{ contents := none, closes := (final (.loaded y) trace).closes + 1 }, ?_, ?_⟩
  · rw [yogiServerClose, yogiGenClose, hy']
  · rw [hcloses]

/-- A call that makes a phrase, and one whose first draw fails. -/
def failedTrace : List (GenCall × Object) :=
  [(⟨[some 0, some 0], some (ascii "A heart.")⟩, .loaded heart), (⟨[none], none⟩, ⟨none, 1⟩)]

/-- The calls are calls of the program. -/
theorem run_failedTrace : Run Calls (.loaded heart) failedTrace :=
  .cons run_heartTrace.cons_inv.1 (.cons (yields_iff_run.mpr (by decide +kernel)) (.nil _))

/-- A run of calls that make phrases, and one that ends with a failed draw. -/
theorem object_kept_iff_failed :
    Guarded MakesPhrase (.loaded umbrella) umbrellaTrace ∧
      ((Along KeepsObject (.loaded heart) failedTrace ∧
          (∀ p ∈ failedTrace, p.2.contents ≠ none) ∧
          ∃ o', yogiServerClose (final (.loaded heart) failedTrace) =
            .ok o' ∧ o'.closes = 1) ↔
        Guarded MakesPhrase (.loaded heart) failedTrace) := by
  refine ⟨(object_kept_iff _ umbrellaTrace run_umbrellaTrace).mp ⟨?_, ?_, ?_⟩,
    object_kept_iff _ failedTrace run_failedTrace⟩
  · exact ⟨fun h => absurd h (Option.some_ne_none _), fun h => absurd h (Option.some_ne_none _),
      trivial⟩
  · simp [umbrellaTrace, Object.loaded]
  · exact ⟨_, rfl, rfl⟩

/-- A failed draw releases the object; the next request and the end of the server both
use it again. -/
theorem object_not_kept :
    Run Calls (.loaded heart) failedTrace ∧
      ¬ Along KeepsObject (.loaded heart) failedTrace ∧
      (∀ draws, (generate (final (.loaded heart) failedTrace)).run draws =
        .fault .useAfterFree) ∧
      yogiServerClose (final (.loaded heart) failedTrace) =
        .error .useAfterFree := by
  refine ⟨run_failedTrace, ?_, fun _ => rfl, rfl⟩
  rintro ⟨-, hkeeps, -⟩
  exact absurd (hkeeps rfl) (by decide +kernel)

end Yogigen
