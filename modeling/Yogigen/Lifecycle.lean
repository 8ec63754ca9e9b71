import Yogigen.Handling
import Yogigen.Phrases

/-!
# The Life of the Server

Runs of the process of the server from the start of `main`, in any order of the steps of its
main thread and its handlers.

## Main results

* `server_safe`: no order of the steps breaks a process whose calls succeed.
* `server_ends`: what has failed in a process that comes to its end, and what is still held.
* `run_calls`: the calls of `YogiGen_generate` are a run on the loaded object.
* `server_sends_iff`: the phrases that the server can send, one after another.
-/

open Printf Owned Owned.Prog Transition

namespace Yogigen

/-! ### What happens in a run -/

namespace Happening

/-- A call of `YogiServer_init` before the first template fails, or `YogiGen_generate` returns
NULL. -/
def Fatal : Happening → Prop
  | .main pc ok => pc.IsEarly ∧ ok = false
  | .leave _ call _ => call.phrase = none
  | _ => False

/-- A template is opened and cannot be read. -/
def Unread : Happening → Prop
  | .main (.bread _ _) ok => ok = false
  | _ => False

/-- A template cannot be opened. -/
def Unopened : Happening → Prop
  | .main pc ok => pc.IsOpening ∧ ok = false
  | _ => False

end Happening

namespace Process

variable {b : Build} {y : YogiGen} {p : Process}

/-- A call that overlaps with others, or leaves the object after some that have, corrects no
article. -/
def Apart (s : Except Breach Process) (l : Happening) : Prop :=
  ∀ p v call m o, s = .ok p → l = .leave v call m → p.crowded = true → p.yogen = .to (some o) →
    ¬ TakesArticle o call

/-- Nothing has failed that would break the process later. -/
structure Sound (p : Process) : Prop where
  early : ¬ p.Early
  live : ¬ p.Lost
  template : ∀ t, p.template t ≠ .null

/-- In the beginning everything is sound. -/
theorem sound_start : start.Sound :=
  ⟨by simp [Early, start], by simp [Lost, Dead, start], by simp [start]⟩

/-- A step of `main` whose call neither fails at the start nor cannot read stays sound. -/
theorem Goes.sound {ok : Bool} {p' : Process} (hgoes : p.Goes y ok p') (hs : p.Sound)
    (hfatal : ¬ (Happening.main p.pc ok).Fatal) (hread : ¬ (Happening.main p.pc ok).Unread) :
    p'.Sound := by
  have hlast : ∀ {pc : Pc}, p'.pc = pc → pc.IsLast → ¬ p'.Lost :=
    fun hpc hpclast hlost => hlost.2 (hpc ▸ hpclast)
  cases hgoes with
  | fails hpc hok => exact absurd ⟨hpc, hok⟩ hfatal
  | unopened _ _ _ hpc hfp htemplate =>
      refine ⟨fun hearly => ?_, hlast hpc trivial, htemplate ▸ hs.template⟩
      rw [Early, hfp] at hearly
      exact absurd hearly.2 (by decide)
  | abandons _ _ hpc _ htemplate =>
      exact ⟨fun hearly => absurd (hpc.symm.trans hearly.1) (by simp), hlast hpc trivial,
        htemplate ▸ hs.template⟩
  | closes _ _ hpc htemplate =>
      exact ⟨fun hearly => absurd (hpc.symm.trans hearly.1) (by simp), hlast hpc trivial,
        htemplate ▸ hs.template⟩
  | ends _ hpc _ htemplate =>
      exact ⟨fun hearly => absurd (hpc.symm.trans hearly.1) (by simp), hlast hpc trivial,
        htemplate ▸ hs.template⟩
  | proceeds _ hpc hpc' hyogen htemplate =>
      refine ⟨fun hearly => hpc' (by rw [hearly.1]; trivial), fun hlost => ?_, fun t ht => ?_⟩
      · rcases hyogen with heq | ⟨-, hno⟩
        · exact hs.live ⟨(dead_congr heq).mp hlost.1, hpc⟩
        · exact hno hlost.1
      · rcases htemplate t ht with hnull | ⟨ts, hbread, hok⟩
        · exact hs.template t hnull
        · refine hread ?_
          rw [hbread]
          exact hok

/-- A sound process breaks only by a careless request or a race. -/
theorem Sound.not_breaks {l : Happening} {br : Breach} (hs : p.Sound) (hfatal : ¬ l.Fatal)
    (hcareful : ¬ l.Careless) (hapart : Apart (.ok p) l) : ¬ p.Breaks l br := by
  intro hbreaks
  cases hbreaks with
  | unset hearly => exact hs.early hearly
  | released hlost => exact hs.live hlost
  | null ht => exact hs.template _ ht
  | string hcareless => exact hcareful hcareless
  | @race v call m o o' hl hyogen hcalls hcrowded hne =>
      subst hl
      rcases same_or_released hcalls (hapart p v call m o rfl rfl hcrowded hyogen) with
        hsame | hnull
      · exact hne hsame
      · exact hfatal hnull.2

/-- Handlers keep a process sound that generate phrases. -/
theorem Sound.handles {p' : Process} {l : Happening} (hs : p.Sound) (h : p.Inv y)
    (hserving : p.pc.IsServing) (hhandles : p.Handles l (.ok p')) (hfatal : ¬ l.Fatal) :
    p'.Sound := by
  have hnot : ¬ p.pc.IsLast := serving_not_last hserving
  have hsound : p.Frame p' → ¬ p'.Dead → p'.Sound := by
    intro hframe hlive
    refine ⟨fun hearly => hnot ?_, fun hlost => hlive hlost.1, hframe.template ▸ hs.template⟩
    rw [← hframe.pc, hearly.1]
    trivial
  cases hhandles with
  | keeps hframe hyogen _ _ _ =>
      exact hsound hframe fun hdead => hs.live ⟨(dead_congr hyogen).mp hdead, hnot⟩
  | @leaves _ v call m o o' hl hyogen hcalls hframe hyogen' hshared' =>
      subst hl
      refine hsound hframe ?_
      rintro ⟨o₁, ho₁, hdead⟩
      obtain rfl := Option.some.inj (Field.to.inj (hyogen'.symm.trans ho₁))
      have hshared := ((inv_iff_serving hserving).mp h).shared
      rcases shared_of_calls hshared hyogen hcalls with ⟨hlive, -⟩ | ⟨-, -, hphrase⟩
      · exact hlive hdead
      · exact hfatal hphrase

/-- **One step** of a sound process in which nothing fails. -/
theorem Sound.step {l : Happening} {r : Except Breach Process} (hs : p.Sound) (h : p.Inv y)
    (hstep : Step b y (.ok p) l r) (hfatal : ¬ l.Fatal) (hread : ¬ l.Unread)
    (hcareful : ¬ l.Careless) (hapart : Apart (.ok p) l) :
    ∃ p', r = .ok p' ∧ p'.Inv y ∧ p'.Sound := by
  rcases step_cases h hstep with ⟨p', rfl, hinv⟩ | ⟨br, -, hbreaks⟩
  · refine ⟨p', rfl, hinv, ?_⟩
    rcases step_inv h hstep with ⟨ok, rfl, hadvances⟩ | ⟨hserving, -, hhandles⟩
    · cases hadvances with
      | goes _ hgoes _ => exact hgoes.sound hs hfatal hread
    · exact hs.handles h hserving hhandles hfatal
  · exact absurd hbreaks (hs.not_breaks hfatal hcareful hapart)

/-- The states of a run that is not broken. -/
def Intact (y : YogiGen) (s : Except Breach Process) : Prop :=
  ∃ p, s = .ok p ∧ p.Inv y ∧ p.Sound

/-- What keeps a run from breaking. -/
def Good (s : Except Breach Process) (l : Happening) : Prop :=
  (¬ l.Fatal ∧ ¬ l.Unread ∧ ¬ l.Careless) ∧ Apart s l

/-- **One step** that keeps a run from breaking. -/
theorem Intact.step {s s' : Except Breach Process} {l : Happening} (h : Intact y s)
    (hgood : Good s l) (hstep : Step b y s l s') : Intact y s' := by
  obtain ⟨p, rfl, hinv, hsound⟩ := h
  obtain ⟨⟨hfatal, hread, hcareful⟩, hapart⟩ := hgood
  obtain ⟨p', rfl, hinv', hsound'⟩ := hsound.step hinv hstep hfatal hread hcareful hapart
  exact ⟨p', rfl, hinv', hsound'⟩

/-- In the beginning everything is intact. -/
theorem intact_start (y : YogiGen) : Intact y (.ok start) :=
  ⟨start, rfl, inv_start y, sound_start⟩

/-- **The server does not break** in any order of the steps of its main thread and its
handlers, as long as its first calls succeed, its templates can be read, phrases are made,
requests are careful with their strings, and calls of `YogiGen_generate` that meet leave the
object alone: nothing is used that is not set, NULL or released, and nothing is released
twice. -/
theorem server_safe {trace : List (Happening × Except Breach Process)}
    (hrun : Run (Step b y) (.ok start) trace)
    (hgood : ∀ q ∈ trace, ¬ q.1.Fatal ∧ ¬ q.1.Unread ∧ ¬ q.1.Careless)
    (hapart : Guarded Apart (.ok start) trace) :
    ∀ q ∈ trace, ∃ p, q.2 = .ok p := by
  intro q hq
  have hguard : Guarded Good (.ok start) trace :=
    ((guarded_label fun l : Happening => ¬ l.Fatal ∧ ¬ l.Unread ∧ ¬ l.Careless).mpr hgood).and
      hapart
  obtain ⟨p, hp, -⟩ := hrun.invariant (fun _ _ _ hs hl hstep => Intact.step hs hl hstep)
    (intact_start y) hguard q hq
  exact ⟨p, hp⟩

/-- A visitor asks for a phrase. -/
def genVisit : Visit :=
  ⟨.gen, ⟨ascii "GET", none⟩, ascii "/gen"⟩

/-- Another one asks for the end of the server. -/
def exitVisit : Visit :=
  ⟨.exit, ⟨ascii "GET", none⟩, ascii "/exit"⟩

/-- What the handler of a phrase meets when `YogiGen_generate` has made it. -/
def meetsPhrase (text : Bytes) : Meets :=
  { meetsNothing with generation := .phrase text }

/-- The server while it handles some requests. -/
def busy (y : YogiGen) (handling generating : List Visit) (terminate : Bool) (pc : Pc) :
    Process :=
  { running ⟨false, false⟩ y with
    handling := handling, generating := generating, terminate := terminate, pc := pc }

/-- The server when a phrase has been sent and it is told to stop. -/
def sentUmbrella : Process :=
  { running ⟨false, false⟩ (umbrellaWith (ascii "n umbrella")) with
    strings := List.replicate 4 none, terminate := true, pc := .stop true }

/-- A request for `/exit` is answered while one for `/gen` waits for its phrase, which it gets
when the main thread has called `YogiServer_close`. -/
def exitRun : List (Happening × Except Breach Process) :=
  boot ⟨false, false⟩ umbrella ++
    ([(.arrive genVisit, .ok (busy umbrella [genVisit] [] false .loop)),
      (.enter genVisit, .ok (busy umbrella [] [genVisit] false .loop)),
      (.arrive exitVisit, .ok (busy umbrella [exitVisit] [genVisit] false .loop)),
      (.serve exitVisit meetsNothing, .ok (busy umbrella [] [genVisit] true .loop)),
      (.main .loop true, .ok (busy umbrella [] [genVisit] true (.stop true))),
      (.leave genVisit ⟨[some 0, some 0], some (ascii "An umbrella.")⟩
        (meetsPhrase (ascii "An umbrella.")), .ok sentUmbrella)] ++
    mainRun ⟨false, false⟩ umbrella (List.replicate 5 true) sentUmbrella)

/-- The run is one of the server. -/
theorem run_exitRun : Run (Step ⟨false, false⟩ umbrella) (.ok start) exitRun := by
  have hget : isGet genVisit.request = true := by decide +kernel
  refine (run_boot _ _).append ?_
  rw [final_boot]
  refine .append ?_ (run_mainRun _ _ _ _)
  refine .cons (.arrive rfl (by decide)) (.cons ?_ (.cons (.arrive rfl (by decide)) (.cons ?_
    (.cons (Step.main (p := busy umbrella [] [genVisit] true .loop) rfl) (.cons ?_ (.nil _))))))
  · exact Step.enter (p := busy umbrella [genVisit] [] false .loop) List.mem_cons_self ⟨rfl, hget⟩
  · refine Step.serve (p := busy umbrella [exitVisit] [genVisit] false .loop) (n := 0)
      List.mem_cons_self (fun h => by cases h.1) ?_
    have hexit : isGet exitVisit.request = true := by decide +kernel
    have hcall : exitRequestHandler exitVisit.request =
        ⟨200, .text (ascii "Server will shut down.\n"), true⟩ := if_pos hexit
    have hrun : (callHandler ⟨false, false⟩ 0 exitVisit.request exitVisit.localUri meetsNothing
        .exit).run [] = .done ⟨200, .text (ascii "Server will shut down.\n"), true⟩ [] := by
      rw [callHandler, hcall]
      rfl
    exact serve_done (p := busy umbrella [] [genVisit] false .loop) (v := exitVisit) hrun rfl
  · refine Step.leave (p := busy umbrella [] [genVisit] true (.stop true)) (n := 0)
      List.mem_cons_self ⟨rfl, hget⟩ rfl run_umbrellaTrace.cons_inv.1 rfl (fun h => by cases h) ?_
    exact serve_phrase ⟨rfl, hget⟩ rfl rfl rfl

/-- Nothing fails in this run. -/
theorem exitRun_labels : ∀ q ∈ exitRun, (¬ q.1.Fatal ∧ ¬ q.1.Unread ∧ ¬ q.1.Careless) ∧
    ¬ q.1.Unopened := by
  have hmain : ∀ {b y n p q}, q ∈ mainRun b y (List.replicate n true) p →
      (¬ q.1.Fatal ∧ ¬ q.1.Unread ∧ ¬ q.1.Careless) ∧ ¬ q.1.Unopened := by
    intro b y n p q hq
    obtain ⟨pc, hlabel⟩ := mem_mainRun hq
    rw [hlabel]
    cases pc with
    | _ => simp [Happening.Fatal, Happening.Unread, Happening.Unopened, Happening.Careless]
  intro q hq
  rcases List.mem_append.mp hq with hq | hq
  · exact hmain hq
  · rcases List.mem_append.mp hq with hq | hq
    · simp only [List.mem_cons, List.not_mem_nil, or_false] at hq
      rcases hq with rfl | rfl | rfl | rfl | rfl | rfl
      all_goals simp [Happening.Fatal, Happening.Unread, Happening.Unopened, Happening.Careless,
        Careful, exitVisit, Pc.IsEarly, Pc.IsOpening]
    · exact hmain hq

/-- A step that does not come out of `YogiGen_generate`. -/
theorem apart_of_stay {s : Except Breach Process} {l : Happening}
    (h : ∀ v call m, l ≠ .leave v call m) : Apart s l :=
  fun _ v call m _ _ hl => absurd hl (h v call m)

/-- No call of `YogiGen_generate` is left by a step of `main`. -/
theorem guarded_apart_mainRun (b : Build) (y : YogiGen) (oks : List Bool) (p : Process) :
    Guarded Apart (.ok p) (mainRun b y oks p) := by
  induction oks generalizing p with
  | nil => trivial
  | cons ok oks ih =>
      rw [mainRun]
      split
      · exact ⟨apart_of_stay (by simp), ih _⟩
      · trivial

/-- The calls of the run do not overlap. -/
theorem exitRun_apart : Guarded Apart (.ok start) exitRun := by
  refine (guarded_apart_mainRun _ _ _ _).append ?_
  rw [← boot, final_boot]
  refine .append ?_ (guarded_apart_mainRun _ _ _ _)
  refine ⟨apart_of_stay (by simp), apart_of_stay (by simp), apart_of_stay (by simp),
    apart_of_stay (by simp), apart_of_stay (by simp), ?_, trivial⟩
  -- no two requests have met in `YogiGen_generate`
  intro p v call m o hp _ hcrowded
  obtain rfl := Except.ok.inj hp
  cases hcrowded

/-- Two requests that overlap, one of them for the exit, and no breach. -/
theorem server_safe_exit :
    Run (Step ⟨false, false⟩ umbrella) (.ok start) exitRun ∧ ∀ q ∈ exitRun, ∃ p, q.2 = .ok p :=
  ⟨run_exitRun, server_safe run_exitRun (fun q hq => (exitRun_labels q hq).1) exitRun_apart⟩

/-! ### The end of the process -/

/-- The invariant of a run that may be broken. -/
def InvOf (y : YogiGen) (s : Except Breach Process) : Prop :=
  ∀ p, s = .ok p → p.Inv y

/-- In the beginning the invariant holds. -/
theorem invOf_start (y : YogiGen) : InvOf y (.ok start) := by
  rintro _ ⟨⟩
  exact inv_start y

/-- Every step keeps it. -/
theorem InvOf.step {s s' : Except Breach Process} {l : Happening} (h : InvOf y s)
    (hstep : Step b y s l s') : InvOf y s' := by
  rintro p' rfl
  cases s with
  | error => cases hstep
  | ok p =>
      rcases step_cases (h p rfl) hstep with ⟨_, hp, hinv⟩ | ⟨br, hr, -⟩
      · exact Except.ok.inj hp ▸ hinv
      · cases hr

/-- The process is broken, or breaks before it ends. -/
def Doomed : Except Breach Process → Prop
  | .error _ => True
  | .ok p => p.Early ∨ p.Lost

/-- A step of `main` of a server that is doomed, or becomes so. -/
theorem Goes.doomed {ok : Bool} {p' : Process} (hgoes : p.Goes y ok p')
    (h : (p.Early ∨ p.Lost) ∨ (Happening.main p.pc ok).Fatal) : p'.Early ∨ p'.Lost := by
  have hdoomed : ¬ (Happening.main p.pc ok).Fatal → p.pc ≠ .error ∨ p.fp ≠ .unset → p.Lost := by
    intro hfatal herror
    rcases h with (hearly | hlost) | hfatal'
    · exact (herror.elim (fun hne => hne hearly.1) fun hne => hne hearly.2).elim
    · exact hlost
    · exact absurd hfatal' hfatal
  cases hgoes with
  | fails _ _ hearly => exact .inl hearly
  | unopened hpc _ hlive _ _ _ =>
      have hlost := hdoomed (fun hfatal => by
        cases hpc' : p.pc with
        | fopen => rw [hpc'] at hfatal; exact hfatal.1
        | _ => rw [hpc'] at hpc; exact hpc) (.inl fun heq => by rw [heq] at hpc; exact hpc)
      exact absurd hlost.1 hlive
  | abandons hpc hfp _ _ _ =>
      have hlost := hdoomed (fun hfatal => by rw [hpc] at hfatal; exact hfatal.1)
        (.inr (by rw [hfp]; decide))
      exact absurd (by rw [hpc]; trivial) hlost.2
  | closes hpc hlive _ _ =>
      have hlost := hdoomed (fun hfatal => by rw [hpc] at hfatal; exact hfatal.1)
        (.inl (by rw [hpc]; simp))
      exact absurd hlost.1 hlive
  | ends hpc _ _ _ =>
      have hlost := hdoomed (fun hfatal => by rw [hpc] at hfatal; exact hfatal.1)
        (.inl (by rw [hpc]; simp))
      exact absurd (by rw [hpc]; trivial) hlost.2
  | proceeds hlabel hpc hpc' hyogen _ =>
      have hlost := hdoomed (fun hfatal => (hlabel hfatal.2).1 hfatal.1)
        (.inl fun heq => hpc (by rw [heq]; trivial))
      refine .inr ⟨?_, hpc'⟩
      rcases hyogen with heq | ⟨hlive, -⟩
      · exact (dead_congr heq).mpr hlost.1
      · exact absurd hlost.1 hlive

/-- What dooms a process: a fatal failure, or a careless request. -/
def Dooms (l : Happening) : Prop :=
  l.Fatal ∨ l.Careless

/-- No handler undoes it that the object has been released. -/
theorem doomed_of_handles {l : Happening} {r : Except Breach Process} (h : p.Inv y)
    (hserving : p.pc.IsServing) (hmain : ∀ pc ok, l ≠ .main pc ok) (hhandles : p.Handles l r)
    (hdoomed : p.Lost ∨ Dooms l) : Doomed r := by
  have hlast := serving_not_last hserving
  cases hhandles with
  | breaks _ => trivial
  | keeps hframe hyogen _ hcareful hleave =>
      have hfatal : ¬ l.Fatal := by
        cases l with
        | main pc ok => exact absurd rfl (hmain pc ok)
        | leave v call m => exact absurd rfl (hleave v call m)
        | signal | arrive | serve | enter => exact fun h => h
      have hlost := hdoomed.resolve_right fun hdooms => hdooms.elim hfatal hcareful
      exact .inr ⟨(dead_congr hyogen).mpr hlost.1, hframe.pc ▸ hlast⟩
  | @leaves _ v call m o o' hl hyogen hcalls hframe hyogen' _ =>
      subst hl
      refine .inr ⟨⟨o', hyogen', ?_⟩, hframe.pc ▸ hlast⟩
      have hshared := ((inv_iff_serving hserving).mp h).shared
      rcases shared_of_calls hshared hyogen hcalls with ⟨-, -, -, hphrase⟩ | ⟨hdead, -, -⟩
      · rcases hdoomed with ⟨⟨o₁, ho₁, hdead⟩, -⟩ | hphrase' | hcareless
        · obtain rfl := Option.some.inj (Field.to.inj (hyogen.symm.trans ho₁))
          exact absurd hcalls (not_calls_released hdead)
        · exact absurd hphrase' hphrase
        · exact hcareless.elim
      · exact hdead

/-- A process that is doomed stays so, and becomes so. -/
theorem Doomed.step {s s' : Except Breach Process} {l : Happening} (hinv : InvOf y s)
    (hstep : Step b y s l s') (h : Doomed s ∨ Dooms l) : Doomed s' := by
  cases s with
  | error => cases hstep
  | ok p =>
      have hp := hinv p rfl
      rcases step_inv hp hstep with ⟨ok, rfl, hadvances⟩ | ⟨hserving, hmain, hhandles⟩
      · cases hadvances with
        | goes _ hgoes _ => exact hgoes.doomed (h.imp_right fun hdooms => hdooms.resolve_right id)
        | unset | released => trivial
      · refine doomed_of_handles hp hserving hmain hhandles (h.imp_left fun hdoomed => ?_)
        refine hdoomed.resolve_left fun hearly => serving_not_last hserving ?_
        rw [hearly.1]
        trivial

/-- A template could not be opened. -/
def Leaving : Except Breach Process → Prop
  | .error _ => False
  | .ok p =>
      (p.pc = .error ∧ p.fp = .null) ∨ ∃ success, p.pc = .ended success ∧ p.ctx = .held

/-- A server that has not begun to end does not leave. -/
theorem not_leaving_of_not_last (h : ¬ p.pc.IsLast) : ¬ Leaving (.ok p) := by
  rintro (⟨hpc, -⟩ | ⟨success, hpc, -⟩)
  · exact h (by rw [hpc]; trivial)
  · exact h (by rw [hpc]; trivial)

/-- What is early neither ends nor reads templates. -/
theorem not_last_of_early {pc : Pc} (h : pc.IsEarly) : ¬ pc.IsLast ∧ ¬ pc.IsOpening := by
  cases pc with
  | malloc | yogenInit | fetchAll | start | ports => exact ⟨fun h => h, fun h => h⟩
  | _ => exact h.elim

/-- Neither has a template been missed before, nor is one now. -/
theorem not_leaving_main {ok : Bool} (hlast : ¬ p.pc.IsLast) (hopen : ¬ p.pc.IsOpening) :
    ¬ (Leaving (.ok p) ∨ (Happening.main p.pc ok).Unopened) := by
  rintro (hleaving | hunopened)
  · exact not_leaving_of_not_last hlast hleaving
  · exact hopen hunopened.1

/-- How a call of the main thread can make a process leave. -/
theorem Goes.leaving_iff {ok : Bool} {p' : Process} (hgoes : p.Goes y ok p') :
    Leaving (.ok p') ↔ Leaving (.ok p) ∨ (Happening.main p.pc ok).Unopened := by
  cases hgoes with
  | fails hpc hok hearly =>
      refine iff_of_false ?_ (not_leaving_main (not_last_of_early hpc).1 (not_last_of_early hpc).2)
      rintro (⟨-, hfp⟩ | ⟨success, hended, -⟩)
      · exact absurd (hearly.2.symm.trans hfp) (by simp)
      · exact absurd (hearly.1.symm.trans hended) (by simp)
  | unopened hpc hok _ hpc' hfp _ => exact iff_of_true (.inl ⟨hpc', hfp⟩) (.inr ⟨hpc, hok⟩)
  | abandons hpc hfp hpc' ha _ =>
      exact iff_of_true (.inr ⟨_, hpc', ha.ctx⟩) (.inl (.inl ⟨hpc, hfp⟩))
  | closes hpc _ hpc' _ =>
      refine iff_of_false ?_ (not_leaving_main (by rw [hpc]; exact fun h => h)
        (by rw [hpc]; exact fun h => h))
      rintro (⟨herror, -⟩ | ⟨success, hended, -⟩)
      · exact absurd (hpc'.symm.trans herror) (by simp)
      · exact absurd (hpc'.symm.trans hended) (by simp)
  | ends hpc hpc' hctx _ =>
      refine iff_of_false ?_ ?_
      · rintro (⟨herror, -⟩ | ⟨success, -, hheld⟩)
        · exact absurd (hpc'.symm.trans herror) (by simp)
        · exact absurd (hctx.symm.trans hheld) (by simp)
      · rintro ((⟨herror, -⟩ | ⟨success, hended, -⟩) | hopened)
        · exact absurd (hpc.symm.trans herror) (by simp)
        · exact absurd (hpc.symm.trans hended) (by simp)
        · rw [hpc] at hopened
          exact hopened.1
  | proceeds hlabel hpc hpc' _ _ =>
      refine iff_of_false (not_leaving_of_not_last hpc') ?_
      rintro (hleaving | hopened)
      · exact not_leaving_of_not_last hpc hleaving
      · exact (hlabel hopened.2).2 hopened.1

/-- No handler makes a process leave. -/
theorem not_leaving_of_handles {l : Happening} {r : Except Breach Process}
    (hserving : p.pc.IsServing) (hhandles : p.Handles l r) : ¬ Leaving r := by
  have hlast := serving_not_last hserving
  cases hhandles with
  | keeps hframe _ _ _ _ => exact not_leaving_of_not_last (hframe.pc ▸ hlast)
  | leaves _ _ _ hframe _ _ => exact not_leaving_of_not_last (hframe.pc ▸ hlast)
  | breaks _ => exact fun h => h

/-- **Exactly a template that cannot be opened** makes a process leave. -/
theorem leaving_step_iff {s s' : Except Breach Process} {l : Happening} (hinv : InvOf y s)
    (hstep : Step b y s l s') : Leaving s' ↔ Leaving s ∨ l.Unopened := by
  cases s with
  | error => cases hstep
  | ok p =>
      rcases step_inv (hinv p rfl) hstep with ⟨ok, rfl, hadvances⟩ | ⟨hserving, hmain, hhandles⟩
      · cases hadvances with
        | goes _ hgoes _ => exact hgoes.leaving_iff
        | unset hearly =>
            refine iff_of_false (fun h => h) ?_
            rintro ((⟨-, hnull⟩ | ⟨success, hended, -⟩) | hopened)
            · exact absurd (hearly.2.symm.trans hnull) (by simp)
            · exact absurd (hearly.1.symm.trans hended) (by simp)
            · rw [hearly.1] at hopened
              exact hopened.1
        | released hpc _ =>
            exact iff_of_false (fun h => h) (not_leaving_main (by rw [hpc]; exact fun h => h)
              (by rw [hpc]; exact fun h => h))
      · refine iff_of_false (not_leaving_of_handles hserving hhandles) ?_
        rintro (hleaving | hopened)
        · exact not_leaving_of_not_last (serving_not_last hserving) hleaving
        · cases l with
          | main pc ok => exact hmain pc ok rfl
          | signal | arrive | serve | enter | leave => exact hopened

/-- What has ended is clean, or was left. -/
theorem Inv.of_ended {success : Bool} (h : p.Inv y) (hended : p.pc = .ended success) :
    (¬ Leaving (.ok p) ∧ p.Clean) ∨ (Leaving (.ok p) ∧ p.Abandoned y) := by
  simp only [Inv, hended] at h
  rcases h with ⟨-, -, hctx, hclean⟩ | ha
  · refine .inl ⟨?_, hclean⟩
    rintro (⟨herror, -⟩ | ⟨_, -, hheld⟩)
    · exact absurd (hended.symm.trans herror) (by simp)
    · exact hclean.ctx hheld
  · exact .inr ⟨.inr ⟨success, hended, ha.ctx⟩, ha⟩

/-- A server that has ended is not doomed any more. -/
theorem not_doomed_of_ended {success : Bool} (hended : p.pc = .ended success) :
    ¬ Doomed (.ok p) := by
  rintro (hearly | hlost)
  · exact absurd (hended.symm.trans hearly.1) (by simp)
  · exact hlost.2 (by rw [hended]; trivial)

/-- **A process that ends.** None of its first calls has failed, every call of
`YogiGen_generate` has made a phrase, and no request was careless. If all templates could be
opened, nothing is held any more, no string of a handler either, and the object has been
closed once; else the web server is left running without handlers, and the object is left. -/
theorem server_ends {trace : List (Happening × Except Breach Process)} {success : Bool}
    (hrun : Run (Step b y) (.ok start) trace) (hfinal : final (.ok start) trace = .ok p)
    (hended : p.pc = .ended success) :
    (∀ q ∈ trace, ¬ q.1.Fatal ∧ ¬ q.1.Careless) ∧
      ((∀ q ∈ trace, ¬ q.1.Unopened) → p.Clean) ∧
      ((∃ q ∈ trace, q.1.Unopened) → p.Abandoned y) := by
  have hkept : ∀ s l s', InvOf y s → Step b y s l s' → InvOf y s' :=
    fun _ _ _ hs hstep => hs.step hstep
  have hinv : p.Inv y := by
    refine hrun.invariant_final (fun s l s' hs _ hstep => hkept s l s' hs hstep) (invOf_start y)
      ((guarded_label fun _ => True).mpr fun _ _ => trivial) p hfinal
  have hleaving : Leaving (.ok p) ↔ ∃ q ∈ trace, q.1.Unopened := by
    have hiff := hrun.final_iff_exists hkept
      (fun _ _ _ hs hstep => leaving_step_iff hs hstep) (invOf_start y)
    rw [hfinal] at hiff
    exact hiff.trans (or_iff_right (not_leaving_of_not_last fun h => h))
  have hdooms : ∀ q ∈ trace, ¬ Dooms q.1 := by
    intro q hq hdooms
    have hdoomed := hrun.final_of_exists hkept (fun _ _ _ hs hstep => Doomed.step hs hstep)
      (invOf_start y) (.inr ⟨q, hq, hdooms⟩)
    rw [hfinal] at hdoomed
    exact not_doomed_of_ended hended hdoomed
  refine ⟨fun q hq => not_or.mp (hdooms q hq), fun hopened => ?_, fun hunopened => ?_⟩
  · rcases hinv.of_ended hended with ⟨-, hclean⟩ | ⟨hleft, -⟩
    · exact hclean
    · obtain ⟨q, hq, hunopened⟩ := hleaving.mp hleft
      exact absurd hunopened (hopened q hq)
  · rcases hinv.of_ended hended with ⟨hnot, -⟩ | ⟨-, ha⟩
    · exact absurd (hleaving.mpr hunopened) hnot
    · exact ha

/-- The end of that run: nothing is held, though the request was answered after the server had
been told to stop. -/
theorem server_ends_exit :
    ∃ p, final (.ok start) exitRun = .ok p ∧ p.pc = .ended true ∧ p.Clean := by
  have hfinal : ∃ p, final (.ok start) exitRun = .ok p ∧ p.pc = .ended true := by
    rw [exitRun, final_append, final_boot]
    exact ⟨_, rfl, rfl⟩
  obtain ⟨p, hfinal, hended⟩ := hfinal
  exact ⟨p, hfinal, hended,
    (server_ends run_exitRun hfinal hended).2.1 fun q hq => (exitRun_labels q hq).2⟩

/-! ### The calls of a run -/

/-- The call of `YogiGen_generate` that a step comes out of, with the object it leaves. -/
def callOf : Happening × Except Breach Process → Option (GenCall × Object)
  | (.leave _ call _, .ok p) =>
      match p.yogen with
      | .to (some o) => some (call, o)
      | _ => none
  | _ => none

/-- A breach is no call. -/
theorem callOf_error (l : Happening) (br : Breach) : callOf (l, .error br) = none := by
  cases l with
  | main | signal | arrive | serve | enter | leave => rfl

/-- A process whose calls so far have left an object, or that will make no call. -/
def Shows (y : YogiGen) (s : Except Breach Process) (o : Object) : Prop :=
  ∀ p, s = .ok p → p.Inv y ∧ (object y p = o ∨ (object y p).contents = none)

/-- **A step**, seen as a call of `YogiGen_generate` or not at all. -/
theorem Shows.step {s s' : Except Breach Process} {l : Happening} {o : Object}
    (h : Shows y s o) (hstep : Step b y s l s') :
    (callOf (l, s') = none ∧ Shows y s' o) ∨
      ∃ q, callOf (l, s') = some q ∧ Calls o q.1 q.2 ∧ Shows y s' q.2 := by
  cases s with
  | error => cases hstep
  | ok p =>
      obtain ⟨hp, hobject⟩ := h p rfl
      cases s' with
      | error br => exact .inl ⟨callOf_error l br, fun _ h => by cases h⟩
      | ok p' =>
          have hinv : p'.Inv y := InvOf.step (fun _ h => Except.ok.inj h ▸ hp) hstep _ rfl
          have hkeeps : (object y p' = object y p ∨ (object y p').contents = none) →
              Shows y (.ok p') o := by
            rintro hkept _ ⟨⟩
            refine ⟨hinv, ?_⟩
            rcases hkept with heq | hdead
            · rw [heq]
              exact hobject
            · exact .inr hdead
          rcases step_inv hp hstep with ⟨ok, rfl, hadvances⟩ | ⟨-, -, hhandles⟩
          · cases hadvances with
            | goes _ _ hkept => exact .inl ⟨rfl, hkeeps hkept⟩
          · cases hhandles with
            | keeps _ hyogen _ _ hleave =>
                refine .inl ⟨?_, hkeeps (.inl (object_congr hyogen))⟩
                cases l with
                | leave v call m => exact absurd rfl (hleave v call m)
                | main | signal | arrive | serve | enter => rfl
            | @leaves _ v call m o₁ o' hl hyogen hcalls _ hyogen' _ =>
                subst hl
                obtain rfl : o₁ = o := by
                  rw [object_of_yogen hyogen] at hobject
                  exact hobject.resolve_right fun hdead => not_calls_released hdead hcalls
                refine .inr ⟨(call, o'), by simp only [callOf, hyogen'], hcalls, ?_⟩
                rintro _ ⟨⟩
                exact ⟨hinv, .inl (object_of_yogen hyogen')⟩

/-- The calls of `YogiGen_generate` in a run are a run of calls on the loaded object. -/
theorem run_calls {trace : List (Happening × Except Breach Process)}
    (hrun : Run (Step b y) (.ok start) trace) : Run Calls (.loaded y) (trace.filterMap callOf) := by
  have hstart : Shows y (.ok start) (.loaded y) := by
    rintro _ ⟨⟩
    exact ⟨inv_start y, .inl rfl⟩
  exact hrun.filterMap (R := Shows y) (fun _ _ _ _ hs hstep => hs.step hstep) hstart

/-- The server can answer a request for a phrase, and handles none. -/
structure Ready (o : Object) (p : Process) : Prop where
  server : p.server = .held
  yogen : p.yogen = .to (some o)
  live : o.contents ≠ none
  ctx : p.ctx = .held
  template : p.template .gen = .held
  registered : .gen ∈ p.registered
  generating : p.generating = []
  crowded : p.crowded = false

/-- The main thread makes no such call. -/
theorem callOf_mainRun (b : Build) (y : YogiGen) (oks : List Bool) (p : Process) :
    (mainRun b y oks p).filterMap callOf = [] := by
  induction oks generalizing p with
  | nil => rfl
  | cons ok oks ih =>
      rw [mainRun]
      split
      · exact ih _
      · rfl

/-- The running server is ready for calls. -/
theorem ready_running (b : Build) (y : YogiGen) : (running b y).Ready (.loaded y) :=
  ⟨rfl, rfl, Option.some_ne_none y, rfl, rfl, by simp [running, registrations], rfl, rfl⟩

/-- A call that makes a phrase can be made at once. -/
theorem Ready.exists_run {o o' : Object} {call : GenCall} (h : p.Ready o)
    (hphrase : call.phrase ≠ none) (hcalls : Calls o call o') :
    ∃ p' seg, Run (Step b y) (.ok p) seg ∧ seg.filterMap callOf = [(call, o')] ∧
      final (.ok p) seg = .ok p' ∧ p'.Ready o' := by
  obtain ⟨out, hout⟩ := Option.ne_none_iff_exists'.mp hphrase
  have hget : isGet genVisit.request = true := by decide +kernel
  have hlive : o'.contents ≠ none := by
    obtain ⟨y₁, -, ⟨_, y', -, rfl, -⟩ | ⟨hr, -⟩⟩ := generate_cases hcalls
    · exact Option.some_ne_none y'
    · exact absurd hr hphrase
  have huse : ({ p with handling := genVisit :: p.handling } : Process).useYogen = .ok () := by
    simp only [useYogen, h.server, h.yogen, Option.isSome_iff_ne_none.mpr h.live]
    rfl
  have henter := Step.enter (b := b) (y := y) (p := { p with handling := genVisit :: p.handling })
    List.mem_cons_self ⟨rfl, hget⟩
  rw [huse] at henter
  have hleave := Step.leave (b := b) (y := y) (n := 0) (m := meetsPhrase out)
    (p := ({ p with handling := genVisit :: p.handling } : Process).entered genVisit)
    List.mem_cons_self ⟨rfl, hget⟩ h.yogen hcalls hout
    (fun hcrowded => by simp [entered, h.generating, h.crowded] at hcrowded)
    (serve_phrase ⟨rfl, hget⟩ rfl h.server h.template)
  refine ⟨_, _, .cons (.arrive h.ctx h.registered) (.cons henter (.cons hleave (.nil _))), rfl,
    rfl, h.server, rfl, hlive, h.ctx, h.template, h.registered, ?_, ?_⟩
  · simp [left, entered, h.generating]
  · simp [left, entered, h.generating, h.crowded]

/-- **The phrases that the server sends**, in any order of its steps, are those that the formats
and admissible casts make one after another. -/
theorem server_sends_iff {outs : List Bytes} :
    (∃ trace, Run (Step b y) (.ok start) trace ∧
        (trace.filterMap callOf).map (fun q => q.1.phrase) = outs.map some) ↔
      ∃ y', Phrases y outs y' := by
  constructor
  · rintro ⟨trace, hrun, houts⟩
    obtain ⟨y', -, hphrases⟩ := phrases_of_run (run_calls hrun) houts
    exact ⟨y', hphrases⟩
  · rintro ⟨y', hphrases⟩
    obtain ⟨seen, hseen, -, houts⟩ := run_of_phrases hphrases
    have hgood : ∀ q ∈ seen, q.1.phrase ≠ none := by
      intro q hq
      have hmem : q.1.phrase ∈ outs.map some := houts ▸ List.mem_map_of_mem hq
      obtain ⟨out, -, hout⟩ := List.mem_map.mp hmem
      rw [← hout]
      exact Option.some_ne_none out
    have hlift : ∀ s o call o', (∃ p, s = .ok p ∧ p.Ready o) → call.phrase ≠ none →
        Calls o call o' → ∃ seg, Run (Step b y) s seg ∧ seg.filterMap callOf = [(call, o')] ∧
          ∃ p', final s seg = .ok p' ∧ p'.Ready o' := by
      rintro _ o call o' ⟨p, rfl, hready⟩ hphrase hcalls
      obtain ⟨p', seg, hseg, hobs, hfinal, hready'⟩ := hready.exists_run hphrase hcalls
      exact ⟨seg, hseg, hobs, p', hfinal, hready'⟩
    obtain ⟨trace, hrun, hobs⟩ := Run.exists_filterMap_eq
      (R := fun s o => ∃ p, s = Except.ok p ∧ Ready o p) hlift hseen
      ⟨running b y, rfl, ready_running b y⟩ hgood
    refine ⟨boot b y ++ trace, (run_mainRun b y _ start).append ?_, ?_⟩
    · rw [← boot, final_boot]
      exact hrun
    · rw [List.filterMap_append, boot, callOf_mainRun, List.nil_append, hobs, houts]

end Process

end Yogigen
