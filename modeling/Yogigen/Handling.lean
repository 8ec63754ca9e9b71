import Yogigen.Outcomes
import Yogigen.Process

/-!
# The Handlers at Work

What the steps of the handlers do to the process of the server, next to those of its main
thread: the inversion of all steps, and the ways in which a process can break.

## Main results

* `clean_of_careful`: a careful request for a link makes clean insertions.
* `step_inv`: what the main thread and the handlers do to the server.
* `step_cases`: how a process can break.
* `final_boot`: the server that the calls of the main thread come to when they succeed.
-/

open Printf Owned Owned.Prog Transition

namespace Yogigen

/-- A `GET` that misuses a string if its handler comes so far. -/
def Happening.Careless : Happening → Prop
  | .serve v m => isGet v.request = true ∧ ¬ Careful v.request m v.handler
  | _ => False

/-! ### Insertions -/

/-- A round of an insertion that is made, since all before it are followed by another one. -/
inductive Made : List Attempt → Attempt → Prop
  | now {a : Attempt} {attempts : List Attempt} : Made (a :: attempts) a
  | later {a a' : Attempt} {attempts : List Attempt} : a.Again → Made attempts a' →
      Made (a :: attempts) a'

/-- An attempt that is made and fails makes the insertion fail. -/
theorem InsertFails.of_made {attempts : List Attempt} {a : Attempt} (h : Made attempts a)
    (hfails : a.Fails) : InsertFails attempts := by
  induction h with
  | now => exact .now hfails
  | later hagain _ ih => exact .later hagain (ih hfails)

/-- **A careful request for a link** asks the database only for insertions that release what they
obtain once. -/
theorem clean_of_careful {r : Request} {m : Meets} (h : Careful r m .permalink) {a : Attempt}
    (ha : Made m.attempts a) {id : UInt64} (hrnd : a.rnd = some id) (hid : id ≠ errorId)
    {w w' : World} {used : List ℤ}
    (hinsert : (postgresInsertConcurrent w).Yields used (a.ret, w')) :
    Clean w w' :=
  (insert_clean_iff_ret hinsert).mpr fun hret => h.2 (.of_made ha (.inr ⟨id, hrnd, hid, hret⟩))

namespace Process

variable {b : Build} {y : YogiGen} {p p' : Process} {l : Happening} {r : Except Breach Process}

/-! ### The server while it has its handlers -/

/-- While handlers are registered the invariant says that the server is complete. -/
theorem inv_iff_serving (hpc : p.pc.IsServing) : p.Inv y ↔ p.Serving := by
  cases h : p.pc with
  | register | sigaction | loop | stop => simp only [Inv, h]
  | _ =>
      rw [h] at hpc
      exact hpc.elim

/-- The handlers are gone when the end begins. -/
theorem serving_not_last {pc : Pc} (h : pc.IsServing) : ¬ pc.IsLast := by
  cases pc with
  | error | freeServer | ended => exact absurd h fun h => h
  | _ => exact fun h => h

/-- Requests are only handled while the handlers are known. -/
theorem Inv.isServing (h : p.Inv y)
    (hbusy : p.handling ≠ [] ∨ p.generating ≠ [] ∨ (p.ctx = .held ∧ p.registered ≠ [])) :
    p.pc.IsServing := by
  have hquiet : ¬ p.Quiet := fun hq =>
    hbusy.elim (fun hne => hne hq.2.1) fun h => h.elim (fun hne => hne hq.2.2.1)
      fun hne => hne.2 hq.1
  have hidle : p.ctx = .released → p.handling = [] → p.generating = [] → False := by
    intro hctx hhandling hgenerating
    rcases hbusy with hne | hne | ⟨hheld, -⟩
    · exact hne hhandling
    · exact hne hgenerating
    · exact absurd (hctx.symm.trans hheld) (by decide)
  have hstopped : ¬ p.Stopped := fun hs => hidle hs.ctx hs.handling hs.generating
  cases hpc : p.pc with
  | register | sigaction | loop | stop => trivial
  | malloc | yogenInit | fetchAll | start | ports | sysInfo | error =>
      simp only [Inv, hpc] at h
      exact absurd h.1 hquiet
  | fopen | bread | fclose =>
      simp only [Inv, hpc] at h
      obtain ⟨done, -, ho, -⟩ := h
      exact absurd ho.quiet hquiet
  | destroyTemplates | freeSysInfo | closeYogen | freeServer =>
      simp only [Inv, hpc] at h
      exact absurd h.1 hstopped
  | ended =>
      simp only [Inv, hpc] at h
      rcases h with ⟨hhandling, hgenerating, hctx, -⟩ | ha
      · exact (hidle hctx hhandling hgenerating).elim
      · exact absurd ha.quiet hquiet

/-- What no handler changes. -/
structure Frame (p p' : Process) : Prop where
  pc : p'.pc = p.pc
  fp : p'.fp = p.fp
  server : p'.server = p.server
  ctx : p'.ctx = p.ctx
  sysInfo : p'.sysInfo = p.sysInfo
  template : p'.template = p.template

/-- One frame after another. -/
theorem Frame.trans {p'' : Process} (h : p.Frame p') (h' : p'.Frame p'') : p.Frame p'' :=
  ⟨h'.pc.trans h.pc, h'.fp.trans h.fp, h'.server.trans h.server, h'.ctx.trans h.ctx,
    h'.sysInfo.trans h.sysInfo, h'.template.trans h.template⟩

/-- A complete server stays so when `main` has not moved and what is shared is in order. -/
theorem Serving.of_frame (h : p.Serving) (hframe : p.Frame p') (hshared : p'.Shared) :
    p'.Serving := by
  refine ⟨?_, ?_, hshared, ?_, ?_, ?_⟩
  · rw [hframe.fp]
    exact h.fp
  · rw [hframe.server]
    exact h.server
  · rw [hframe.ctx]
    exact h.ctx
  · rw [hframe.sysInfo]
    exact h.sysInfo
  · rw [hframe.template]
    exact h.template

/-! ### Uses of the server -/

/-- A template is there, or was not to be read. -/
theorem Serving.useTemplate (h : p.Serving) (t : Template) :
    p.useTemplate t = .ok () ∨ (p.useTemplate t = .error .null ∧ p.template t = .null) := by
  rw [Process.useTemplate, h.server]
  rcases use_kept (h.template t) with huse | ⟨huse, hnull⟩
  · rw [huse]
    exact .inl rfl
  · rw [huse]
    exact .inr ⟨rfl, hnull⟩

/-- A page that needs the object. -/
theorem Serving.useYogenTemplate (h : p.Serving) (t : Template) :
    (do p.useYogen; p.useTemplate t) = .ok () ∨
      ((do p.useYogen; p.useTemplate t) = .error .released ∧ p.Dead) ∨
      ((do p.useYogen; p.useTemplate t) = .error .null ∧ ∃ t, p.template t = .null) := by
  rcases h.shared.use h.server with ⟨huse, -⟩ | ⟨huse, -, hdead⟩
  · rw [huse]
    rcases h.useTemplate t with hok | ⟨hnull, ht⟩
    · exact .inl hok
    · exact .inr (.inr ⟨hnull, t, ht⟩)
  · rw [huse]
    exact .inr (.inl ⟨rfl, hdead⟩)

/-- What a page needs may have been released, or be NULL. -/
theorem Serving.usePage (h : p.Serving) (x : RequestHandler) :
    p.usePage x = .ok () ∨ (p.usePage x = .error .released ∧ p.Dead) ∨
      (p.usePage x = .error .null ∧ ∃ t, p.template t = .null) := by
  cases x with
  | frontpage =>
      rcases h.useTemplate .index with hok | ⟨hnull, ht⟩
      · exact .inl hok
      · exact .inr (.inr ⟨hnull, _, ht⟩)
  | gen =>
      rcases h.useTemplate .gen with hok | ⟨hnull, ht⟩
      · exact .inl hok
      · exact .inr (.inr ⟨hnull, _, ht⟩)
  | permalink => exact h.useYogenTemplate .permalink
  | getbyid => exact h.useYogenTemplate .getbyid
  | exit | css | font | js | acmeChallenge => exact .inl rfl

/-- An answer changes nothing but the strings and the flag for the end. -/
theorem answered_cases (p : Process) (x : RequestHandler) (a : Answer) (strings : Store Bytes) :
    (∃ p', p.answered x a strings = .ok p' ∧ p.Frame p' ∧ p'.yogen = p.yogen ∧
        p'.strings = strings) ∨
      ∃ br, p.usePage x = .error br ∧ p.answered x a strings = .error br := by
  by_cases hstatus : a.status = 200
  · rw [answered, if_pos hstatus]
    cases huse : p.usePage x with
    | ok => exact .inl ⟨_, rfl, ⟨rfl, rfl, rfl, rfl, rfl, rfl⟩, rfl, rfl⟩
    | error br => exact .inr ⟨br, rfl, rfl⟩
  · rw [answered, if_neg hstatus]
    exact .inl ⟨_, rfl, ⟨rfl, rfl, rfl, rfl, rfl, rfl⟩, rfl, rfl⟩

/-- Strings that are destroyed again leave the store swept. -/
theorem Swept.append {k : ℕ} (h : p.Swept) (hstrings : p'.strings = p.strings ++
    List.replicate k none) : p'.Swept := by
  intro cell hcell
  rw [hstrings] at hcell
  rcases List.mem_append.mp hcell with hold | hnew
  · exact h cell hold
  · exact List.eq_of_mem_replicate hnew

/-- **A handler** is still running; misuses a string, which a careful one does not; or answers, in
which case it was careful and has destroyed its strings but for an abandoned text. -/
theorem serve_cases {fuel : ℕ} {v : Visit} {m : Meets} (hr : p.serve b fuel v m = some r) :
    (∃ mis, r = .error (.string mis) ∧ isGet v.request = true ∧
        ¬ Careful v.request m v.handler) ∨
      ((isGet v.request = false ∨ Careful v.request m v.handler) ∧
        ((∃ p', r = .ok p' ∧ p.Frame p' ∧ p'.yogen = p.yogen ∧
            (¬ Abandons v.request m v.handler → p.Swept → p'.Swept)) ∨
          ∃ br, p.usePage v.handler = .error br ∧ r = .error br)) := by
  rw [serve] at hr
  split at hr
  · cases hr
  · next mis hmisuse =>
      obtain rfl := Option.some.inj hr
      exact .inl ⟨mis, rfl, not_careful_of_misuse hmisuse⟩
  · next a strings hdone =>
      obtain rfl := Option.some.inj hr
      obtain ⟨hcareful, hstrings⟩ := callHandler_done hdone
      refine .inr ⟨hcareful, ?_⟩
      rcases p.answered_cases v.handler a strings with ⟨p', hp', hframe, hyogen, hleft⟩ | hbreaks
      · refine .inl ⟨p', hp', hframe, hyogen, fun habandons hswept => ?_⟩
        obtain ⟨k, hk⟩ := hstrings habandons
        exact hswept.append (hleft.trans hk)
      · exact .inr hbreaks

/-- A handler that ends without misuse has answered. -/
theorem serve_done {n : ℕ} {v : Visit} {m : Meets} {a : Answer} {strings : Store Bytes}
    (hrun : (callHandler b n v.request v.localUri m v.handler).run p.strings = .done a strings)
    (huse : p.usePage v.handler = .ok ()) :
    p.serve b n v m =
      some (.ok { p with strings := strings, terminate := p.terminate || a.terminate }) := by
  simp only [serve, hrun, answered, huse, ite_self, Except.map]

/-- A phrase is sent at once by a server that is there. -/
theorem serve_phrase {n : ℕ} {v : Visit} {m : Meets} {text : Bytes} (hv : v.Generates)
    (hm : m.generation = .phrase text) (hserver : p.server = .held)
    (htemplate : p.template .gen = .held) :
    p.serve b n v m = some (.ok { p with strings := p.strings ++ List.replicate 4 none }) := by
  have hrun := (genRequestHandler_run hv.2 m.generation m.rnd p.strings).2.2 text hm
  have hcall : (callHandler b n v.request v.localUri m v.handler).run p.strings =
      .done ⟨200, .text (genPage m.rnd text), false⟩ (p.strings ++ List.replicate 4 none) := by
    rw [hv.1]
    exact run_bind_pure_eq_done_iff.mpr ⟨_, hrun, rfl⟩
  have huse : p.usePage v.handler = .ok () := by
    rw [hv.1, usePage, Process.useTemplate, hserver, htemplate]
    rfl
  rw [serve_done hcall huse, Bool.or_false]

/-! ### Calls on the shared object -/

/-- The object after a call of `YogiGen_generate`. -/
theorem shared_of_calls {o o' : Object} {call : GenCall} (hp : p.Shared)
    (hyogen : p.yogen = .to (some o)) (hcalls : Calls o call o') :
    (o'.contents ≠ none ∧ o'.closes = 0 ∧ p.Swept ∧ call.phrase ≠ none) ∨
      (o'.contents = none ∧ o'.closes = 1 ∧ call.phrase = none) := by
  obtain ⟨o₁, hyogen₁, hstate⟩ := hp
  obtain rfl := Option.some.inj (Field.to.inj (hyogen.symm.trans hyogen₁))
  obtain ⟨y₁, hc, hends⟩ := generate_cases hcalls
  obtain ⟨hcloses, hswept⟩ : o.closes = 0 ∧ p.Swept := by
    rcases hstate with ⟨-, h0⟩ | ⟨hdead, -⟩
    · exact h0
    · exact absurd (hc.symm.trans hdead) (by simp)
  rcases hends with ⟨out, y₂, hr, rfl, -⟩ | ⟨hr, rfl, -⟩
  · exact .inl ⟨Option.some_ne_none y₂, hcloses, hswept, by rw [hr]; exact Option.some_ne_none out⟩
  · exact .inr ⟨rfl, by rw [hcloses], hr⟩

/-- A call that makes a phrase abandons no text. -/
theorem not_abandons_of_phrase {o : Object} {call : GenCall} {m : Meets} {r : Request}
    {x : RequestHandler} (h : m.generation.Of o call) (hphrase : call.phrase ≠ none) :
    ¬ Abandons r m x := by
  rintro ⟨-, -, out, hout⟩
  rw [hout] at h
  exact hphrase h.1

/-! ### Steps -/

/-- The ways in which a step breaks a process: the error label of `YogiServer_init` tests a file
pointer that is unset; the object has been released; a template is NULL; a request is
careless with its strings; or a call changes the object that others have met on. -/
inductive Breaks (p : Process) (l : Happening) : Breach → Prop
  | unset : p.Early → Breaks p l .unset
  | released : p.Lost → Breaks p l .released
  | null {t : Template} : p.template t = .null → Breaks p l .null
  | string {mis : Misuse} : l.Careless → Breaks p l (.string mis)
  | race {v : Visit} {call : GenCall} {m : Meets} {o o' : Object} : l = .leave v call m →
      p.yogen = .to (some o) → Calls o call o' → p.crowded = true → o' ≠ o → Breaks p l .race

/-- What the step of a handler comes to: the object is as it was, or `YogiGen_generate` has been
left, or the process breaks. -/
inductive Handles (p : Process) (l : Happening) : Except Breach Process → Prop
  | keeps {p' : Process} : p.Frame p' → p'.yogen = p.yogen → p'.Shared → ¬ l.Careless →
      (∀ v call m, l ≠ .leave v call m) → Handles p l (.ok p')
  | leaves {p' : Process} {v : Visit} {call : GenCall} {m : Meets} {o o' : Object} :
      l = .leave v call m → p.yogen = .to (some o) → Calls o call o' → p.Frame p' →
      p'.yogen = .to (some o') → p'.Shared → Handles p l (.ok p')
  | breaks {br : Breach} : p.Breaks l br → Handles p l (.error br)

/-- What breaks a page breaks the step. -/
theorem Serving.breaks_of_usePage {x : RequestHandler} {br : Breach} (h : p.Serving)
    (hpc : p.pc.IsServing) (huse : p.usePage x = .error br) : p.Breaks l br := by
  rcases h.usePage x with hok | ⟨hreleased, hdead⟩ | ⟨hnull, t, ht⟩
  · exact absurd (hok.symm.trans huse) (by simp)
  · obtain rfl := Except.error.inj (hreleased.symm.trans huse)
    exact .released ⟨hdead, serving_not_last hpc⟩
  · obtain rfl := Except.error.inj (hnull.symm.trans huse)
    exact .null ht

/-- A handler that does not generate a phrase. -/
theorem Serving.handles_serve {fuel : ℕ} {v : Visit} {m : Meets} (h : p.Serving)
    (hpc : p.pc.IsServing) (hv : ¬ v.Generates)
    (hr : { p with handling := p.handling.erase v }.serve b fuel v m = some r) :
    p.Handles (.serve v m) r := by
  have hframe : p.Frame { p with handling := p.handling.erase v } :=
    ⟨rfl, rfl, rfl, rfl, rfl, rfl⟩
  rcases serve_cases hr with ⟨mis, rfl, hcareless⟩ | ⟨hcareful, hanswer⟩
  · exact .breaks (.string hcareless)
  · rcases hanswer with ⟨p', rfl, hframe', hyogen, hswept⟩ | ⟨br, huse, rfl⟩
    · refine .keeps (hframe.trans hframe') hyogen ?_ ?_ (by simp)
      · obtain ⟨o, ho, hstate⟩ := h.shared
        refine ⟨o, hyogen.trans ho, hstate.imp (fun hlive => ⟨hlive.1, hlive.2.1, ?_⟩) id⟩
        exact hswept (fun habandons => hv ⟨habandons.1, habandons.2.1⟩) hlive.2.2
      · rintro ⟨hget, hnot⟩
        rcases hcareful with hfalse | hcareful
        · exact absurd (hfalse.symm.trans hget) (by decide)
        · exact hnot hcareful
    · exact .breaks (h.breaks_of_usePage (x := v.handler) hpc huse)

/-- The handler of a phrase that comes out of `YogiGen_generate`. -/
theorem Serving.handles_leave {fuel : ℕ} {v : Visit} {call : GenCall} {m : Meets}
    {o o' : Object} (h : p.Serving) (hv : v.Generates) (hyogen : p.yogen = .to (some o))
    (hcalls : Calls o call o') (hm : m.generation.Of o call)
    (hr : (p.left v o').serve b fuel v m = some r) : p.Handles (.leave v call m) r := by
  have hframe : p.Frame (p.left v o') := ⟨rfl, rfl, rfl, rfl, rfl, rfl⟩
  rcases serve_cases hr with ⟨mis, -, -, hnot⟩ | ⟨-, ⟨p', rfl, hframe', hyogen', hswept⟩ |
    ⟨br, huse, rfl⟩⟩
  · rw [hv.1] at hnot
    exact absurd trivial hnot
  · refine .leaves rfl hyogen hcalls (hframe.trans hframe') hyogen' ⟨o', hyogen', ?_⟩
    refine (shared_of_calls h.shared hyogen hcalls).imp (fun hlive => ?_) fun hdead =>
      ⟨hdead.1, hdead.2.1⟩
    exact ⟨hlive.1, hlive.2.1, hswept (not_abandons_of_phrase hm hlive.2.2.2) hlive.2.2.1⟩
  · rw [hv.1] at huse
    rcases h.useTemplate .gen with hok | ⟨hnull, ht⟩
    · exact absurd (hok.symm.trans huse) (by simp)
    · obtain rfl := Except.error.inj (hnull.symm.trans huse)
      exact .breaks (.null ht)

/-- **Inversion of a step**: it is one of the main thread, or one of a handler, which is taken
while the server has its handlers. -/
theorem step_inv (h : p.Inv y) (hstep : Step b y (.ok p) l r) :
    (∃ ok, l = .main p.pc ok ∧ p.Advances y ok r) ∨
      (p.pc.IsServing ∧ (∀ pc ok, l ≠ .main pc ok) ∧ p.Handles l r) := by
  cases hstep with
  | main hmain => exact .inl ⟨_, rfl, mainStep_cases h hmain⟩
  | signal hloop =>
      have hserving : p.pc.IsServing := by
        rw [hloop]
        trivial
      have hp := (inv_iff_serving hserving).mp h
      exact .inr ⟨hserving, by simp,
        .keeps ⟨rfl, rfl, rfl, rfl, rfl, rfl⟩ rfl hp.shared (fun h => h) (by simp)⟩
  | arrive hctx hmem =>
      have hserving := h.isServing (.inr (.inr ⟨hctx, List.ne_nil_of_mem hmem⟩))
      have hp := (inv_iff_serving hserving).mp h
      exact .inr ⟨hserving, by simp,
        .keeps ⟨rfl, rfl, rfl, rfl, rfl, rfl⟩ rfl hp.shared (fun h => h) (by simp)⟩
  | serve hmem hv hserve =>
      have hserving := h.isServing (.inl (List.ne_nil_of_mem hmem))
      have hp := (inv_iff_serving hserving).mp h
      exact .inr ⟨hserving, by simp, hp.handles_serve hserving hv hserve⟩
  | @enter p v hmem hv =>
      have hserving := h.isServing (.inl (List.ne_nil_of_mem hmem))
      have hp := (inv_iff_serving hserving).mp h
      refine .inr ⟨hserving, by simp, ?_⟩
      rcases hp.shared.use hp.server with ⟨huse, -⟩ | ⟨huse, -, hdead⟩
      · rw [huse]
        exact .keeps ⟨rfl, rfl, rfl, rfl, rfl, rfl⟩ rfl hp.shared (fun h => h) (by simp)
      · rw [huse]
        exact .breaks (.released ⟨hdead, serving_not_last hserving⟩)
  | leave hmem hv hyogen hcalls hm _ hserve =>
      have hserving := h.isServing (.inr (.inl (List.ne_nil_of_mem hmem)))
      have hp := (inv_iff_serving hserving).mp h
      exact .inr ⟨hserving, by simp, hp.handles_leave hv hyogen hcalls hm hserve⟩
  | race hmem hyogen hcalls hcrowded hne =>
      have hserving := h.isServing (.inr (.inl (List.ne_nil_of_mem hmem)))
      exact .inr ⟨hserving, by simp, .breaks (.race rfl hyogen hcalls hcrowded hne)⟩

/-- The server with its handlers is kept. -/
theorem Inv.of_frame (h : p.Inv y) (hpc : p.pc.IsServing) (hframe : p.Frame p')
    (hshared : p'.Shared) : p'.Inv y := by
  rw [inv_iff_serving (hframe.pc ▸ hpc)]
  exact ((inv_iff_serving hpc).mp h).of_frame hframe hshared

/-- **How a process can break**, or goes on as it should. -/
theorem step_cases (h : p.Inv y) (hstep : Step b y (.ok p) l r) :
    (∃ p', r = .ok p' ∧ p'.Inv y) ∨ ∃ br, r = .error br ∧ p.Breaks l br := by
  rcases step_inv h hstep with ⟨ok, -, hadvances⟩ | ⟨hserving, -, hhandles⟩
  · cases hadvances with
    | goes hinv _ _ => exact .inl ⟨_, rfl, hinv⟩
    | unset hearly => exact .inr ⟨_, rfl, .unset hearly⟩
    | released hpc hdead =>
        exact .inr ⟨_, rfl, .released ⟨hdead, by rw [hpc]; exact fun h => h⟩⟩
  · cases hhandles with
    | keeps hframe _ hshared _ _ => exact .inl ⟨_, rfl, h.of_frame hserving hframe hshared⟩
    | leaves _ _ _ hframe _ hshared => exact .inl ⟨_, rfl, h.of_frame hserving hframe hshared⟩
    | breaks hbreaks => exact .inr ⟨_, rfl, hbreaks⟩

/-! ### A server that runs -/

/-- The steps of the main thread from a process on, as long as they do not break it, with the
outcomes of its calls. -/
def mainRun (b : Build) (y : YogiGen) :
    List Bool → Process → List (Happening × Except Breach Process)
  | [], _ => []
  | ok :: oks, p =>
      match p.mainStep b y ok with
      | some (.ok p') => (.main p.pc ok, .ok p') :: mainRun b y oks p'
      | _ => []

/-- These steps of `main` are steps of the server. -/
theorem run_mainRun (b : Build) (y : YogiGen) (oks : List Bool) (p : Process) :
    Run (Step b y) (.ok p) (mainRun b y oks p) := by
  induction oks generalizing p with
  | nil => exact .nil _
  | cons ok oks ih =>
      rw [mainRun]
      split
      · next p' hmain => exact .cons (.main hmain) (ih p')
      · exact .nil _

/-- The server when all calls of `YogiServer_init` and `main` have succeeded. -/
def running (b : Build) (y : YogiGen) : Process where
  pc := .loop
  fp := .released
  server := .held
  yogen := .to (some (.loaded y))
  ctx := .held
  sysInfo := .held
  template _ := .held
  registered := (registrations b).map Prod.snd
  handling := []
  generating := []
  crowded := false
  strings := []
  terminate := false

/-- Those calls. -/
def boot (b : Build) (y : YogiGen) : List (Happening × Except Breach Process) :=
  mainRun b y (List.replicate 27 true) start

/-- Reading one template after another reads them all. -/
theorem update_templates (f : Template → Ptr) (q : Ptr) :
    templates.foldl (fun f t => Function.update f t q) f = fun _ => q := by
  funext t
  cases t with
  | index | gen | permalink | getbyid => rfl

/-- After the start the server is running. -/
theorem final_boot (b : Build) (y : YogiGen) :
    final (.ok start) (boot b y) = .ok (running b y) := by
  have hfinal : final (.ok start) (boot b y) = .ok { running b y with
      template := templates.foldl (fun f t => Function.update f t .held) start.template } := by
    obtain ⟨heroku, ssl⟩ := b
    cases heroku with
    | false | true => rfl
  rw [hfinal, update_templates]
  rfl

/-- The start is a run of the server. -/
theorem run_boot (b : Build) (y : YogiGen) : Run (Step b y) (.ok start) (boot b y) :=
  run_mainRun b y _ start

/-- Every call of these runs succeeds. -/
theorem mem_mainRun {n : ℕ} {q : Happening × Except Breach Process}
    (h : q ∈ mainRun b y (List.replicate n true) p) : ∃ pc, q.1 = .main pc true := by
  induction n generalizing p with
  | zero => exact absurd h List.not_mem_nil
  | succ n ih =>
      rw [List.replicate_succ, mainRun] at h
      split at h
      · rcases List.mem_cons.mp h with rfl | h
        · exact ⟨_, rfl⟩
        · exact ih h
      · exact absurd h List.not_mem_nil

end Process

end Yogigen
