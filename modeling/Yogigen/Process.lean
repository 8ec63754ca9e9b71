import Yogigen.Calls
import Yogigen.Closing
import Yogigen.Serving

/-!
# The Process of the Server

`YogiServer_init`, `YogiServer_close` and `main`, call by call, next to the requests that the
threads of the web server handle from `mg_start` on. A step is taken by the main thread or
by a handler, and every call of the main thread may fail. A pointer is unset until it is
assigned, and what is held has to be released.

A handler runs as in `Serving`, on one store with the strings of all handlers, and uses the
templates and the shared object of the server. No handler touches the strings of another one,
so that its work between two uses of the object is one step. A call of `YogiGen_generate` is
entered and left, since no lock keeps the threads apart: calls that leave the object as it is
may overlap, and a call that changes it between others that have overlapped is a race, after
which nothing is known. What a call makes of the object is `Calls`; the counters of the
connections are left to `ConnLimit` and what an insertion does with its objects to `Outcomes`.

## Main results

* `mainStep_cases`: what the calls of the main thread do to the server.
-/

open Printf Owned Owned.Prog Transition

namespace Yogigen

/-! ### The process -/

/-- A pointer: not assigned, NULL, or to something that is held or has been released. -/
inductive Ptr
  | unset
  | null
  | held
  | released
  deriving DecidableEq

/-- What must not be done with a pointer or with a string, and two calls of
`YogiGen_generate` of which one changes the object. -/
inductive Breach
  | unset
  | null
  | released
  | string (m : Misuse)
  | race
  deriving DecidableEq

/-- Use what a pointer points to. -/
def Ptr.use : Ptr → Except Breach Unit
  | .unset => .error .unset
  | .null => .error .null
  | .held => .ok ()
  | .released => .error .released

/-- Release what a pointer points to, unless it is NULL. -/
def Ptr.release : Ptr → Except Breach Ptr
  | .unset => .error .unset
  | .null => .ok .null
  | .held => .ok .released
  | .released => .error .released

/-- The templates of `pg_data`. -/
inductive Template
  | index
  | gen
  | permalink
  | getbyid
  deriving DecidableEq

/-- Where the main thread is: which call of `YogiServer_init` it makes next, the error label
of it, the calls of `main`, or those of `YogiServer_close`. The list is what remains to be
read or registered; the flag is what `main` returns. -/
inductive Pc
  | malloc
  | yogenInit
  | fetchAll
  | start
  | ports
  | sysInfo
  | fopen (t : Template) (ts : List Template)
  | bread (t : Template) (ts : List Template)
  | fclose (ts : List Template)
  | register (hs : List RequestHandler)
  | error
  | sigaction
  | loop
  | stop (success : Bool)
  | destroyTemplates (success : Bool)
  | freeSysInfo (success : Bool)
  | closeYogen (success : Bool)
  | freeServer (success : Bool)
  | ended (success : Bool)
  deriving DecidableEq

/-- From the first registration until `mg_stop`. -/
def Pc.IsServing : Pc → Prop
  | .register _ | .sigaction | .loop | .stop _ => True
  | _ => False

/-- The calls before the first template is opened that can fail. -/
def Pc.IsEarly : Pc → Prop
  | .malloc | .yogenInit | .fetchAll | .start | .ports => True
  | _ => False

/-- Opening a template. -/
def Pc.IsOpening : Pc → Prop
  | .fopen _ _ => True
  | _ => False

/-- The error label, and what follows when the object has been closed. -/
def Pc.IsLast : Pc → Prop
  | .error | .freeServer _ | .ended _ => True
  | _ => False

/-- A request that the web server gives to a handler. -/
structure Visit where
  handler : RequestHandler
  request : Request
  localUri : Bytes
  deriving DecidableEq

/-- The request is one for a phrase, and its handler calls `YogiGen_generate`. -/
def Visit.Generates (v : Visit) : Prop :=
  v.handler = .gen ∧ isGet v.request = true

/-- The main thread with the fields of `struct yogiserver` and the file that is open; the web
server with the handlers it knows, the requests that are being handled and those inside
`YogiGen_generate`; and the strings of the handlers. The flag `crowded` is set while there are
requests in `YogiGen_generate` some of which have met there. The object behind
`server->yogen` has no contents of its own before `YogiGen_fetch_all`. -/
structure Process where
  pc : Pc
  fp : Ptr
  server : Ptr
  yogen : Field (Option Object)
  ctx : Ptr
  sysInfo : Ptr
  template : Template → Ptr
  registered : List RequestHandler
  handling : List Visit
  generating : List Visit
  crowded : Bool
  strings : Store Bytes
  terminate : Bool

namespace Process

/-- The start of `main`. -/
def start : Process where
  pc := .malloc
  fp := .unset
  server := .unset
  yogen := .unset
  ctx := .unset
  sysInfo := .unset
  template _ := .unset
  registered := []
  handling := []
  generating := []
  crowded := false
  strings := []
  terminate := false

/-! ### The main thread -/

/-- The templates in the order in which they are read. -/
def templates : List Template :=
  [.index, .gen, .permalink, .getbyid]

/-- What follows when some templates are left to be read. -/
def openNext (b : Build) : List Template → Pc
  | [] => .register ((registrations b).map Prod.snd)
  | t :: ts => .fopen t ts

/-- What follows when some handlers are left to be registered. -/
def registerNext : List RequestHandler → Pc
  | [] => .sigaction
  | h :: hs => .register (h :: hs)

/-- `YogiGen_close`, if there is an object. -/
def closeYogen : Field (Option Object) → Except Breach (Field (Option Object))
  | .unset => .error .unset
  | .null => .ok .null
  | .to none => .error .unset
  | .to (some o) =>
      match yogiServerClose o with
      | .ok o => .ok (.to (some o))
      | .error _ => .error .released

/-- The next call of the main thread, when it succeeds or fails: `none` while it waits. The
loaded tables are `y`. -/
def mainStep (b : Build) (y : YogiGen) (ok : Bool) (p : Process) :
    Option (Except Breach Process) :=
  match p.pc with
  | .malloc => some (.ok
      (if ok then { p with server := .held, pc := .yogenInit }
        else { p with server := .null, pc := .error }))
  | .yogenInit => some (.ok
      (if ok then { p with yogen := .to none, pc := .fetchAll }
        else { p with yogen := .null, pc := .error }))
  | .fetchAll => some (.ok
      (if ok then { p with yogen := .to (some (.loaded y)), pc := .start }
        else { p with pc := .error }))
  | .start => some (.ok
      (if ok then { p with ctx := .held, pc := .ports }
        else { p with ctx := .null, pc := .error }))
  | .ports => some (.ok { p with pc := if ok then .sysInfo else .error })
  | .sysInfo => some (.ok
      -- a failure is only logged
      { p with sysInfo := if ok then .held else .null, pc := openNext b templates })
  | .fopen t ts => some (.ok
      (if ok then { p with fp := .held, pc := .bread t ts }
        else { p with fp := .null, pc := .error }))
  | .bread t ts => some (.ok
      -- the check that follows looks at the file again, not at the template
      { p with
        template := Function.update p.template t (if ok then .held else .null)
        pc := .fclose ts })
  | .fclose ts => some do
      let fp ← p.fp.release
      return { p with fp := fp, pc := openNext b ts }
  | .register [] => some (.ok { p with pc := .sigaction })
  | .register (h :: hs) => some (.ok
      { p with registered := p.registered ++ [h], pc := registerNext hs })
  | .error => some do
      let fp ← p.fp.release
      let server ← p.server.release
      return { p with fp := fp, server := server, pc := .ended false }
  | .sigaction => some (.ok { p with pc := if ok then .loop else .stop false })
  | .loop => if p.terminate then some (.ok { p with pc := .stop true }) else none
  | .stop success =>
      -- `mg_stop` waits for the requests that are being handled
      if p.handling = [] ∧ p.generating = [] then some do
        p.server.use
        let ctx ← p.ctx.release
        return { p with ctx := ctx, pc := .destroyTemplates success }
      else none
  | .destroyTemplates success => some do
      p.server.use
      let index ← (p.template .index).release
      let gen ← (p.template .gen).release
      let permalink ← (p.template .permalink).release
      let getbyid ← (p.template .getbyid).release
      return { p with
        template := fun
          | .index => index
          | .gen => gen
          | .permalink => permalink
          | .getbyid => getbyid
        pc := .freeSysInfo success }
  | .freeSysInfo success => some do
      p.server.use
      let sysInfo ← p.sysInfo.release
      return { p with sysInfo := sysInfo, pc := .closeYogen success }
  | .closeYogen success => some do
      p.server.use
      let yogen ← closeYogen p.yogen
      return { p with yogen := yogen, pc := .freeServer success }
  | .freeServer success => some do
      let server ← p.server.release
      return { p with server := server, pc := .ended success }
  | .ended _ => none

/-! ### The handlers -/

/-- Use the object behind `server->yogen`. -/
def useYogen (p : Process) : Except Breach Unit := do
  p.server.use
  match p.yogen with
  | .unset | .to none => .error .unset
  | .null => .error .null
  | .to (some o) => if o.contents.isSome then return () else .error .released

/-- Use a template, which is the format of a page. -/
def useTemplate (p : Process) (t : Template) : Except Breach Unit := do
  p.server.use
  (p.template t).use

/-- What a handler uses of the server that answers with a page. -/
def usePage (p : Process) : RequestHandler → Except Breach Unit
  | .frontpage => p.useTemplate .index
  | .gen => p.useTemplate .gen
  | .permalink => do
      p.useYogen
      p.useTemplate .permalink
  | .getbyid => do
      p.useYogen
      p.useTemplate .getbyid
  | .exit | .css | .font | .js | .acmeChallenge => return ()

/-- A handler has answered, and left these strings. -/
def answered (p : Process) (h : RequestHandler) (a : Answer) (strings : Store Bytes) :
    Except Breach Process :=
  (if a.status = 200 then p.usePage h else .ok ()).map fun _ =>
    { p with strings := strings, terminate := p.terminate || a.terminate }

/-- What the handler of a request does to the server, unless it is still running. -/
def serve (b : Build) (fuel : ℕ) (v : Visit) (m : Meets) (p : Process) :
    Option (Except Breach Process) :=
  match (callHandler b fuel v.request v.localUri m v.handler).run p.strings with
  | .running => none
  | .misuse mis => some (.error (.string mis))
  | .done a strings => some (p.answered v.handler a strings)

/-- A request goes into `YogiGen_generate`. -/
def entered (p : Process) (v : Visit) : Process :=
  { p with
    handling := p.handling.erase v
    generating := v :: p.generating
    crowded := p.crowded || !p.generating.isEmpty }

/-- A request comes out of `YogiGen_generate`, which has left this object. -/
def left (p : Process) (v : Visit) (o : Object) : Process :=
  { p with
    generating := p.generating.erase v
    crowded := p.crowded && !(p.generating.erase v).isEmpty
    yogen := .to (some o) }

end Process

/-- How a call of `YogiGen_generate` ends: a text is given up when the draws have selected a
format and its expressions, and one of these is not found. -/
def Generation.Of (o : Object) (call : GenCall) : Generation → Prop
  | .phrase text => call.phrase = some text
  | .null => call.phrase = none ∧ ¬ ∃ y f s, o.contents = some y ∧ Chooses y call.draws f s
  | .abandoned _ => call.phrase = none ∧ ∃ y f s, o.contents = some y ∧ Chooses y call.draws f s

/-- What happens next: a call of the main thread, `SIGTERM`, a request that arrives, one whose
handler does its work, and one that enters or leaves `YogiGen_generate`. -/
inductive Happening
  | main (pc : Pc) (ok : Bool)
  | signal
  | arrive (v : Visit)
  | serve (v : Visit) (m : Meets)
  | enter (v : Visit)
  | leave (v : Visit) (call : GenCall) (m : Meets)

/-- The steps of a process; a process that is broken takes none. -/
inductive Process.Step (b : Build) (y : YogiGen) :
    Except Breach Process → Happening → Except Breach Process → Prop
  | main {p : Process} {ok : Bool} {r : Except Breach Process} : p.mainStep b y ok = some r →
      Step b y (.ok p) (.main p.pc ok) r
  | signal {p : Process} : p.pc = .loop →
      Step b y (.ok p) .signal (.ok { p with terminate := true })
  | arrive {p : Process} {v : Visit} : p.ctx = .held → v.handler ∈ p.registered →
      Step b y (.ok p) (.arrive v) (.ok { p with handling := v :: p.handling })
  | serve {p : Process} {v : Visit} {m : Meets} {n : ℕ} {r : Except Breach Process} :
      v ∈ p.handling → ¬ v.Generates →
      { p with handling := p.handling.erase v }.serve b n v m = some r →
      Step b y (.ok p) (.serve v m) r
  | enter {p : Process} {v : Visit} : v ∈ p.handling → v.Generates →
      Step b y (.ok p) (.enter v) (p.useYogen.map fun _ => p.entered v)
  | leave {p : Process} {v : Visit} {o o' : Object} {call : GenCall} {m : Meets} {n : ℕ}
      {r : Except Breach Process} : v ∈ p.generating → v.Generates → p.yogen = .to (some o) →
      Calls o call o' → m.generation.Of o call → (p.crowded = true → o' = o) →
      (p.left v o').serve b n v m = some r → Step b y (.ok p) (.leave v call m) r
  | race {p : Process} {v : Visit} {o o' : Object} {call : GenCall} {m : Meets} :
      v ∈ p.generating → p.yogen = .to (some o) → Calls o call o' → p.crowded = true → o' ≠ o →
      Step b y (.ok p) (.leave v call m) (.error .race)

namespace Process

/-! ### What holds of the pointers -/

/-- An assigned pointer that has not been released. -/
def Kept (q : Ptr) : Prop :=
  q = .held ∨ q = .null

/-- No handler is known yet, and none has run. -/
def Quiet (p : Process) : Prop :=
  p.registered = [] ∧ p.handling = [] ∧ p.generating = [] ∧ p.strings = []

/-- All strings have been destroyed. -/
def Swept (p : Process) : Prop :=
  ∀ cell ∈ p.strings, cell = none

/-- The server before its handlers are registered, with some templates read. -/
structure Opened (y : YogiGen) (done : List Template) (p : Process) : Prop where
  quiet : p.Quiet
  server : p.server = .held
  yogen : p.yogen = .to (some (.loaded y))
  ctx : p.ctx = .held
  sysInfo : Kept p.sysInfo
  template : ∀ t ∈ done, Kept (p.template t)

/-- The object is live and no string has been left, or the object has been released once by
`YogiGen_generate`. -/
def Shared (p : Process) : Prop :=
  ∃ o, p.yogen = .to (some o) ∧
    ((o.contents ≠ none ∧ o.closes = 0 ∧ p.Swept) ∨ (o.contents = none ∧ o.closes = 1))

/-- The object has been released. -/
def Dead (p : Process) : Prop :=
  ∃ o, p.yogen = .to (some o) ∧ o.contents = none

/-- The server with its handlers. -/
structure Serving (p : Process) : Prop where
  fp : p.fp ≠ .held
  server : p.server = .held
  shared : p.Shared
  ctx : p.ctx = .held
  sysInfo : Kept p.sysInfo
  template : ∀ t, Kept (p.template t)

/-- The web server has stopped. -/
structure Stopped (p : Process) : Prop where
  handling : p.handling = []
  generating : p.generating = []
  fp : p.fp ≠ .held
  server : p.server = .held
  ctx : p.ctx = .released

/-- The object has been closed, once. -/
def YogenClosed (p : Process) : Prop :=
  ∃ o, p.yogen = .to (some o) ∧ o.contents = none ∧ o.closes = 1

/-- Nothing is held any more. -/
structure Clean (p : Process) : Prop where
  fp : p.fp ≠ .held
  server : p.server ≠ .held
  yogen : p.YogenClosed
  ctx : p.ctx ≠ .held
  sysInfo : p.sysInfo ≠ .held
  template : ∀ t, p.template t ≠ .held
  strings : p.Swept

/-- What `YogiServer_init` leaves behind when a template cannot be opened. -/
structure Abandoned (y : YogiGen) (p : Process) : Prop where
  quiet : p.Quiet
  fp : p.fp = .null
  server : p.server = .released
  yogen : p.yogen = .to (some (.loaded y))
  ctx : p.ctx = .held

/-- What holds of a process, wherever its main thread is. -/
def Inv (y : YogiGen) (p : Process) : Prop :=
  match p.pc with
  | .malloc => p.Quiet ∧ p.fp = .unset ∧ p.yogen = .unset
  | .yogenInit => p.Quiet ∧ p.fp = .unset ∧ p.yogen = .unset ∧ p.server = .held
  | .fetchAll => p.Quiet ∧ p.fp = .unset ∧ p.yogen = .to none ∧ p.server = .held
  | .start =>
      p.Quiet ∧ p.fp = .unset ∧ p.yogen = .to (some (.loaded y)) ∧ p.server = .held
  | .ports | .sysInfo =>
      p.Quiet ∧ p.fp = .unset ∧ p.yogen = .to (some (.loaded y)) ∧ p.server = .held ∧
        p.ctx = .held
  | .fopen t ts => ∃ done, done ++ t :: ts = templates ∧ p.Opened y done ∧ p.fp ≠ .held
  | .bread t ts => ∃ done, done ++ t :: ts = templates ∧ p.Opened y done ∧ p.fp = .held
  | .fclose ts => ∃ done, done ++ ts = templates ∧ p.Opened y done ∧ p.fp = .held
  | .error => p.Quiet ∧ (p.fp = .unset ∨
      (p.fp = .null ∧ p.yogen = .to (some (.loaded y)) ∧ p.server = .held ∧ p.ctx = .held))
  | .register _ | .sigaction | .loop | .stop _ => p.Serving
  | .destroyTemplates _ =>
      p.Stopped ∧ p.Shared ∧ Kept p.sysInfo ∧ ∀ t, Kept (p.template t)
  | .freeSysInfo _ =>
      p.Stopped ∧ p.Shared ∧ Kept p.sysInfo ∧ ∀ t, p.template t ≠ .held
  | .closeYogen _ =>
      p.Stopped ∧ p.Shared ∧ p.sysInfo ≠ .held ∧ ∀ t, p.template t ≠ .held
  | .freeServer _ =>
      p.Stopped ∧ p.YogenClosed ∧ p.Swept ∧ p.sysInfo ≠ .held ∧ ∀ t, p.template t ≠ .held
  | .ended _ =>
      (p.handling = [] ∧ p.generating = [] ∧ p.ctx = .released ∧ p.Clean) ∨ p.Abandoned y

/-- The invariant holds in the beginning. -/
theorem inv_start (y : YogiGen) : start.Inv y :=
  ⟨⟨rfl, rfl, rfl, rfl⟩, rfl, rfl⟩

/-! ### Rules of the operations -/

/-- A pointer that is kept can be released. -/
theorem release_kept {q : Ptr} (h : Kept q) :
    ∃ q', q.release = .ok q' ∧ q' ≠ .held ∧ (q' = .null → q = .null) := by
  rcases h with rfl | rfl
  · exact ⟨.released, rfl, by decide, by decide⟩
  · exact ⟨.null, rfl, by decide, fun h => h⟩

/-- And used, unless it is NULL. -/
theorem use_kept {q : Ptr} (h : Kept q) : q.use = .ok () ∨ (q.use = .error .null ∧ q = .null) := by
  rcases h with rfl | rfl
  · exact .inl rfl
  · exact .inr ⟨rfl, rfl⟩

/-- The object is live, and can be used and closed once, or neither. -/
theorem Shared.use {p : Process} (h : p.Shared) (hserver : p.server = .held) :
    (p.useYogen = .ok () ∧ ¬ p.Dead ∧ p.Swept ∧ ∃ o, closeYogen p.yogen = .ok (.to (some o)) ∧
        o.contents = none ∧ o.closes = 1) ∨
      (p.useYogen = .error .released ∧ closeYogen p.yogen = .error .released ∧ p.Dead) := by
  obtain ⟨o, hyogen, ⟨hlive, hcloses, hswept⟩ | ⟨hdead, -⟩⟩ := h
  · obtain ⟨y, hy⟩ := Option.ne_none_iff_exists'.mp hlive
    refine .inl ⟨?_, ?_, hswept, ⟨none, o.closes + 1⟩, ?_, rfl, ?_⟩
    · simp only [useYogen, hserver, hyogen, hy]
      rfl
    · simp [Dead, hyogen, hy]
    · simp only [closeYogen, hyogen, yogiServerClose, yogiGenClose, hy]
    · simp [hcloses]
  · refine .inr ⟨?_, ?_, o, hyogen, hdead⟩
    · simp only [useYogen, hserver, hyogen, hdead]
      rfl
    · simp only [closeYogen, hyogen, yogiServerClose, yogiGenClose, hdead]

/-- Without a handler that runs, the strings that handlers leave are all there is. -/
theorem Quiet.swept {p : Process} (h : p.Quiet) : p.Swept := by
  intro cell hcell
  rw [h.2.2.2] at hcell
  exact absurd hcell List.not_mem_nil

/-- The object for the next call of `YogiGen_generate`: the loaded one, until the server has
it. -/
def object (y : YogiGen) (p : Process) : Object :=
  match p.yogen with
  | .to (some o) => o
  | _ => .loaded y

variable {b : Build} {y : YogiGen} {p p' : Process} {ok : Bool} {r : Except Breach Process}

/-- The object, when the pointer is set to one. -/
theorem object_of_yogen {o : Object} (h : p.yogen = .to (some o)) : object y p = o := by
  rw [object, h]

/-- It depends on the pointer only. -/
theorem object_congr (h : p'.yogen = p.yogen) : object y p' = object y p := by
  rw [object, object, h]

/-- And so does whether it is dead. -/
theorem dead_congr (h : p'.yogen = p.yogen) : p'.Dead ↔ p.Dead := by
  rw [Dead, Dead, h]

/-! ### How the main thread goes on -/

/-- A call before the first template has failed, and the error label of `YogiServer_init`
tests a file pointer that is not assigned. -/
def Early (p : Process) : Prop :=
  p.pc = .error ∧ p.fp = .unset

/-- A failed call of `YogiGen_generate` has released the object, and the server has not closed
it yet. -/
def Lost (p : Process) : Prop :=
  p.Dead ∧ ¬ p.pc.IsLast

/-- How the main thread goes on: a call fails before the first template, or opening a
template does; `YogiServer_init` returns NULL after the latter; the object is closed and the
server released; or the next call is made, after which the object and the templates are as
they were, or assigned. -/
inductive Goes (y : YogiGen) (p : Process) (ok : Bool) (p' : Process) : Prop
  | fails : p.pc.IsEarly → ok = false → p'.Early → Goes y p ok p'
  | unopened : p.pc.IsOpening → ok = false → ¬ p.Dead → p'.pc = .error → p'.fp = .null →
      p'.template = p.template → Goes y p ok p'
  | abandons {success : Bool} : p.pc = .error → p.fp = .null → p'.pc = .ended success →
      p'.Abandoned y → p'.template = p.template → Goes y p ok p'
  | closes {success : Bool} : p.pc = .closeYogen success → ¬ p.Dead →
      p'.pc = .freeServer success → p'.template = p.template → Goes y p ok p'
  | ends {success : Bool} : p.pc = .freeServer success → p'.pc = .ended success →
      p'.ctx = .released → p'.template = p.template → Goes y p ok p'
  | proceeds : (ok = false → ¬ p.pc.IsEarly ∧ ¬ p.pc.IsOpening) → ¬ p.pc.IsLast →
      ¬ p'.pc.IsLast → (p'.yogen = p.yogen ∨ (¬ p.Dead ∧ ¬ p'.Dead)) →
      (∀ t, p'.template t = .null → p.template t = .null ∨ ∃ ts, p.pc = .bread t ts ∧ ok = false) →
      Goes y p ok p'

/-- A call that leaves the object and the templates. -/
theorem Goes.keeps (hlabel : ok = false → ¬ p.pc.IsEarly ∧ ¬ p.pc.IsOpening)
    (hpc : ¬ p.pc.IsLast) (hpc' : ¬ p'.pc.IsLast) (hyogen : p'.yogen = p.yogen)
    (htemplate : p'.template = p.template) : p.Goes y ok p' :=
  .proceeds hlabel hpc hpc' (.inl hyogen) fun _ ht => .inl (htemplate ▸ ht)

/-- What a call of the main thread comes to: it goes on, and the object for the generations is
as it was or closed; or the process breaks, at the error label with a file pointer that is
unset, or on an object that has been released. -/
inductive Advances (y : YogiGen) (p : Process) (ok : Bool) : Except Breach Process → Prop
  | goes {p' : Process} : p'.Inv y → p.Goes y ok p' →
      (object y p' = object y p ∨ (object y p').contents = none) → Advances y p ok (.ok p')
  | unset : p.Early → Advances y p ok (.error .unset)
  | released {success : Bool} : p.pc = .closeYogen success → p.Dead →
      Advances y p ok (.error .released)

/-- Opening templates is not the end. -/
theorem openNext_not_last (ts : List Template) : ¬ (openNext b ts).IsLast := by
  cases ts with
  | nil | cons => exact fun h => h

/-- The next template, or the first handler. -/
theorem inv_openNext {done ts : List Template} (hdone : done ++ ts = templates)
    (h : p.Opened y done) (hfp : p.fp ≠ .held) : { p with pc := openNext b ts }.Inv y := by
  cases ts with
  | nil =>
      rw [List.append_nil] at hdone
      refine ⟨hfp, h.server, ⟨_, h.yogen, .inl ⟨Option.some_ne_none y, rfl, h.quiet.swept⟩⟩,
        h.ctx, h.sysInfo, fun t => h.template t ?_⟩
      rw [hdone]
      cases t with
      | index | gen | permalink | getbyid => decide
  | cons t ts =>
      exact ⟨done, hdone, ⟨h.quiet, h.server, h.yogen, h.ctx, h.sysInfo, h.template⟩, hfp⟩

/-! ### The calls of `YogiServer_init` -/

/-- `malloc` for the server. -/
theorem advances_malloc (h : p.Inv y) (hr : p.mainStep b y ok = some r) (hpc : p.pc = .malloc) :
    p.Advances y ok r := by
  simp only [Inv, hpc] at h
  simp only [mainStep, hpc, Option.some.injEq] at hr
  subst hr
  obtain ⟨hquiet, hfp, hyogen⟩ := h
  cases ok with
  | true =>
      exact .goes ⟨hquiet, hfp, hyogen, rfl⟩
        (.keeps (by simp) (by simp [hpc, Pc.IsLast]) (fun h => h) rfl rfl) (.inl rfl)
  | false =>
      exact .goes ⟨hquiet, .inl hfp⟩
        (.fails (by rw [hpc]; trivial) rfl ⟨rfl, hfp⟩) (.inl rfl)

/-- `YogiGen_init`. -/
theorem advances_yogenInit (h : p.Inv y) (hr : p.mainStep b y ok = some r)
    (hpc : p.pc = .yogenInit) : p.Advances y ok r := by
  simp only [Inv, hpc] at h
  simp only [mainStep, hpc, Option.some.injEq] at hr
  subst hr
  obtain ⟨hquiet, hfp, hyogen, hserver⟩ := h
  have hobject : object y p = .loaded y := by rw [object, hyogen]
  cases ok with
  | true =>
      exact .goes ⟨hquiet, hfp, rfl, hserver⟩
        (.proceeds (by simp) (by simp [hpc, Pc.IsLast]) (fun h => h)
          (.inr ⟨by simp [Dead, hyogen], by simp [Dead]⟩) fun _ ht => .inl ht)
        (.inl hobject.symm)
  | false =>
      exact .goes ⟨hquiet, .inl hfp⟩
        (.fails (by rw [hpc]; trivial) rfl ⟨rfl, hfp⟩) (.inl hobject.symm)

/-- `YogiGen_fetch_all`. -/
theorem advances_fetchAll (h : p.Inv y) (hr : p.mainStep b y ok = some r)
    (hpc : p.pc = .fetchAll) : p.Advances y ok r := by
  simp only [Inv, hpc] at h
  simp only [mainStep, hpc, Option.some.injEq] at hr
  subst hr
  obtain ⟨hquiet, hfp, hyogen, hserver⟩ := h
  have hobject : object y p = .loaded y := by rw [object, hyogen]
  cases ok with
  | true =>
      exact .goes ⟨hquiet, hfp, rfl, hserver⟩
        (.proceeds (by simp) (by simp [hpc, Pc.IsLast]) (fun h => h)
          (.inr ⟨by simp [Dead, hyogen], by simp [Dead, Object.loaded]⟩) fun _ ht => .inl ht)
        (.inl hobject.symm)
  | false =>
      exact .goes ⟨hquiet, .inl hfp⟩
        (.fails (by rw [hpc]; trivial) rfl ⟨rfl, hfp⟩) (.inl rfl)

/-- `mg_start`. -/
theorem advances_start (h : p.Inv y) (hr : p.mainStep b y ok = some r) (hpc : p.pc = .start) :
    p.Advances y ok r := by
  simp only [Inv, hpc] at h
  simp only [mainStep, hpc, Option.some.injEq] at hr
  subst hr
  obtain ⟨hquiet, hfp, hyogen, hserver⟩ := h
  cases ok with
  | true =>
      exact .goes ⟨hquiet, hfp, hyogen, hserver, rfl⟩
        (.keeps (by simp) (by simp [hpc, Pc.IsLast]) (fun h => h) rfl rfl) (.inl rfl)
  | false =>
      exact .goes ⟨hquiet, .inl hfp⟩
        (.fails (by rw [hpc]; trivial) rfl ⟨rfl, hfp⟩) (.inl rfl)

/-- `mg_get_server_ports`. -/
theorem advances_ports (h : p.Inv y) (hr : p.mainStep b y ok = some r) (hpc : p.pc = .ports) :
    p.Advances y ok r := by
  simp only [Inv, hpc] at h
  simp only [mainStep, hpc, Option.some.injEq] at hr
  subst hr
  obtain ⟨hquiet, hfp, hyogen, hserver, hctx⟩ := h
  cases ok with
  | true =>
      exact .goes ⟨hquiet, hfp, hyogen, hserver, hctx⟩
        (.keeps (by simp) (by simp [hpc, Pc.IsLast]) (fun h => h) rfl rfl) (.inl rfl)
  | false =>
      exact .goes ⟨hquiet, .inl hfp⟩
        (.fails (by rw [hpc]; trivial) rfl ⟨rfl, hfp⟩) (.inl rfl)

/-- The text about the system. -/
theorem advances_sysInfo (h : p.Inv y) (hr : p.mainStep b y ok = some r)
    (hpc : p.pc = .sysInfo) : p.Advances y ok r := by
  simp only [Inv, hpc] at h
  simp only [mainStep, hpc, Option.some.injEq] at hr
  subst hr
  obtain ⟨hquiet, hfp, hyogen, hserver, hctx⟩ := h
  have hkept : Kept (if ok then .held else .null) := by
    cases ok with
    | true => exact .inl rfl
    | false => exact .inr rfl
  refine .goes ⟨[], rfl, ⟨hquiet, hserver, hyogen, hctx, hkept,
    fun t ht => absurd ht List.not_mem_nil⟩, by rw [hfp]; decide⟩ ?_ (.inl rfl)
  exact .keeps (by simp [hpc, Pc.IsEarly, Pc.IsOpening]) (by simp [hpc, Pc.IsLast])
    (openNext_not_last (b := b) templates) rfl rfl

/-- `fopen` on a template. -/
theorem advances_fopen {t : Template} {ts : List Template} (h : p.Inv y)
    (hr : p.mainStep b y ok = some r) (hpc : p.pc = .fopen t ts) : p.Advances y ok r := by
  simp only [Inv, hpc] at h
  simp only [mainStep, hpc, Option.some.injEq] at hr
  subst hr
  obtain ⟨done, hdone, ho, -⟩ := h
  cases ok with
  | true =>
      exact .goes ⟨done, hdone, ⟨ho.quiet, ho.server, ho.yogen,
        ho.ctx, ho.sysInfo, ho.template⟩, rfl⟩
        (.keeps (by simp) (by simp [hpc, Pc.IsLast]) (fun h => h) rfl rfl) (.inl rfl)
  | false =>
      exact .goes ⟨ho.quiet, .inr ⟨rfl, ho.yogen, ho.server, ho.ctx⟩⟩
        (.unopened (by rw [hpc]; trivial) rfl (by simp [Dead, ho.yogen, Object.loaded]) rfl rfl
          rfl) (.inl rfl)

/-- `bread` on a template. -/
theorem advances_bread {t : Template} {ts : List Template} (h : p.Inv y)
    (hr : p.mainStep b y ok = some r) (hpc : p.pc = .bread t ts) : p.Advances y ok r := by
  simp only [Inv, hpc] at h
  simp only [mainStep, hpc, Option.some.injEq] at hr
  subst hr
  obtain ⟨done, hdone, ho, hfp⟩ := h
  refine .goes ⟨done ++ [t], by rw [List.append_assoc]; exact hdone,
    ⟨ho.quiet, ho.server, ho.yogen, ho.ctx, ho.sysInfo,
      fun t' ht' => ?_⟩, hfp⟩
    (.proceeds (by simp [hpc, Pc.IsEarly, Pc.IsOpening]) (by simp [hpc, Pc.IsLast])
      (fun h => h) (.inl rfl) fun t' ht' => ?_) (.inl rfl)
  · by_cases heq : t' = t
    · subst heq
      dsimp only
      rw [Function.update_self]
      cases ok with
      | true => exact .inl rfl
      | false => exact .inr rfl
    · dsimp only
      rw [Function.update_of_ne heq]
      exact ho.template t' ((List.mem_append.mp ht').resolve_right (by simpa using heq))
  · by_cases heq : t' = t
    · subst heq
      dsimp only at ht'
      rw [Function.update_self] at ht'
      cases ok with
      | true => exact absurd ht' (by simp)
      | false => exact .inr ⟨ts, hpc, rfl⟩
    · dsimp only at ht'
      rw [Function.update_of_ne heq] at ht'
      exact .inl ht'

/-- `fclose` on a template. -/
theorem advances_fclose {ts : List Template} (h : p.Inv y) (hr : p.mainStep b y ok = some r)
    (hpc : p.pc = .fclose ts) : p.Advances y ok r := by
  simp only [Inv, hpc] at h
  simp only [mainStep, hpc, Option.some.injEq] at hr
  subst hr
  obtain ⟨done, hdone, ho, hfp⟩ := h
  rw [hfp]
  exact .goes (inv_openNext (p := { p with fp := .released }) hdone
    ⟨ho.quiet, ho.server, ho.yogen, ho.ctx, ho.sysInfo,
      ho.template⟩ (by simp))
    (.keeps (by simp [hpc, Pc.IsEarly, Pc.IsOpening]) (by simp [hpc, Pc.IsLast])
      (openNext_not_last (b := b) ts) rfl rfl) (.inl rfl)

/-- The error label. -/
theorem advances_error (h : p.Inv y) (hr : p.mainStep b y ok = some r) (hpc : p.pc = .error) :
    p.Advances y ok r := by
  simp only [Inv, hpc] at h
  simp only [mainStep, hpc, Option.some.injEq] at hr
  subst hr
  obtain ⟨hquiet, hfp | ⟨hfp, hyogen, hserver, hctx⟩⟩ := h
  · rw [hfp]
    exact .unset ⟨hpc, hfp⟩
  · rw [hfp, hserver]
    have hleft : Abandoned y { p with fp := .null, server := .released, pc := .ended false } :=
      ⟨hquiet, rfl, rfl, hyogen, hctx⟩
    exact .goes (.inr hleft) (.abandons hpc hfp rfl hleft rfl) (.inl rfl)

/-! ### The calls while the server has its handlers -/

/-- Where only the place changes, the server stays as complete as it was. -/
theorem Serving.goes_on (h : p.Serving) (hpc : p.pc.IsServing) {pc : Pc} (hpc' : pc.IsServing)
    (registered : List RequestHandler) :
    p.Advances y ok (.ok { p with registered := registered, pc := pc }) := by
  have hserving : { p with registered := registered, pc := pc }.Serving :=
    ⟨h.fp, h.server, h.shared, h.ctx, h.sysInfo, h.template⟩
  have hnot : ∀ {pc : Pc}, pc.IsServing → ¬ pc.IsEarly ∧ ¬ pc.IsOpening ∧ ¬ pc.IsLast := by
    intro pc hserving
    cases pc with
    | register | sigaction | loop | stop => exact ⟨fun h => h, fun h => h, fun h => h⟩
    | _ => exact hserving.elim
  refine .goes ?_ (.keeps (fun _ => ⟨(hnot hpc).1, (hnot hpc).2.1⟩) (hnot hpc).2.2
    (hnot hpc').2.2 rfl rfl) (.inl rfl)
  cases pc with
  | register | sigaction | loop | stop => exact hserving
  | _ => exact hpc'.elim

/-- `mg_set_request_handler`, for one handler. -/
theorem advances_register {hs : List RequestHandler} (h : p.Inv y)
    (hr : p.mainStep b y ok = some r) (hpc : p.pc = .register hs) : p.Advances y ok r := by
  simp only [Inv, hpc] at h
  have hserving : p.pc.IsServing := by
    rw [hpc]
    trivial
  cases hs with
  | nil =>
      simp only [mainStep, hpc, Option.some.injEq] at hr
      subst hr
      exact h.goes_on hserving (show Pc.IsServing .sigaction from trivial) p.registered
  | cons x hs =>
      simp only [mainStep, hpc, Option.some.injEq] at hr
      subst hr
      refine h.goes_on hserving ?_ _
      cases hs with
      | nil | cons => trivial

/-- `sigaction`. -/
theorem advances_sigaction (h : p.Inv y) (hr : p.mainStep b y ok = some r)
    (hpc : p.pc = .sigaction) : p.Advances y ok r := by
  simp only [Inv, hpc] at h
  simp only [mainStep, hpc, Option.some.injEq] at hr
  subst hr
  have hserving : p.pc.IsServing := by
    rw [hpc]
    trivial
  cases ok with
  | true => exact h.goes_on hserving (show Pc.IsServing .loop from trivial) p.registered
  | false => exact h.goes_on hserving (show Pc.IsServing (.stop false) from trivial) p.registered

/-- A turn of the loop that waits for the end. -/
theorem advances_loop (h : p.Inv y) (hr : p.mainStep b y ok = some r) (hpc : p.pc = .loop) :
    p.Advances y ok r := by
  simp only [Inv, hpc] at h
  simp only [mainStep, hpc] at hr
  split_ifs at hr with hterminate
  obtain rfl := Option.some.inj hr
  have hserving : p.pc.IsServing := by
    rw [hpc]
    trivial
  exact h.goes_on hserving (show Pc.IsServing (.stop true) from trivial) p.registered

/-! ### The calls of `YogiServer_close` -/

/-- `mg_stop`, which waits for the handlers. -/
theorem advances_stop {success : Bool} (h : p.Inv y) (hr : p.mainStep b y ok = some r)
    (hpc : p.pc = .stop success) : p.Advances y ok r := by
  simp only [Inv, hpc] at h
  simp only [mainStep, hpc] at hr
  split_ifs at hr with hidle
  obtain rfl := Option.some.inj hr
  rw [h.server, h.ctx]
  exact .goes ⟨⟨hidle.1, hidle.2, h.fp, rfl, rfl⟩, h.shared, h.sysInfo, h.template⟩
    (.keeps (by simp [hpc, Pc.IsEarly, Pc.IsOpening]) (by simp [hpc, Pc.IsLast])
      (fun h => h) rfl rfl) (.inl rfl)

/-- `bdestroy` on the templates. -/
theorem advances_destroyTemplates {success : Bool} (h : p.Inv y)
    (hr : p.mainStep b y ok = some r) (hpc : p.pc = .destroyTemplates success) :
    p.Advances y ok r := by
  simp only [Inv, hpc] at h
  simp only [mainStep, hpc, Option.some.injEq] at hr
  subst hr
  obtain ⟨hstopped, hshared, hsys, htemplate⟩ := h
  obtain ⟨q₁, h₁, hq₁, hn₁⟩ := release_kept (htemplate .index)
  obtain ⟨q₂, h₂, hq₂, hn₂⟩ := release_kept (htemplate .gen)
  obtain ⟨q₃, h₃, hq₃, hn₃⟩ := release_kept (htemplate .permalink)
  obtain ⟨q₄, h₄, hq₄, hn₄⟩ := release_kept (htemplate .getbyid)
  rw [hstopped.server, h₁, h₂, h₃, h₄]
  refine .goes ⟨⟨hstopped.handling, hstopped.generating, hstopped.fp, rfl, hstopped.ctx⟩,
    hshared, hsys, fun t => ?_⟩
    (.proceeds (by simp [hpc, Pc.IsEarly, Pc.IsOpening]) (by simp [hpc, Pc.IsLast])
      (fun h => h) (.inl rfl) fun t ht => .inl ?_) (.inl rfl)
  · cases t with
    | index => exact hq₁
    | gen => exact hq₂
    | permalink => exact hq₃
    | getbyid => exact hq₄
  · cases t with
    | index => exact hn₁ ht
    | gen => exact hn₂ ht
    | permalink => exact hn₃ ht
    | getbyid => exact hn₄ ht

/-- `free` on the text about the system. -/
theorem advances_freeSysInfo {success : Bool} (h : p.Inv y) (hr : p.mainStep b y ok = some r)
    (hpc : p.pc = .freeSysInfo success) : p.Advances y ok r := by
  simp only [Inv, hpc] at h
  simp only [mainStep, hpc, Option.some.injEq] at hr
  subst hr
  obtain ⟨hstopped, hshared, hsys, htemplate⟩ := h
  obtain ⟨q, hq, hne, -⟩ := release_kept hsys
  rw [hstopped.server, hq]
  exact .goes ⟨⟨hstopped.handling, hstopped.generating, hstopped.fp, rfl, hstopped.ctx⟩,
    hshared, hne, htemplate⟩
    (.keeps (by simp [hpc, Pc.IsEarly, Pc.IsOpening]) (by simp [hpc, Pc.IsLast])
      (fun h => h) rfl rfl) (.inl rfl)

/-- `YogiGen_close`. -/
theorem advances_closeYogen {success : Bool} (h : p.Inv y) (hr : p.mainStep b y ok = some r)
    (hpc : p.pc = .closeYogen success) : p.Advances y ok r := by
  simp only [Inv, hpc] at h
  simp only [mainStep, hpc, Option.some.injEq] at hr
  subst hr
  obtain ⟨hstopped, hshared, hsys, htemplate⟩ := h
  rcases hshared.use hstopped.server with ⟨-, hlive, hswept, o, hclose, hdead, hcloses⟩ |
    ⟨-, hclose, hdead⟩
  · rw [hstopped.server, hclose]
    exact .goes ⟨⟨hstopped.handling, hstopped.generating, hstopped.fp, rfl, hstopped.ctx⟩,
      ⟨o, rfl, hdead, hcloses⟩, hswept, hsys, htemplate⟩ (.closes hpc hlive rfl rfl) (.inr hdead)
  · rw [hstopped.server, hclose]
    exact .released hpc hdead

/-- `free` on the server. -/
theorem advances_freeServer {success : Bool} (h : p.Inv y) (hr : p.mainStep b y ok = some r)
    (hpc : p.pc = .freeServer success) : p.Advances y ok r := by
  simp only [Inv, hpc] at h
  simp only [mainStep, hpc, Option.some.injEq] at hr
  subst hr
  obtain ⟨hstopped, hclosed, hswept, hsys, htemplate⟩ := h
  rw [hstopped.server]
  have hclean : Clean { p with server := .released, pc := .ended success } :=
    ⟨hstopped.fp, by simp, hclosed, by simp [hstopped.ctx], hsys, htemplate, hswept⟩
  exact .goes (.inl ⟨hstopped.handling, hstopped.generating, hstopped.ctx, hclean⟩)
    (.ends hpc rfl hstopped.ctx rfl) (.inl rfl)

/-- **A step of the main thread** breaks a process only where a call before the first
template has failed, or the object has been released. -/
theorem mainStep_cases (h : p.Inv y) (hr : p.mainStep b y ok = some r) : p.Advances y ok r := by
  cases hpc : p.pc with
  | malloc => exact advances_malloc h hr hpc
  | yogenInit => exact advances_yogenInit h hr hpc
  | fetchAll => exact advances_fetchAll h hr hpc
  | start => exact advances_start h hr hpc
  | ports => exact advances_ports h hr hpc
  | sysInfo => exact advances_sysInfo h hr hpc
  | fopen t ts => exact advances_fopen h hr hpc
  | bread t ts => exact advances_bread h hr hpc
  | fclose ts => exact advances_fclose h hr hpc
  | register hs => exact advances_register h hr hpc
  | error => exact advances_error h hr hpc
  | sigaction => exact advances_sigaction h hr hpc
  | loop => exact advances_loop h hr hpc
  | stop success => exact advances_stop h hr hpc
  | destroyTemplates success => exact advances_destroyTemplates h hr hpc
  | freeSysInfo success => exact advances_freeSysInfo h hr hpc
  | closeYogen success => exact advances_closeYogen h hr hpc
  | freeServer success => exact advances_freeServer h hr hpc
  | ended success => simp [mainStep, hpc] at hr

end Process

end Yogigen
