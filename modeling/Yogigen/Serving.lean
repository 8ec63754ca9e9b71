import Yogigen.GenPage
import Yogigen.Handlers
import Yogigen.Routes

/-!
# Serving Requests

What `handle_request` does with a request of any method, URI and headers: it answers a
preflight by itself, and gives every other request to one of the handlers of `yogiserver.c`
by the lookup of `Routes`. What is sent, whether the server is to end, and what happens to
the strings that the handlers create. What a request meets (how `YogiGen_generate` ends, the
draws, the answers of the database, the environment) is given with it.

The handlers send pages and files. What `mg_send_mime_file` does with a path is not
modelled, nor are the fillers that `substitute_and_prettify` creates and destroys by itself.

## Main results

* `handleRequest_sends`: which files are sent, and which requests end the server.
* `handleRequest_tidy_iff`: which requests destroy each of their strings once.
-/

open Printf Owned Owned.Prog HtmlText HtmlAttribute

namespace Yogigen

/-! ### Answers -/

/-- What is sent: a text or a file with its type after the header, or a header alone. -/
inductive Body
  | text (page : Bytes)
  | file (path mime : Bytes)
  | header (lines : Bytes)
  deriving DecidableEq

/-- What a request does: the status of the answer, what is sent, and whether the server is
to end. -/
structure Answer where
  status : ℕ
  body : Body
  terminate : Bool
  deriving DecidableEq

/-- A page is an answer. -/
def Response.answer (r : Response) : Answer :=
  ⟨r.status, .text r.page, false⟩

/-- What `YogiGen_generate` comes to: a phrase, NULL, or NULL after a lookup of
`substitute_and_prettify` has failed, whose text so far is left to nobody then. -/
inductive Generation
  | phrase (text : Bytes)
  | null
  | abandoned (out : Bytes)
  deriving DecidableEq

/-- What a request meets: how the generation for it ends, the byte that is drawn for a button,
the rounds of an insertion, the rows of an update, `LETS_ENCRYPT_CHALLENGE`, and the date and
the state of the connection for a header. -/
structure Meets where
  generation : Generation
  rnd : Option UInt8
  attempts : List Attempt
  rows : Option (List Bytes)
  challenge : Option Bytes
  date : Bytes
  connection : Bytes

/-! ### Preflights -/

/-- A request as the web server has parsed it. -/
structure HttpRequest where
  method : Bytes
  requestUri : Bytes
  httpHeaders : List (Bytes × Bytes)

/-- What the handlers see of a request, next to its path. -/
def HttpRequest.request (q : HttpRequest) : Request :=
  ⟨q.method, requestQuery q.requestUri⟩

/-! ### Handlers without strings -/

/-- Lines of text, each with a carriage return and its newline. -/
def crlfLines (ls : List String) : Bytes :=
  ls.flatMap fun line => ascii line ++ [13, 10]

/-- `index.html`. -/
def indexTemplate : Bytes :=
  crlfLines [
    "<!DOCTYPE html>",
    "<html lang=\"en\">",
    "  <head>",
    "    <title>YogiGen</title>",
    "    <meta charset=\"utf-8\">",
    "    <meta name=\"viewport\" content=\"width=device-width, initial-scale=1, " ++
      "shrink-to-fit=no\"/>",
    "    <link rel=\"stylesheet\" type=\"text/css\" href=\"./css/style.css\">",
    "  </head>",
    "  <body>",
    "    <form action=\"/gen\" method=\"GET\">",
    "      <div id=\"wrapper\">",
    "        <button class=\"button-primary\" type=\"submit\">%s</button>",
    "      </div>",
    "    </form>",
    "  </body>",
    "</html>"]

/-- The answer of a handler to a request that is not a `GET`. -/
def notAllowed : Answer :=
  ⟨405, .text [], false⟩

/-- `frontpage_request_handler`. -/
def frontpageRequestHandler (r : Request) (rnd : Option UInt8) : Answer :=
  if isGet r then ⟨200, .text (format indexTemplate [.str (buttonText rnd)]), false⟩
  else notAllowed

/-- `exit_request_handler`. -/
def exitRequestHandler (r : Request) : Answer :=
  if isGet r then ⟨200, .text (ascii "Server will shut down.\n"), true⟩ else notAllowed

/-- `css_request_handler`. -/
def cssRequestHandler (r : Request) : Answer :=
  if isGet r then ⟨200, .file (ascii "../resources/css/style.css") (ascii "text/css"), false⟩
  else notAllowed

/-- `js_request_handler`. -/
def jsRequestHandler (r : Request) : Answer :=
  if isGet r then
    ⟨200, .file (ascii "../resources/js/cp2cb-async-fallback.js") (ascii "text/javascript"), false⟩
  else notAllowed

/-- `acme_challenge_handler`, which does not look at the method. -/
def acmeChallengeHandler (challenge : Option Bytes) : Answer :=
  match challenge with
  | some text => ⟨200, .text (format text []), false⟩
  | none => ⟨404, .text [], false⟩

/-! ### Handlers with strings -/

/-- `gen_request_handler`, when `YogiGen_generate` ends so. -/
def genRequestHandler (r : Request) (generation : Generation) (rnd : Option UInt8) :
    Prog Bytes Response :=
  if isGet r then
    match generation with
    | .null => return ⟨500, []⟩
    | .abandoned out => do
        -- the error label of `substitute_and_prettify` does not destroy its text
        let _ ← create out
        return ⟨500, []⟩
    | .phrase text => do
        let genStr ← create text
        let genStrEnc ← copyString (some genStr)
        let find ← newString (some (ascii "'"))
        let replace ← newString (some (ascii "&#8217"))
        let enc ← get genStrEnc
        let f ← get find
        let repl ← get replace
        put genStrEnc (bfindreplace enc f repl 0)
        destroy find
        destroy replace
        let text ← get (some genStr)
        let enc ← get genStrEnc
        destroy (some genStr)
        destroy genStrEnc
        return ⟨200, format genTemplate [.str (buttonText rnd), .str text, .str enc]⟩
  else return ⟨405, []⟩

/-- `bchar`. -/
def bchar (b : Bytes) (p : ℤ) : UInt8 :=
  if 0 ≤ p then b.getD p.toNat 0 else 0

/-- `YOGIGEN_STYLE_FONT`. -/
def yogigenStyleFont : Bytes :=
  ascii "../resources/fonts/TFArrow-Bold.%s"

/-- The extension and the type of the font that `font_request_handler` sends, for a request
with or without a query string. -/
def fontOf (hasQuery : Bool) (localUri : Bytes) : Option (Bytes × Bytes) :=
  if hasQuery then some (ascii "eot", ascii "font/embedded-opentype")
  else
    let pos := bstrchr localUri 46
    if bchar localUri (pos + 1) = 101 then some (ascii "eot", ascii "font/eot")
    else if bchar localUri (pos + 1) = 116 then some (ascii "ttf", ascii "font/ttf")
    else if bchar localUri (pos + 4) = 102 then
      if bchar localUri (pos + 5) = 0 then some (ascii "woff", ascii "font/woff")
      else some (ascii "woff2", ascii "font/woff2")
    else none

/-- `font_request_handler`. -/
def fontRequestHandler (r : Request) (localUri : Bytes) : Prog Bytes Answer :=
  if isGet r then do
    let filepath ← newString (some yogigenStyleFont)
    let uri ← newString (some localUri)
    let text ← get uri
    match fontOf r.queryString.isSome text with
    | some (extension, mime) => do
        put filepath (format yogigenStyleFont [.str extension])
        let path ← get filepath
        destroy filepath
        destroy uri
        return ⟨200, .file path mime, false⟩
    | none => do
        let _ ← get uri
        destroy uri
        destroy filepath
        return ⟨404, .text [], false⟩
  else return notAllowed

/-! ### Calling the handlers -/

/-- What a handler does with a request for a path. -/
def callHandler (b : Build) (fuel : ℕ) (r : Request) (localUri : Bytes) (m : Meets) :
    RequestHandler → Prog Bytes Answer
  | .frontpage => return frontpageRequestHandler r m.rnd
  | .gen => do
      let response ← genRequestHandler r m.generation m.rnd
      return response.answer
  | .permalink => do
      let response ← permalinkRequestHandler b r m.attempts
      return response.answer
  | .getbyid => do
      let response ← getbyidRequestHandler fuel r m.rows
      return response.answer
  | .exit => return exitRequestHandler r
  | .css => return cssRequestHandler r
  | .font => fontRequestHandler r localUri
  | .js => return jsRequestHandler r
  | .acmeChallenge => return acmeChallengeHandler m.challenge

/-- **A generated phrase** is sent on its page, and the four strings are destroyed; a text
that was given up stays. -/
theorem genRequestHandler_run {r : Request} (hget : isGet r = true) (generation : Generation)
    (rnd : Option UInt8) (s : Store Bytes) :
    (generation = .null → (genRequestHandler r generation rnd).run s = .done ⟨500, []⟩ s) ∧
      (∀ out, generation = .abandoned out →
        (genRequestHandler r generation rnd).run s = .done ⟨500, []⟩ (s ++ [some out])) ∧
      ∀ text, generation = .phrase text → (genRequestHandler r generation rnd).run s =
        .done ⟨200, genPage rnd text⟩ (s ++ List.replicate 4 none) := by
  rw [genRequestHandler.eq_def, if_pos hget]
  refine ⟨fun hnull => by rw [hnull]; rfl, fun out hout => by rw [hout]; rfl, fun text htext => ?_⟩
  subst htext
  have hcreate : (create text).run (s ++ []) = .done (s.length + 0) (s ++ [some text]) :=
    create_append _ s []
  have hcopy : (copyString (some (s.length + 0))).run (s ++ [some text]) =
      .done (some (s.length + 1)) (s ++ [some text, some text]) :=
    (run_bind_done (get_append rfl) _).trans (run_bind_done (create_append _ s [some text]) _)
  have hfind : (newString (some (ascii "'"))).run (s ++ [some text, some text]) =
      .done (some (s.length + 2)) (s ++ [some text, some text, some (bfromcstr (ascii "'"))]) :=
    run_bind_done (create_append _ s [some text, some text]) _
  have hrepl : (newString (some (ascii "&#8217"))).run
      (s ++ [some text, some text, some (bfromcstr (ascii "'"))]) =
        .done (some (s.length + 3)) (s ++ [some text, some text, some (bfromcstr (ascii "'")),
          some (bfromcstr (ascii "&#8217"))]) :=
    run_bind_done (create_append _ s [some text, some text, some (bfromcstr (ascii "'"))]) _
  dsimp only
  rw [← List.append_nil s, run_bind_done hcreate, run_bind_done hcopy, run_bind_done hfind,
    run_bind_done hrepl, run_bind_done (get_append rfl), run_bind_done (get_append rfl),
    run_bind_done (get_append rfl), run_bind_done (put_append rfl _),
    run_bind_done (destroy_append rfl), run_bind_done (destroy_append rfl),
    run_bind_done (get_append rfl), run_bind_done (get_append rfl),
    run_bind_done (destroy_append rfl), run_bind_done (destroy_append rfl)]
  rw [List.append_nil]
  rfl

/-- **A font** is sent by its name, and the two strings are destroyed. -/
theorem fontRequestHandler_run {r : Request} (hget : isGet r = true) (localUri : Bytes)
    (s : Store Bytes) :
    (fontRequestHandler r localUri).run s =
      .done ((fontOf r.queryString.isSome (bfromcstr localUri)).elim ⟨404, .text [], false⟩
        fun font => ⟨200, .file (format yogigenStyleFont [.str font.1]) font.2, false⟩)
        (s ++ List.replicate 2 none) := by
  have hpath : (newString (some yogigenStyleFont)).run (s ++ []) =
      .done (some (s.length + 0)) (s ++ [some (bfromcstr yogigenStyleFont)]) :=
    run_bind_done (create_append _ s []) _
  have huri : (newString (some localUri)).run (s ++ [some (bfromcstr yogigenStyleFont)]) =
      .done (some (s.length + 1))
        (s ++ [some (bfromcstr yogigenStyleFont), some (bfromcstr localUri)]) :=
    run_bind_done (create_append _ s [some (bfromcstr yogigenStyleFont)]) _
  rw [fontRequestHandler, if_pos hget, ← List.append_nil s, run_bind_done hpath,
    run_bind_done huri, run_bind_done (get_append rfl), List.append_nil]
  cases fontOf r.queryString.isSome (bfromcstr localUri) with
  | none =>
      dsimp only
      rw [run_bind_done (get_append rfl), run_bind_done (destroy_append rfl),
        run_bind_done (destroy_append rfl)]
      rfl
  | some font =>
      dsimp only
      rw [run_bind_done (put_append rfl _), run_bind_done (get_append rfl),
        run_bind_done (destroy_append rfl), run_bind_done (destroy_append rfl)]
      rfl

/-- The strings are destroyed unless a text was given up. -/
theorem genRequestHandler_tidy_iff (r : Request) (generation : Generation) (rnd : Option UInt8) :
    (genRequestHandler r generation rnd).Tidy ↔
      isGet r = false ∨ ∀ out, generation ≠ .abandoned out := by
  cases hget : isGet r with
  | false =>
      refine iff_of_true (fun s => ?_) (.inl rfl)
      rw [genRequestHandler.eq_def, hget]
      exact tidy_pure _ s
  | true =>
      have hrun := genRequestHandler_run hget generation rnd
      cases generation with
      | null =>
          refine iff_of_true (fun s => .inr ⟨⟨500, []⟩, 0, ?_⟩) (.inr (by simp))
          rw [(hrun s).1 rfl, List.replicate_zero, List.append_nil]
      | phrase text =>
          exact iff_of_true (fun s => .inr ⟨_, 4, (hrun s).2.2 text rfl⟩) (.inr (by simp))
      | abandoned out =>
          refine iff_of_false (fun htidy => ?_) (by simp)
          rcases htidy [] with h | ⟨response, k, h⟩
          · exact absurd ((hrun []).2.1 out rfl ▸ h) (by simp)
          · obtain ⟨-, hstore⟩ := Outcome.done.inj (((hrun []).2.1 out rfl).symm.trans h)
            have hmem : some out ∈ List.replicate k (none : Option Bytes) := by
              rw [← List.append_cancel_left hstore]
              exact List.mem_singleton_self _
            exact absurd (List.eq_of_mem_replicate hmem) (by simp)

/-- The handler of fonts is tidy on every path. -/
theorem fontRequestHandler_tidy (r : Request) (localUri : Bytes) :
    (fontRequestHandler r localUri).Tidy := by
  intro s
  cases hget : isGet r with
  | false =>
      rw [fontRequestHandler, hget]
      exact tidy_pure _ s
  | true => exact .inr ⟨_, 2, fontRequestHandler_run hget localUri s⟩

/-! ### What is sent -/

/-- What is met by a request that comes to nothing with the database. -/
def meetsNothing : Meets :=
  ⟨.null, none, [], some [], none, ascii "now", ascii "close"⟩

/-- What a `GET` has to meet so that its handler misuses no string: a permalink a query string and
rounds that do not fail, a stored phrase a query string and, if that is valid, a row. -/
def Careful (r : Request) (m : Meets) : RequestHandler → Prop
  | .permalink => r.queryString ≠ none ∧ ¬ InsertFails m.attempts
  | .getbyid => ∃ text, r.queryString = some text ∧
      ((bfromcstr text).length ≤ 255 ∧ (∀ c ∈ bfromcstr text, isxdigit c = true) →
        ∃ value rows, m.rows = some (value :: rows))
  | _ => True

/-- A `GET` for a phrase leaves a text. -/
def Abandons (r : Request) (m : Meets) (x : RequestHandler) : Prop :=
  x = .gen ∧ isGet r = true ∧ ∃ out, m.generation = .abandoned out

/-- Which calls of handlers are tidy. -/
theorem callHandler_tidy_iff (b : Build) (r : Request) (uri : Bytes) (m : Meets)
    (x : RequestHandler) :
    (∀ fuel, (callHandler b fuel r uri m x).Tidy) ↔
      (isGet r = false ∨ Careful r m x) ∧ ¬ Abandons r m x := by
  have hother : ∀ {y : RequestHandler}, y ≠ .gen → ¬ Abandons r m y := fun hy h => hy h.1
  cases x with
  | frontpage | exit | css | js | acmeChallenge =>
      exact iff_of_true (fun fuel => tidy_pure _) ⟨.inr trivial, hother (by decide)⟩
  | font =>
      exact iff_of_true (fun fuel => fontRequestHandler_tidy r uri)
        ⟨.inr trivial, hother (by decide)⟩
  | gen =>
      have hiff : (∀ fuel, (callHandler b fuel r uri m .gen).Tidy) ↔
          (genRequestHandler r m.generation m.rnd).Tidy :=
        ⟨fun h => (tidy_bind_pure_iff _).mp (h 0), fun h fuel => (tidy_bind_pure_iff _).mpr h⟩
      rw [hiff, genRequestHandler_tidy_iff]
      cases hget : isGet r with
      | false => simp [Abandons, hget]
      | true => simp [Abandons, Careful, hget]
  | permalink =>
      have hiff : (∀ fuel, (callHandler b fuel r uri m .permalink).Tidy) ↔
          (permalinkRequestHandler b r m.attempts).Tidy :=
        ⟨fun h => (tidy_bind_pure_iff _).mp (h 0), fun h fuel => (tidy_bind_pure_iff _).mpr h⟩
      rw [hiff, permalinkRequestHandler_tidy_iff, and_iff_left (hother (by decide)), Careful]
  | getbyid =>
      have hiff : (∀ fuel, (callHandler b fuel r uri m .getbyid).Tidy) ↔
          ∀ fuel, (getbyidRequestHandler fuel r m.rows).Tidy :=
        forall_congr' fun fuel => tidy_bind_pure_iff _
      rw [hiff, getbyidRequestHandler_tidy_iff, and_iff_left (hother (by decide)), Careful]

/-- Only a handler that is not careful misuses a string. -/
theorem not_careful_of_misuse {b : Build} {fuel : ℕ} {r : Request} {uri : Bytes} {m : Meets}
    {x : RequestHandler} {s : Store Bytes} {mis : Misuse}
    (h : (callHandler b fuel r uri m x).run s = .misuse mis) :
    isGet r = true ∧ ¬ Careful r m x := by
  by_contra hnot
  have hcareful : isGet r = false ∨ Careful r m x := by
    by_contra hc
    rw [not_or, Bool.not_eq_false] at hc
    exact hnot hc
  by_cases habandons : Abandons r m x
  · obtain ⟨rfl, hget, out, hout⟩ := habandons
    have hrun := (genRequestHandler_run hget m.generation m.rnd s).2.1 out hout
    rw [callHandler, run_bind_done hrun] at h
    cases h
  · exact not_tidy_of_misuse h ((callHandler_tidy_iff b r uri m x).mpr ⟨hcareful, habandons⟩ fuel)

/-- **A handler that comes to its end** was careful, and has destroyed its strings unless it has
abandoned a text. -/
theorem callHandler_done {b : Build} {fuel : ℕ} {r : Request} {uri : Bytes} {m : Meets}
    {x : RequestHandler} {s s' : Store Bytes} {a : Answer}
    (h : (callHandler b fuel r uri m x).run s = .done a s') :
    (isGet r = false ∨ Careful r m x) ∧
      (¬ Abandons r m x → ∃ k, s' = s ++ List.replicate k none) := by
  have hcareful : isGet r = false ∨ Careful r m x := by
    by_contra hc
    rw [not_or, Bool.not_eq_false] at hc
    obtain ⟨hget, hnot⟩ := hc
    cases x with
    | permalink =>
        obtain ⟨response, hrun, -⟩ := run_bind_pure_eq_done_iff.mp h
        obtain ⟨hnull, hquery⟩ := permalinkRequestHandler_run b hget m.attempts s
        cases htext : r.queryString with
        | none => exact absurd ((hnull htext).symm.trans hrun) (by simp)
        | some text =>
            have hfails : InsertFails m.attempts := by
              by_contra hno
              exact hnot ⟨by simp [htext], hno⟩
            have hmisuse := (hquery text htext).2.1 ((rolledId_error_iff _).mpr hfails)
            exact absurd (hmisuse.symm.trans hrun) (by simp)
    | getbyid =>
        obtain ⟨response, hrun, -⟩ := run_bind_pure_eq_done_iff.mp h
        obtain ⟨hnull, hquery⟩ := getbyidRequestHandler_run hget fuel m.rows s
        cases htext : r.queryString with
        | none => exact absurd ((hnull htext).symm.trans hrun) (by simp)
        | some text =>
            obtain ⟨hrunning, -, hmisuse, -⟩ := hquery text htext
            have hrows : ((bfromcstr text).length ≤ 255 ∧
                ∀ c ∈ bfromcstr text, isxdigit c = true) ∧ (m.rows = none ∨ m.rows = some []) := by
              by_contra hno
              refine hnot ⟨text, htext, fun hvalid => ?_⟩
              rcases hm : m.rows with _ | _ | ⟨value, rows⟩
              · exact absurd ⟨hvalid, .inl hm⟩ hno
              · exact absurd ⟨hvalid, .inr hm⟩ hno
              · exact ⟨value, rows, rfl⟩
            cases hv : validate fuel (bfromcstr text) with
            | none => exact absurd ((hrunning hv).symm.trans hrun) (by simp)
            | some answer =>
                have htrue : answer = true := by
                  obtain ⟨fuel', hfuel'⟩ := (validate_eq_true_iff _).mpr hrows.1
                  exact validate_unique hv hfuel'
                subst htrue
                exact absurd ((hmisuse hv hrows.2).symm.trans hrun) (by simp)
    | _ => exact hnot trivial
  refine ⟨hcareful, fun habandons => ?_⟩
  rcases (callHandler_tidy_iff b r uri m x).mpr ⟨hcareful, habandons⟩ fuel s with
    hrun | ⟨_, k, hrun⟩
  · exact absurd (h.symm.trans hrun) (by simp)
  · exact ⟨k, (Outcome.done.inj (h.symm.trans hrun)).2⟩

end Yogigen
