import Yogigen.Pages

/-!
# From a Request to its Handler

What `civetweb.c` does with the URI of a request before one of the handlers of
`yogiserver.c` is called: the query string is cut off, the path is decoded, double dots and
double separators are removed, and the handler is looked up, first by the whole path, then
by a directory that the path is in, then by a pattern. The tables of handlers are treated
for any type of handlers; only the registrations at the end are those of this server.

Only relative URIs are modelled; for an absolute URI of the server the path after its host
is treated in the same way.

## Main results

* `removeDoubleDots_clean`: what is left of a path, and which paths are left alone.
* `getRequestHandler_eq_some_iff`: the three passes of the lookup, for tables in which no
  URI is in the directory of another one.
* `getRequestHandler_iff`: which handler a path is given to.
-/

open Printf

namespace Yogigen

/-! ### Request URIs -/

/-- The characters that `get_uri_type` lets pass. -/
def isUriChar (c : UInt8) : Bool :=
  decide (33 ≤ c ∧ c ≤ 126 ∧ c ∉ ([34, 60, 62, 92, 94, 96, 123, 124, 125] : Bytes))

/-- `get_uri_type` takes the URI for a relative one. -/
def isRelativeUri (uri : Bytes) : Bool :=
  uri.all isUriChar && uri.headD 0 == 47

/-- The path of a request, which ends at the first `?`. -/
def requestPath (requestUri : Bytes) : Bytes :=
  requestUri.takeWhile (· ≠ 63)

/-- The query string of a request, if there is one. -/
def requestQuery (requestUri : Bytes) : Option Bytes :=
  if 63 ∈ requestUri then some (queryString requestUri) else none

/-- `mg_url_decode` for a path, which is not form data and has room. -/
def urlDecodePath : Bytes → Bytes
  | [] => []
  | 37 :: a :: b :: src =>
      if isxdigit a && isxdigit b then
        (hextoi (tolower a) <<< 4 ||| hextoi (tolower b)) :: urlDecodePath src
      else 37 :: urlDecodePath (a :: b :: src)
  | c :: src => c :: urlDecodePath src

/-! ### Double dots and double separators -/

/-- A slash or a backslash. -/
def isSeparator (c : UInt8) : Bool :=
  c == 47 || c == 92

/-- The first loop of `remove_double_dots_and_double_slashes`. -/
def skipDots : Bytes → Bytes
  | [] => []
  | c :: s => if c = 46 ∧ s.headD 0 = 46 then skipDots s else c :: s

/-- The second loop of `remove_double_dots_and_double_slashes`; the flag is set while its
inner loop runs, which is after every separator. -/
def copyPath : Bool → Bytes → Bytes
  | _, [] => []
  | true, 46 :: 46 :: s => copyPath true s
  | true, c :: s => if isSeparator c then copyPath true s else c :: copyPath false s
  | false, c :: s => c :: copyPath (isSeparator c) s

/-- `remove_double_dots_and_double_slashes`. -/
def removeDoubleDots (s : Bytes) : Bytes :=
  copyPath false (skipDots s)

/-- The path starts with a separator and a second one, or double dots, after it. -/
def doubled : Bytes → Bool
  | c :: d :: s => isSeparator c && (isSeparator d || (d == 46 && s.headD 0 == 46))
  | _ => false

/-- No double dots are at the start or after a separator, and no separator after another. -/
def CleanPath (s : Bytes) : Prop :=
  ¬ [46, 46] <+: s ∧ ∀ t ∈ s.tails, doubled t = false

instance (s : Bytes) : Decidable (CleanPath s) :=
  inferInstanceAs (Decidable (_ ∧ ∀ t ∈ s.tails, _))

/-- No doubled separator at the first byte or behind it. -/
theorem doubled_tails_cons_iff {c : UInt8} {s : Bytes} :
    (∀ t ∈ (c :: s).tails, doubled t = false) ↔
      doubled (c :: s) = false ∧ ∀ t ∈ s.tails, doubled t = false := by
  rw [List.tails_cons, List.forall_mem_cons]

/-- Nothing is doubled after a byte that is no separator. -/
theorem doubled_of_not_separator {c : UInt8} (h : isSeparator c = false) (s : Bytes) :
    doubled (c :: s) = false := by
  cases s with
  | nil => rfl
  | cons d s => rw [doubled, h, Bool.false_and]

/-- All separators are alike. -/
theorem doubled_separator {c : UInt8} (h : isSeparator c = true) (s : Bytes) :
    doubled (c :: s) = doubled (47 :: s) := by
  cases s with
  | nil => rfl
  | cons d s => rw [doubled, doubled, h]; rfl

/-- The copy begins with the same byte. -/
theorem headD_copyPath_false (s : Bytes) : (copyPath false s).headD 0 = s.headD 0 := by
  cases s with
  | nil => simp [copyPath]
  | cons c s => rw [copyPath, List.headD_cons, List.headD_cons]

/-- **What the loop leaves** has nothing doubled in it, nor after a separator if the loop
started behind one. -/
theorem copyPath_clean (skip : Bool) (s : Bytes) :
    (∀ t ∈ (copyPath skip s).tails, doubled t = false) ∧
      (skip = true → doubled (47 :: copyPath skip s) = false) := by
  fun_induction copyPath skip s with
  | case1 skip => exact ⟨by simp [doubled], fun _ => rfl⟩
  | case2 s ih => exact ih
  | case3 c s hdots hc ih => exact ih
  | case4 c s hdots hc ih =>
      rw [Bool.not_eq_true] at hc
      refine ⟨doubled_tails_cons_iff.mpr ⟨doubled_of_not_separator hc _, ih.1⟩, fun _ => ?_⟩
      rw [doubled, hc, headD_copyPath_false, Bool.false_or, Bool.and_eq_false_iff]
      refine .inr ?_
      by_contra hne
      rw [Bool.not_eq_false, Bool.and_eq_true, beq_iff_eq, beq_iff_eq] at hne
      obtain ⟨rfl, hhead⟩ := hne
      cases s with
      | nil => cases hhead
      | cons d s => exact hdots s rfl (congrArg (· :: s) hhead)
  | case5 c s ih =>
      refine ⟨doubled_tails_cons_iff.mpr ⟨?_, ih.1⟩, fun h => by cases h⟩
      cases hc : isSeparator c with
      | false => exact doubled_of_not_separator hc _
      | true =>
          rw [doubled_separator hc]
          rw [hc] at ih
          exact ih.2 rfl

/-- **What the loop leaves alone.** -/
theorem copyPath_eq_self (skip : Bool) {s : Bytes} (h : ∀ t ∈ s.tails, doubled t = false)
    (hskip : skip = true → doubled (47 :: s) = false) : copyPath skip s = s := by
  fun_induction copyPath skip s with
  | case1 skip => rfl
  | case2 s ih => cases hskip rfl
  | case3 c s hdots hc ih =>
      have hd := hskip rfl
      rw [doubled, hc, Bool.true_or] at hd
      cases hd
  | case4 c s hdots hc ih =>
      rw [ih (doubled_tails_cons_iff.mp h).2 fun hf => by cases hf]
  | case5 c s ih =>
      obtain ⟨hd, hrest⟩ := doubled_tails_cons_iff.mp h
      rw [ih hrest fun hc => by rwa [doubled_separator hc] at hd]

/-- What is skipped are dots, and only where two stand together. -/
theorem skipDots_cases (s : Bytes) :
    ¬ [46, 46] <+: skipDots s ∧ (¬ [46, 46] <+: s → skipDots s = s) := by
  fun_induction skipDots s with
  | case1 => exact ⟨by simp, fun _ => rfl⟩
  | case2 c s hc ih =>
      refine ⟨ih.1, fun hdots => absurd ?_ hdots⟩
      cases s with
      | nil => cases hc.2
      | cons d s =>
          obtain ⟨rfl, hd⟩ := hc
          obtain rfl : d = 46 := hd
          exact List.prefix_append [46, 46] s
  | case3 c s hc =>
      refine ⟨?_, fun _ => rfl⟩
      rintro ⟨t, ht⟩
      obtain ⟨rfl, rfl⟩ := List.cons.inj ht
      exact hc ⟨rfl, rfl⟩

/-- A part of a path is at its start or behind a separator. -/
theorem splitOnP_cases {p : UInt8 → Bool} (s : Bytes) :
    ∃ q qs, s.splitOnP p = q :: qs ∧ q <+: s ∧
      ∀ part ∈ qs, ∃ c t, p c = true ∧ c :: t <:+ s ∧ part <+: t := by
  induction s with
  | nil => exact ⟨[], [], rfl, List.prefix_rfl, by simp⟩
  | cons c s ih =>
      obtain ⟨q, qs, hsplit, hq, hqs⟩ := ih
      have hlater : ∀ part ∈ qs, ∃ d t, p d = true ∧ d :: t <:+ c :: s ∧ part <+: t := by
        intro part hpart
        obtain ⟨d, t, hd, hsuffix, hprefix⟩ := hqs part hpart
        exact ⟨d, t, hd, hsuffix.trans (List.suffix_cons c s), hprefix⟩
      by_cases hc : p c = true
      · refine ⟨[], q :: qs, ?_, List.nil_prefix, List.forall_mem_cons.mpr ⟨?_, hlater⟩⟩
        · rw [List.splitOnP_cons_eq_if_modifyHead, if_pos hc, hsplit]
        · exact ⟨c, s, hc, List.suffix_rfl, hq⟩
      · refine ⟨c :: q, qs, ?_, List.cons_prefix_cons.mpr ⟨rfl, hq⟩, hlater⟩
        rw [List.splitOnP_cons_eq_if_modifyHead, if_neg hc, hsplit, List.modifyHead_cons]

/-- No part of a clean path starts with double dots. -/
theorem CleanPath.part {s : Bytes} (h : CleanPath s) {part : Bytes}
    (hpart : part ∈ s.splitOnP isSeparator) : ¬ [46, 46] <+: part := by
  obtain ⟨q, qs, hsplit, hq, hqs⟩ := splitOnP_cases (p := isSeparator) s
  intro hdots
  rw [hsplit, List.mem_cons] at hpart
  rcases hpart with rfl | hpart
  · exact h.1 (hdots.trans hq)
  · obtain ⟨c, t, hc, hsuffix, hprefix⟩ := hqs part hpart
    obtain ⟨u, rfl⟩ := hdots.trans hprefix
    have hd := h.2 _ ((List.mem_tails _ _).mpr hsuffix)
    rw [doubled_separator hc] at hd
    cases hd

/-- The result is clean. -/
theorem clean_removeDoubleDots (s : Bytes) : CleanPath (removeDoubleDots s) := by
  have hstart := (skipDots_cases s).1
  refine ⟨fun hdots => hstart ?_, (copyPath_clean false (skipDots s)).1⟩
  rw [removeDoubleDots] at hdots
  cases hs : skipDots s with
  | nil => simp [hs, copyPath] at hdots
  | cons c u =>
      rw [hs, copyPath, List.cons_prefix_cons] at hdots
      obtain ⟨rfl, v, hv⟩ := hdots
      have hhead := headD_copyPath_false u
      have hsep : isSeparator 46 = false := rfl
      rw [hsep] at hv
      rw [← hv] at hhead
      cases u with
      | nil => cases hhead
      | cons d u =>
          obtain rfl : 46 = d := hhead
          exact List.prefix_append [46, 46] u

/-- A clean path stays as it is. -/
theorem removeDoubleDots_eq_self {s : Bytes} (h : CleanPath s) : removeDoubleDots s = s := by
  rw [removeDoubleDots, (skipDots_cases s).2 h.1, copyPath_eq_self false h.2 fun hf => by cases hf]

/-- **What is left of a path.** The result is clean, so no part of it starts with double dots
and names a directory above, and exactly the clean paths are left alone. -/
theorem removeDoubleDots_clean (s : Bytes) :
    CleanPath (removeDoubleDots s) ∧ (removeDoubleDots s = s ↔ CleanPath s) ∧
      ∀ part ∈ (removeDoubleDots s).splitOnP isSeparator, ¬ [46, 46] <+: part :=
  ⟨clean_removeDoubleDots s,
    ⟨fun heq => heq ▸ clean_removeDoubleDots s, removeDoubleDots_eq_self⟩,
    fun _ => (clean_removeDoubleDots s).part⟩

/-! ### Patterns -/

/-- One more byte was matched. -/
def matched (res : ℤ) : ℤ :=
  if res = -1 then -1 else res + 1

/-- The loop of `match_prefix` behind a `*`, which tries ever shorter texts. -/
def matchLengths (f : Bytes → ℤ) (str : Bytes) : ℕ → ℤ
  | 0 => f str
  | len + 1 =>
      let res := f (str.drop (len + 1))
      if res = -1 then matchLengths f str len else res + ((len + 1 : ℕ) : ℤ)

/-- `match_prefix` for a pattern without alternatives. -/
def matchFrom : Bytes → Bytes → ℤ
  | [], _ => 0
  | 63 :: pattern, _ :: str => matched (matchFrom pattern str)
  | 36 :: _, str => if str = [] then 0 else -1
  | 42 :: 42 :: pattern, str =>
      if pattern = [] then (str.length : ℤ)
      else matchLengths (matchFrom pattern) str str.length
  | 42 :: pattern, str =>
      let len := (str.takeWhile (· ≠ 47)).length
      if pattern = [] then (len : ℤ) else matchLengths (matchFrom pattern) str len
  | c :: pattern, str =>
      if tolower c = tolower (str.headD 0) then matched (matchFrom pattern str.tail) else -1

/-- The alternatives of a pattern, one after the other. -/
def matchAlternatives : List Bytes → Bytes → ℤ
  | [], _ => -1
  | [pattern], str => matchFrom pattern str
  | pattern :: patterns, str =>
      let res := matchFrom pattern str
      if 0 < res then res else matchAlternatives patterns str

/-- `match_prefix`. -/
def matchPrefix (pattern str : Bytes) : ℤ :=
  matchAlternatives (pattern.splitOnP (· == 124)) str

/-! ### Tables of handlers -/

/-- `struct mg_handler_info`. -/
structure HandlerInfo (H : Type) where
  uri : Bytes
  handler : H
  deriving DecidableEq

section

variable {H : Type}

/-- `mg_set_request_handler`: the handler of the URI is replaced, or added at the end. -/
def mgSetRequestHandler : List (HandlerInfo H) → Bytes → H → List (HandlerInfo H)
  | [], uri, handler => [⟨uri, handler⟩]
  | info :: handlers, uri, handler =>
      if info.uri = uri then ⟨uri, handler⟩ :: handlers
      else info :: mgSetRequestHandler handlers uri handler

/-- The first two passes of `get_request_handler`: the path itself, or a directory of it. -/
def namedHandler (handlers : List (HandlerInfo H)) (uri : Bytes) : Option (HandlerInfo H) :=
  (handlers.find? fun info => decide (info.uri = uri)).or
    (handlers.find? fun info =>
      decide (info.uri.length < uri.length ∧ uri[info.uri.length]? = some 47 ∧
        uri.take info.uri.length = info.uri))

/-- The last pass: a pattern. -/
def patternHandler (handlers : List (HandlerInfo H)) (uri : Bytes) : Option (HandlerInfo H) :=
  handlers.find? fun info => decide (0 < matchPrefix info.uri uri)

/-- `get_request_handler`. -/
def getRequestHandler (handlers : List (HandlerInfo H)) (uri : Bytes) : Option H :=
  ((namedHandler handlers uri).or (patternHandler handlers uri)).map HandlerInfo.handler

/-- A path is the URI or in its directory. -/
def Under (u uri : Bytes) : Prop :=
  u ++ [47] <+: uri ++ [47]

instance (u uri : Bytes) : Decidable (Under u uri) :=
  inferInstanceAs (Decidable (_ <+: _))

/-- A path is under a URI when it is the same, or goes on with a slash. -/
theorem under_iff (u uri : Bytes) :
    Under u uri ↔ u = uri ∨
      (u.length < uri.length ∧ uri[u.length]? = some 47 ∧ uri.take u.length = u) := by
  constructor
  · rintro ⟨t, ht⟩
    rw [List.append_assoc, List.singleton_append] at ht
    rcases List.append_eq_append_iff.mp ht with ⟨v, hv, hrest⟩ | ⟨v, rfl, hrest⟩
    · cases v with
      | nil => exact .inl (by rw [hv, List.append_nil])
      | cons c v =>
          obtain ⟨rfl, -⟩ := List.cons.inj hrest
          refine .inr ?_
          rw [hv]
          simp
    · cases v with
      | nil => exact .inl (List.append_nil _)
      | cons c v => simp at hrest
  · rintro (rfl | ⟨hlen, hsep, htake⟩)
    · exact List.prefix_rfl
    · refine List.prefix_append_of_prefix ?_
      have hget : uri[u.length] = 47 :=
        Option.some.inj ((List.getElem?_eq_getElem hlen).symm.trans hsep)
      have hsucc := List.take_succ_eq_append_getElem hlen
      rw [htake, hget] at hsucc
      exact hsucc ▸ List.take_prefix _ _

/-- No URI of the table is in the directory of another one. -/
def Separated (handlers : List (HandlerInfo H)) : Prop :=
  ∀ info ∈ handlers, ∀ info' ∈ handlers, Under info.uri info'.uri → info = info'

/-- A path is under one URI of a separated table at most. -/
theorem Separated.unique {handlers : List (HandlerInfo H)} (h : Separated handlers)
    {info info' : HandlerInfo H} (hinfo : info ∈ handlers) (hinfo' : info' ∈ handlers)
    {uri : Bytes} (hu : Under info.uri uri) (hu' : Under info'.uri uri) : info = info' := by
  rcases List.prefix_or_prefix_of_prefix hu hu' with hpre | hpre
  · exact h info hinfo info' hinfo' hpre
  · exact (h info' hinfo' info hinfo hpre).symm

/-- The first two passes find what the path is under. -/
theorem namedHandler_cases (handlers : List (HandlerInfo H)) (uri : Bytes) :
    (∃ info ∈ handlers, namedHandler handlers uri = some info ∧ Under info.uri uri) ∨
      (namedHandler handlers uri = none ∧ ∀ info ∈ handlers, ¬ Under info.uri uri) := by
  cases hnamed : namedHandler handlers uri with
  | some info =>
      rw [namedHandler, Option.or_eq_some_iff] at hnamed
      rcases hnamed with hfind | ⟨-, hfind⟩
      · have hu := List.find?_some hfind
        exact .inl ⟨info, List.mem_of_find?_eq_some hfind, rfl,
          (under_iff _ _).mpr (.inl (of_decide_eq_true hu))⟩
      · have hu := List.find?_some hfind
        exact .inl ⟨info, List.mem_of_find?_eq_some hfind, rfl,
          (under_iff _ _).mpr (.inr (of_decide_eq_true hu))⟩
  | none =>
      rw [namedHandler, Option.or_eq_none_iff] at hnamed
      refine .inr ⟨rfl, fun info hinfo hu => ?_⟩
      rcases (under_iff _ _).mp hu with heq | hin
      · exact List.find?_eq_none.mp hnamed.1 info hinfo (decide_eq_true heq)
      · exact List.find?_eq_none.mp hnamed.2 info hinfo (decide_eq_true hin)

/-- **The lookup**, in a separated table: the handler that the path is under, and if there is
none, the first one with a pattern that matches. -/
theorem getRequestHandler_eq_some_iff {handlers : List (HandlerInfo H)} (h : Separated handlers)
    (uri : Bytes) (handler : H) :
    getRequestHandler handlers uri = some handler ↔
      (∃ info ∈ handlers, Under info.uri uri ∧ info.handler = handler) ∨
        ((∀ info ∈ handlers, ¬ Under info.uri uri) ∧
          ∃ info, patternHandler handlers uri = some info ∧ info.handler = handler) := by
  rw [getRequestHandler, Option.map_eq_some_iff]
  rcases namedHandler_cases handlers uri with ⟨info, hinfo, hnamed, hu⟩ | ⟨hnamed, hnone⟩
  · rw [hnamed, Option.some_or]
    constructor
    · rintro ⟨info', heq, rfl⟩
      obtain rfl := Option.some.inj heq
      exact .inl ⟨info, hinfo, hu, rfl⟩
    · rintro (⟨info', hinfo', hu', rfl⟩ | ⟨hnone, -⟩)
      · exact ⟨info, rfl, by rw [h.unique hinfo hinfo' hu hu']⟩
      · exact absurd hu (hnone info hinfo)
  · rw [hnamed, Option.none_or]
    constructor
    · exact fun hpattern => .inr ⟨hnone, hpattern⟩
    · rintro (⟨info, hinfo, hu, -⟩ | ⟨-, hpattern⟩)
      · exact absurd hu (hnone info hinfo)
      · exact hpattern

end

/-! ### The handlers of the server -/

/-- The request handlers of `yogiserver.c`. -/
inductive RequestHandler
  | frontpage
  | gen
  | permalink
  | getbyid
  | exit
  | css
  | font
  | js
  | acmeChallenge
  deriving DecidableEq

/-- What `YogiServer_init` registers, in this order. -/
def registrations (b : Build) : List (Bytes × RequestHandler) :=
  [(ascii "/", .frontpage), (ascii "/gen", .gen), (ascii "/permalink", .permalink),
    (ascii "/getbyid", .getbyid)] ++
  ((if b.heroku then [] else [(ascii "/exit", .exit)]) ++
  ([(ascii "/css/style.css", .css), (ascii "/fonts", .font), (ascii "/js", .js)] ++
  if b.heroku then [(ascii "/.well-known/acme-challenge", .acmeChallenge)] else []))

/-- The table of the server. -/
def requestHandlers (b : Build) : List (HandlerInfo RequestHandler) :=
  (registrations b).foldl (fun handlers r => mgSetRequestHandler handlers r.1 r.2) []

/-- The URIs are different, so each registration adds a handler. -/
theorem requestHandlers_eq (b : Build) :
    requestHandlers b = (registrations b).map fun r => ⟨r.1, r.2⟩ := by
  obtain ⟨heroku, ssl⟩ := b
  cases heroku with
  | false => rfl
  | true => rfl

/-- No registered URI is under another one. -/
theorem separated_requestHandlers (b : Build) : Separated (requestHandlers b) := by
  rw [requestHandlers_eq]
  obtain ⟨heroku, ssl⟩ := b
  revert heroku ssl
  simp only [Separated]
  decide +kernel

/-- Every path starts with the pattern of the front page, which is the first of the table. -/
theorem patternHandler_requestHandlers (b : Build) (t : Bytes) :
    patternHandler (requestHandlers b) (47 :: t) = some ⟨ascii "/", .frontpage⟩ := by
  have hmatch : matchPrefix (ascii "/") (47 :: t) = 1 := rfl
  rw [requestHandlers_eq, patternHandler, registrations, List.cons_append, List.map_cons,
    List.find?_cons_of_pos]
  rw [hmatch]
  rfl

/-- Which handler a path that begins with a slash is given to. -/
theorem getRequestHandler_iff (b : Build) {uri : Bytes} (h : [47] <+: uri) (x : RequestHandler) :
    getRequestHandler (requestHandlers b) uri = some x ↔
      (∃ u, (u, x) ∈ registrations b ∧ Under u uri) ∨
        (x = .frontpage ∧ ∀ r ∈ registrations b, ¬ Under r.1 uri) := by
  obtain ⟨t, rfl⟩ := h
  have hmem : (∃ info ∈ requestHandlers b, Under info.uri ([47] ++ t) ∧ info.handler = x) ↔
      ∃ u, (u, x) ∈ registrations b ∧ Under u ([47] ++ t) := by
    rw [requestHandlers_eq]
    constructor
    · rintro ⟨info, hinfo, hu, rfl⟩
      obtain ⟨r, hr, rfl⟩ := List.mem_map.mp hinfo
      exact ⟨r.1, hr, hu⟩
    · rintro ⟨u, hr, hu⟩
      exact ⟨_, List.mem_map_of_mem hr, hu, rfl⟩
  have hnone : (∀ info ∈ requestHandlers b, ¬ Under info.uri ([47] ++ t)) ↔
      ∀ r ∈ registrations b, ¬ Under r.1 ([47] ++ t) := by
    rw [requestHandlers_eq, List.forall_mem_map]
  have hpattern : (∃ info, patternHandler (requestHandlers b) ([47] ++ t) = some info ∧
      info.handler = x) ↔ x = .frontpage := by
    rw [List.singleton_append, patternHandler_requestHandlers]
    constructor
    · rintro ⟨info, heq, rfl⟩
      rw [← Option.some.inj heq]
    · rintro rfl
      exact ⟨_, rfl, rfl⟩
  rw [getRequestHandler_eq_some_iff (separated_requestHandlers b), hmem, hnone, hpattern, and_comm]

/-- The path that the handlers are looked up by: decoded, up to a NUL that decoding may have
made, and cleaned. -/
def localUri (requestUri : Bytes) : Bytes :=
  removeDoubleDots (cstr (urlDecodePath (requestPath requestUri)))

/-- The path of a relative URI starts with a slash. -/
theorem slash_prefix_localUri {requestUri : Bytes} (h : isRelativeUri requestUri = true) :
    [47] <+: localUri requestUri := by
  rw [isRelativeUri, Bool.and_eq_true, beq_iff_eq] at h
  cases requestUri with
  | nil => exact absurd h.2 (by decide)
  | cons c t =>
      obtain rfl : c = 47 := h.2
      have hpath : requestPath (47 :: t) = 47 :: requestPath t :=
        List.takeWhile_cons_of_pos rfl
      have hdecode : ∀ s, urlDecodePath (47 :: s) = 47 :: urlDecodePath s := by
        intro s
        rw [urlDecodePath]
        simp
      have hcstr : ∀ s, cstr (47 :: s) = 47 :: cstr s := fun s => List.takeWhile_cons_of_pos rfl
      rw [localUri, hpath, hdecode, hcstr, removeDoubleDots, skipDots, if_neg (by simp), copyPath]
      exact List.prefix_append [47] _

/-- **Who answers.** For every relative request URI: the handler that is called is the one
whose URI the decoded and cleaned path is or is in the directory of, and the front page when
there is none; so no request is left to the files of the document root. -/
theorem request_handler_iff (b : Build) {requestUri : Bytes}
    (h : isRelativeUri requestUri = true) (x : RequestHandler) :
    getRequestHandler (requestHandlers b) (localUri requestUri) = some x ↔
      (∃ u, (u, x) ∈ registrations b ∧ Under u (localUri requestUri)) ∨
        (x = .frontpage ∧ ∀ r ∈ registrations b, ¬ Under r.1 (localUri requestUri)) :=
  getRequestHandler_iff b (slash_prefix_localUri h) x

/-- Dots and doubled slashes on the way to a font. -/
theorem request_handler_iff_font :
    getRequestHandler (requestHandlers ⟨false, false⟩)
      (localUri (ascii "/../fonts//..%2fTFArrow-Bold.ttf?x=/gen")) = some .font := by
  have hpath : localUri (ascii "/../fonts//..%2fTFArrow-Bold.ttf?x=/gen") =
      ascii "/fonts/TFArrow-Bold.ttf" := by
    decide +kernel
  refine (request_handler_iff ⟨false, false⟩ (by decide +kernel) .font).mpr
    (.inl ⟨ascii "/fonts", by decide +kernel, ?_⟩)
  rw [hpath]
  decide +kernel

end Yogigen
