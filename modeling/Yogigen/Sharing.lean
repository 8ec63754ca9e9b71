import Yogigen.GenPage
import Yogigen.Notifier
import Yogigen.UrlDecode

/-!
# Sharing a Phrase

The way of a phrase through the site: the page of a generated phrase has it in a hidden
field, a visitor's browser sends the field to `/permalink`, the request stores it under an
id and shows a link, and whoever follows the link gets a page. Any number of requests are
on their way at a time, in the steps of `Board`, in which a text does to the table what it
says. A phrase with a single quote can say anything, so the runs are those in which every
step is `Orderly`: no text with such a phrase is executed, and commits are exclusive.

## Main results

* `Board.Stores.step`: a row that was stored stays.
* `link_sends_phrase`: a link leads to its phrase for as long as the site runs.
* `links_differ`: no two requests show the same link.
* `shared_phrase_iff`: which generated phrases are shown by the page of their link.
-/

open Printf SqlText HtmlText HtmlAttribute Transition

namespace Yogigen

/-! ### Rows stay -/

namespace Board

variable {R : Type}

/-- The requests have not begun, and their phrases are those of their query strings. -/
structure Asked (s : Board R) (query : R → Bytes) : Prop where
  stage : ∀ r, s.stage r = .rolling
  pending : s.pending = []
  owner : ∀ key, s.owner key = none
  phrase : ∀ r, s.phrase r = permalinkPhrase (query r)

/-- What is decoded is a C string. -/
theorem Asked.initial {s : Board R} {query : R → Bytes} (h : s.Asked query) : s.Initial where
  phrase r := by
    rw [h.phrase]
    exact zero_notMem_permalinkPhrase _
  stage := h.stage
  pending := h.pending
  owner := h.owner

variable [DecidableEq R]

/-- What a step leaves: the phrases, and, unless it executes a text, the table. -/
theorem next_keeps {s s' : Board R} {a : Turn R} (h : s.next a = some s') :
    s'.phrase = s.phrase ∧ ((s'.table = s.table ∧ s'.owner = s.owner) ∨
      ∃ n e, n ∈ s.pending ∧ s' = s.executed n e ∧
        ((a = .commit n ∧ n.effect s.table = some e) ∨
          (a = .execute n e ∧ readInsert n.text = none))) := by
  cases a with
  | roll r id =>
      obtain ⟨-, rfl | rfl⟩ := next_roll h
      · exact ⟨rfl, .inl ⟨rfl, rfl⟩⟩
      · exact ⟨rfl, .inl ⟨rfl, rfl⟩⟩
  | connect r =>
      obtain ⟨_, -, rfl⟩ := next_connect h
      exact ⟨rfl, .inl ⟨rfl, rfl⟩⟩
  | listen r =>
      obtain ⟨_, -, rfl⟩ := next_listen h
      exact ⟨rfl, .inl ⟨rfl, rfl⟩⟩
  | send r =>
      obtain ⟨_, -, rfl⟩ := next_send h
      exact ⟨rfl, .inl ⟨rfl, rfl⟩⟩
  | read r =>
      obtain ⟨_, _, _, -, -, rfl⟩ := next_read h
      exact ⟨rfl, .inl ⟨rfl, rfl⟩⟩
  | finish r =>
      obtain ⟨_, _, -, rfl⟩ := next_finish h
      exact ⟨rfl, .inl ⟨rfl, rfl⟩⟩
  | fail r =>
      obtain rfl := next_fail h
      exact ⟨rfl, .inl ⟨rfl, rfl⟩⟩
  | commit n =>
      obtain ⟨hn, e, he, rfl⟩ := next_commit h
      exact ⟨rfl, .inr ⟨n, e, hn, rfl, .inl ⟨rfl, he⟩⟩⟩
  | execute n e =>
      obtain ⟨hn, hnone, rfl⟩ := next_execute h
      exact ⟨rfl, .inr ⟨n, e, hn, rfl, .inr ⟨rfl, hnone⟩⟩⟩
  | abort n =>
      obtain rfl := next_abort h
      exact ⟨rfl, .inl ⟨rfl, rfl⟩⟩
  | deliver r =>
      obtain ⟨_, _, -, rfl⟩ := next_deliver h
      exact ⟨rfl, .inl ⟨rfl, rfl⟩⟩

/-- **A row that was stored stays**, in an orderly step. -/
theorem Stores.step {s s' : Board R} {a : Turn R} {r : R} {id : UInt64} (h : s.Stores r id)
    (hs : s.Sound) (hord : s.Orderly a) (hnext : s.next a = some s') : s'.Stores r id := by
  obtain ⟨hphrase, ⟨htable, howner⟩ | ⟨n, e, hn, rfl, hcases⟩⟩ := next_keeps hnext
  · rw [Stores, hphrase, htable, howner]
    exact h
  · rcases hcases with ⟨rfl, he⟩ | ⟨rfl, hnone⟩
    · obtain ⟨hfresh, hrows, -⟩ := effect_quoteless (hs.zero_notMem hn) hord.1 he
      exact (executed_stores_iff hfresh hrows r id).mpr (.inl h)
    · exact absurd hnone (hs.readInsert_ne_none hn hord)

/-- What is sound stays so, and the phrases are kept. -/
theorem Sound.run {s : Board R} (hs : s.Sound) {trace : List (Turn R × Board R)}
    (hrun : Run (Enabled next) s trace) (hord : Guarded Orderly s trace) :
    (final s trace).Sound ∧ (final s trace).phrase = s.phrase :=
  have hstep : ∀ (s₁ : Board R) (a : Turn R) (s₂ : Board R),
      (s₁.Sound ∧ s₁.phrase = s.phrase) → s₁.Orderly a → Enabled next s₁ a s₂ →
        s₂.Sound ∧ s₂.phrase = s.phrase :=
    fun _ _ _ hinv hord h => ⟨hinv.1.step hord h, (next_keeps h).1.trans hinv.2⟩
  hrun.invariant_final hstep ⟨hs, rfl⟩ hord

/-- A row that was stored is there after any run. -/
theorem Stores.run {s : Board R} {r : R} {id : UInt64} (h : s.Stores r id) (hs : s.Sound)
    {trace : List (Turn R × Board R)} (hrun : Run (Enabled next) s trace)
    (hord : Guarded Orderly s trace) : (final s trace).Stores r id :=
  have hstep : ∀ (s₁ : Board R) (a : Turn R) (s₂ : Board R),
      (s₁.Sound ∧ s₁.Stores r id) → s₁.Orderly a → Enabled next s₁ a s₂ →
        s₂.Sound ∧ s₂.Stores r id :=
    fun _ _ _ hinv hord h => ⟨hinv.1.step hord h, hinv.2.step hinv.1 hord h⟩
  (hrun.invariant_final hstep ⟨hs, h⟩ hord).2

/-- **A link that was shown keeps its row**: from the moment on at which a request has
returned its id, the table has the phrase of the request under it. -/
theorem stored_of_returned {s : Board R} {query : R → Bytes} (hs : s.Asked query)
    {trace more : List (Turn R × Board R)} (hrun : Run (Enabled next) s (trace ++ more))
    (hord : Guarded Orderly s (trace ++ more)) {r : R} {id : UInt64}
    (hret : (final s trace).stage r = .returned id) (hid : id ≠ errorId) :
    (id.toInt64, permalinkPhrase (query r)) ∈ (final s (trace ++ more)).table.rows := by
  obtain ⟨hfst, hsnd⟩ := hrun.append_inv
  obtain ⟨hord₁, hord₂⟩ := hord.append_inv
  obtain ⟨hsound, hphrase⟩ := hs.initial.sound.run hfst hord₁
  obtain ⟨-, hphrase'⟩ := hsound.run hsnd hord₂
  have hstores := (hsound.returned r id hret hid).run hsound hsnd hord₂
  rw [final_append, ← hs.phrase, ← hphrase, ← hphrase']
  exact hstores.1

end Board

/-- The page of a link whose row is in the table. -/
theorem sends_of_mem (b : Build) {g : Generated} {id : UInt64} {phrase : Bytes}
    (hmem : (id.toInt64, phrase) ∈ g.rows) (page : Bytes) :
    Sends g (queryString (permalink b id)) page ↔ page = getbyidPage [phrase] := by
  have hrows := Generated.updateReturning_of_mem hmem
  constructor
  · rintro ⟨-, key, hkey, rfl⟩
    rw [queryString_permalink, selectsKey_iff] at hkey
    rw [hkey, hrows]
  · rintro rfl
    refine ⟨validate_permalink b id, id.toInt64, ?_, by rw [hrows]⟩
    rw [queryString_permalink, selectsKey_iff]

/-- **A link leads to its phrase.** In every run of orderly steps, from the moment on at which
a request has returned an id, a page is sent for its link, and it is the page of the phrase in
the query string of the request. -/
theorem link_sends_phrase {R : Type} [DecidableEq R] {s : Board R} {query : R → Bytes}
    (hs : s.Asked query) {trace more : List (Turn R × Board R)}
    (hrun : Run (Enabled Board.next) s (trace ++ more))
    (hord : Guarded Board.Orderly s (trace ++ more)) {r : R} {id : UInt64}
    (hret : (final s trace).stage r = .returned id) (hid : id ≠ errorId) (b : Build)
    (page : Bytes) :
    Sends (final s (trace ++ more)).table (queryString (permalink b id)) page ↔
      page = getbyidPage [permalinkPhrase (query r)] :=
  sends_of_mem b (Board.stored_of_returned hs hrun hord hret hid) page

/-! ### Two requests -/

/-- The visitors of two pages send their hidden fields. -/
def visitorQuery (r : Bool) : Bytes :=
  ascii "linkfor=" ++ percentEncode (withQuotes
    (if r then ascii "You don't need joy, you are the joy." else ascii "It's rock & roll."))

/-- Their requests have not begun. -/
def visitorBoard : Board Bool where
  phrase r := withQuotes
    (if r then ascii "You don't need joy, you are the joy." else ascii "It's rock & roll.")
  stage _ := .rolling
  inFlight _ := []
  inbox _ := []
  pending := []
  table := ⟨[], List.nodup_nil⟩
  owner _ := none

/-- One request after the other. -/
def visitorTurns : List (Turn Bool) :=
  let request (r : Bool) (id : UInt64) : List (Turn Bool) :=
    [.roll r id, .connect r, .listen r, .send r, .commit ⟨r, id, visitorBoard.phrase r⟩,
      .deliver r, .read r, .finish r]
  request false 7 ++ request true 8

/-- The request is the one that the visitor has made. -/
theorem asked_visitorBoard : visitorBoard.Asked visitorQuery where
  stage _ := rfl
  pending := rfl
  owner _ := rfl
  phrase := by decide +kernel

/-- The first visitor is shown a link before the request of the second begins. -/
theorem exists_visitor_run :
    ∃ trace more, Run (Enabled Board.next) visitorBoard (trace ++ more) ∧
      Guarded Board.Orderly visitorBoard (trace ++ more) ∧
      (final visitorBoard trace).stage false = .returned 7 ∧
      (final visitorBoard (trace ++ more)).stage false = .returned 7 ∧
      (final visitorBoard (trace ++ more)).stage true = .returned 8 := by
  let run := (traceOf Board.next visitorBoard visitorTurns).getD []
  refine ⟨run.take 8, run.drop 8, ?_⟩
  rw [List.take_append_drop]
  exact ⟨run_traceOf (by decide +kernel), by decide +kernel, by decide +kernel,
    by decide +kernel, by decide +kernel⟩

/-- The link of the first visitor, while the second one is served. -/
theorem link_sends_phrase_quoted :
    ∃ s : Board Bool, Sends s.table (queryString (permalink ⟨false, false⟩ 7))
      (getbyidPage [permalinkPhrase (visitorQuery false)]) := by
  obtain ⟨trace, more, hrun, hord, hret, -⟩ := exists_visitor_run
  exact ⟨_, (link_sends_phrase asked_visitorBoard hrun hord hret (by decide)
    ⟨false, false⟩ _).mpr rfl⟩

/-- Different ids have different links. -/
theorem permalink_injective (b : Build) : Function.Injective (permalink b) := by
  intro id id' h
  have htext := congrArg queryString h
  rw [queryString_permalink, queryString_permalink] at htext
  have hkey := bitStringBigint_hexText id
  rw [htext, bitStringBigint_hexText] at hkey
  exact toInt64_injective (Option.some.inj hkey).symm

/-- **Links differ.** In every run of orderly steps, two requests that have returned ids show
different links. -/
theorem links_differ {R : Type} [DecidableEq R] {s : Board R} {query : R → Bytes}
    (hs : s.Asked query) {trace : List (Turn R × Board R)}
    (hrun : Run (Enabled Board.next) s trace) (hord : Guarded Board.Orderly s trace)
    {r r' : R} {id id' : UInt64} (hret : (final s trace).stage r = .returned id)
    (hret' : (final s trace).stage r' = .returned id') (hid : id ≠ errorId)
    (hid' : id' ≠ errorId) (hne : r ≠ r') (b : Build) : permalink b id ≠ permalink b id' := by
  obtain ⟨hsound, -⟩ := hs.initial.sound.run hrun hord
  intro heq
  obtain rfl := permalink_injective b heq
  -- a row has one owner
  have howner := (hsound.returned r id hret hid).2
  rw [(hsound.returned r' id hret' hid').2] at howner
  exact hne (Option.some.inj howner).symm

/-- Two ids that follow each other. -/
theorem links_differ_seven : permalink ⟨false, false⟩ 7 ≠ permalink ⟨false, false⟩ 8 := by
  obtain ⟨trace, more, hrun, hord, -, hret, hret'⟩ := exists_visitor_run
  exact links_differ asked_visitorBoard hrun hord hret hret' (by decide) (by decide)
    (by decide) ⟨false, false⟩

/-! ### From the generated page to the page of the link -/

/-- The hidden value, as the browser reads it. -/
theorem linkfor_eq (rnd : Option UInt8) {phrase : Bytes} (h0 : 0 ∉ phrase) :
    linkfor rnd phrase = decode 0 (encodeLink (quoted phrase)) := by
  rw [linkfor, genPage_eq rnd h0, List.drop_left, quoted_encodeLink]

/-- The value of the link has no NUL. -/
theorem zero_notMem_linkfor (rnd : Option UInt8) {phrase : Bytes} (h0 : 0 ∉ phrase) :
    0 ∉ linkfor rnd phrase := by
  rw [linkfor_eq rnd h0]
  refine zero_notMem_decode 0 fun hmem => h0 ?_
  rw [encodeLink_eq] at hmem
  exact (List.takeWhile_prefix _).subset (mem_of_mem_replaceByte (by decide) hmem)

/-- The hidden value is not longer than the phrase with its apostrophes replaced. -/
theorem length_linkfor_le (rnd : Option UInt8) {phrase : Bytes} (h0 : 0 ∉ phrase) :
    (linkfor rnd phrase).length ≤ (withQuotes phrase).length := by
  have hsplit : quoted phrase ++ phrase.dropWhile (· ≠ 34) = phrase :=
    List.takeWhile_append_dropWhile
  calc (linkfor rnd phrase).length
      = (decode 0 (encodeLink (quoted phrase))).length := by rw [linkfor_eq rnd h0]
    _ ≤ (withQuotes (quoted phrase)).length := length_decode_le _
    _ ≤ (withQuotes (quoted phrase ++ phrase.dropWhile (· ≠ 34))).length := by
        rw [withQuotes_append, List.length_append]
        exact Nat.le_add_right ..
    _ = (withQuotes phrase).length := by rw [hsplit]

/-- The request stores what the hidden field says, in whatever way the browser encodes it. -/
theorem permalinkPhrase_of_encodes {value e : Bytes} (h : Encodes value e) (h0 : 0 ∉ value) :
    permalinkPhrase (ascii "linkfor=" ++ e) = value := by
  have hlen := length_queryDecBuffer e fun _ => 0
  have hroom := lt_queryDecMlen e.length
  have hle := h.length_le
  rw [permalinkPhrase_eq _ fun _ => 0, permalinkDecode, permalinkQuery_linkfor (h.zero_notMem h0),
    h.decodeInto (by omega), cstr_overwrite, cstr_eq_self h0]

/-- The page of one text shows another, not shorter one, only if they are the same. -/
theorem eq_of_shownAsText {r : Rules} {v w : Bytes} (h0 : 0 ∉ v) (hlen : v.length ≤ w.length)
    (h : ShownAsText r (getbyidPage [v]) w) : v = w := by
  obtain ⟨text, rest, hafter, hcontent, -⟩ := h
  rw [after_outputDiv h0] at hafter
  obtain rfl := Option.some.inj hafter
  exact ((prefix_of_content (congrArg Prod.fst hcontent)).eq_of_length_le hlen).symm

/-- The page for the link of a phrase has the hidden value on it. -/
theorem sends_linkfor_iff (b : Build) {phrase : Bytes} (h0 : 0 ∉ phrase) {rnd : Option UInt8}
    {e : Bytes} (henc : Encodes (linkfor rnd phrase) e) {R : Type} [DecidableEq R] {s : Board R}
    {query : R → Bytes} (hs : s.Asked query) {trace more : List (Turn R × Board R)}
    (hrun : Run (Enabled Board.next) s (trace ++ more))
    (hord : Guarded Board.Orderly s (trace ++ more)) {r : R}
    (hquery : query r = ascii "linkfor=" ++ e) {id : UInt64}
    (hret : (final s trace).stage r = .returned id) (hid : id ≠ errorId) (page : Bytes) :
    Sends (final s (trace ++ more)).table (queryString (permalink b id)) page ↔
      page = getbyidPage [linkfor rnd phrase] := by
  have hstored := Board.stored_of_returned hs hrun hord hret hid
  rw [hquery, permalinkPhrase_of_encodes henc (zero_notMem_linkfor rnd h0)] at hstored
  exact sends_of_mem b hstored page

/-- **What sharing a phrase shows.** In every run of calls from a loaded state and every run
of the requests in orderly steps: once the visitor of the page of a generated phrase has
been shown a link, a page is sent for it, and it shows the phrase as text, with its
apostrophes replaced, if and only if the hidden field says the phrase and nothing in it is read
as markup or a reference. -/
theorem shared_phrase_iff (rules : Rules) (b : Build) {db : Database} {y : YogiGen}
    (h : Loads db y) {calls : List (GenCall × Object)} (hcalls : Run Calls (.loaded y) calls)
    {call : GenCall} {o : Object} (hmem : (call, o) ∈ calls) {phrase : Bytes}
    (hphrase : call.phrase = some phrase) {rnd : Option UInt8} {e : Bytes}
    (henc : Encodes (linkfor rnd phrase) e) {R : Type} [DecidableEq R] {s : Board R}
    {query : R → Bytes} (hs : s.Asked query) {trace more : List (Turn R × Board R)}
    (hrun : Run (Enabled Board.next) s (trace ++ more))
    (hord : Guarded Board.Orderly s (trace ++ more)) {r : R}
    (hquery : query r = ascii "linkfor=" ++ e) {id : UInt64}
    (hret : (final s trace).stage r = .returned id) (hid : id ≠ errorId) :
    (∃ page, Sends (final s (trace ++ more)).table (queryString (permalink b id)) page) ∧
      ∀ page, Sends (final s (trace ++ more)).table (queryString (permalink b id)) page →
        (ShownAsText rules page (withQuotes phrase) ↔
          Linkable phrase ∧ Plain rules (withQuotes phrase)) := by
  have h0 := zero_notMem_phrase h hcalls hmem hphrase
  have hsends := sends_linkfor_iff b h0 henc hs hrun hord hquery hret hid
  refine ⟨⟨_, (hsends _).mpr rfl⟩, fun page hpage => ?_⟩
  obtain rfl := (hsends page).mp hpage
  rw [← linkfor_eq_iff rnd h0]
  constructor
  · intro hshown
    have heq := eq_of_shownAsText (zero_notMem_linkfor rnd h0) (length_linkfor_le rnd h0) hshown
    rw [← heq] at hshown ⊢
    exact ⟨rfl, (shownAsText_iff rules (zero_notMem_linkfor rnd h0) []).mp hshown⟩
  · rintro ⟨heq, hplain⟩
    rw [← heq] at hplain ⊢
    exact (shownAsText_iff rules (zero_notMem_linkfor rnd h0) []).mpr hplain

/-- Percent signs and digits for every byte. -/
theorem encodes_percentEncode (phrase : Bytes) : Encodes phrase (percentEncode phrase) := by
  induction phrase with
  | nil => exact .nil
  | cons c phrase ih =>
      have hlt := c.toNat_lt
      have hhi := Numeral.digitValue_digit (by omega : c.toNat / 16 < 16)
      have hlo := Numeral.digitValue_digit (by omega : c.toNat % 16 < 16)
      have hcode := Encodes.percent hhi hlo ih
      rw [Nat.div_add_mod', UInt8.ofNat_toNat] at hcode
      exact hcode

/-- A hidden field that says its phrase, with percent signs throughout. -/
theorem encodes_linkfor (rnd : Option UInt8) {phrase : Bytes} (h0 : 0 ∉ phrase)
    (h : Linkable phrase) : Encodes (linkfor rnd phrase) (percentEncode (withQuotes phrase)) := by
  rw [(linkfor_eq_iff rnd h0).mpr h]
  exact encodes_percentEncode _

/-- A generated phrase with an ampersand and an apostrophe is shared. -/
theorem shared_phrase_iff_rock :
    ∃ (s : Board Bool) (page : Bytes),
      Sends s.table (queryString (permalink ⟨false, false⟩ 7)) page ∧
      ShownAsText someRules page (withQuotes (ascii "It's rock & roll.")) := by
  obtain ⟨trace, more, hrun, hord, hret, -⟩ := exists_visitor_run
  have h0 : 0 ∉ ascii "It's rock & roll." := by decide
  have hlink : Linkable (ascii "It's rock & roll.") := by decide +kernel
  obtain ⟨⟨page, hpage⟩, hshows⟩ :=
    shared_phrase_iff someRules ⟨false, false⟩ loads_rock run_rockTrace List.mem_cons_self rfl
      (encodes_linkfor none h0 hlink) asked_visitorBoard hrun hord rfl hret (by decide)
  exact ⟨_, page, hpage, (hshows page hpage).mpr (by decide +kernel)⟩

end Yogigen
