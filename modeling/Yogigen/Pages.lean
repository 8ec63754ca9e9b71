import Yogigen.HtmlText
import Yogigen.Links
import Yogigen.Permalink

/-!
# The Page of a Stored Phrase

`getbyid_request_handler` puts the phrase it has fetched into the output div of
`getbyid.html` as it is. A phrase comes from any query string and is stored by its id, so
what a visitor sees is the phrase exactly when HTML reads it as plain text.

## Main results

* `getbyidPage_eq`: the page is the template with the phrase in its div.
* `page_shows_iff`: which stored phrases the page of their link shows.
-/

open Printf HtmlText

namespace Yogigen

/-! ### The template -/

/-- Lines of text, each with its newline. -/
def lines (ls : List String) : Bytes :=
  ls.flatMap fun line => ascii line ++ [10]

/-- `getbyid.html` up to the output div. -/
def getbyidFront : Bytes :=
  lines [
    "<!DOCTYPE html>",
    "<html lang=\"en\">",
    "  <head>",
    "    <title>YogiGen - Get By Link</title>",
    "    <meta charset=\"utf-8\">",
    "    <meta name=\"viewport\" content=\"width=device-width, initial-scale=1, " ++
      "shrink-to-width=no\"/>",
    "    <link rel=\"stylesheet\" type=\"text/css\" href=\"./css/style.css\">",
    "  </head>",
    "  <body>",
    "    <div class=\"container\">"] ++
  ascii "      "

/-- The start tag of the output div. -/
def outputDiv : Bytes :=
  ascii "<div class=\"fade-in\">"

/-- The end tag of the output div. -/
def endDiv : Bytes :=
  ascii "</div>"

/-- `getbyid.html` from the end of the output div to the text of the button. -/
def getbyidMiddle : Bytes :=
  lines [
    "",
    "    </div>",
    "    <form action=\"/gen\" method=\"GET\">",
    "      <div id=\"wrapper2\">"] ++
  ascii "        <button class=\"button-primary\" type=\"submit\">"

/-- `getbyid.html` after the text of the button. -/
def getbyidBack : Bytes :=
  lines [
    "</button>",
    "      </div>",
    "    </form>",
    "  </body>",
    "</html>"]

/-- `getbyid.html`. -/
def getbyidTemplate : Bytes :=
  getbyidFront ++ (outputDiv ++ (ascii "%s" ++ (endDiv ++ (getbyidMiddle ++
    (ascii "%s" ++ getbyidBack)))))

/-! ### The page -/

/-- What `getbyid_request_handler` sends after the header, for the rows of the `UPDATE`. -/
def getbyidPage : List Bytes → Bytes
  | [] =>
      format getbyidTemplate
        [.str (ascii "Sorry, there is nothing in the database matching this link!"),
          .str (ascii "Maybe you could try getting a new one instead?")]
  | phrase :: _ =>
      format getbyidTemplate [.str (bfromcstr phrase), .str (ascii "Get a new one")]

/-- **The page is the template with the phrase in its div.** -/
theorem getbyidPage_eq {phrase : Bytes} (h0 : 0 ∉ phrase) (rows : List Bytes) :
    getbyidPage (phrase :: rows) =
      getbyidFront ++ (outputDiv ++ (phrase ++ (endDiv ++ (getbyidMiddle ++
        (ascii "Get a new one" ++ getbyidBack))))) := by
  have hfront : 37 ∉ getbyidFront := by decide +kernel
  have hdiv : 37 ∉ outputDiv := by decide +kernel
  have hend : 37 ∉ endDiv := by decide +kernel
  have hmiddle : 37 ∉ getbyidMiddle := by decide +kernel
  have hback : 37 ∉ getbyidBack := by decide +kernel
  have hbutton : cstr (ascii "Get a new one") = ascii "Get a new one" := by decide +kernel
  rw [getbyidPage, getbyidTemplate, bfromcstr, cstr_eq_self h0, format_append hfront,
    format_append hdiv, format_str, format_append hend, format_append hmiddle, format_str,
    format_eq_self hback, cstr_eq_self h0, hbutton]

/-- The output div of the page is read as exactly the phrase, as text. -/
def ShownAsText (r : Rules) (page phrase : Bytes) : Prop :=
  ∃ text rest, after outputDiv page = some text ∧
    content r 0 text = (phrase.map .text, rest) ∧ endDiv <+: rest

/-- The text in the output div of the page of a phrase. -/
theorem after_outputDiv {phrase : Bytes} (h0 : 0 ∉ phrase) (rows : List Bytes) :
    after outputDiv (getbyidPage (phrase :: rows)) =
      some (phrase ++ (endDiv ++ (getbyidMiddle ++ (ascii "Get a new one" ++ getbyidBack)))) := by
  rw [getbyidPage_eq h0]
  exact after_append (by decide) (by decide +kernel) _

/-- **What a visitor sees.** The page of a phrase shows the phrase as text if and only if
the phrase is plain. -/
theorem shownAsText_iff (r : Rules) {phrase : Bytes} (h0 : 0 ∉ phrase) (rows : List Bytes) :
    ShownAsText r (getbyidPage (phrase :: rows)) phrase ↔ Plain r phrase := by
  constructor
  · rintro ⟨text, rest, hafter, hcontent, -⟩
    rw [after_outputDiv h0] at hafter
    obtain rfl := Option.some.inj hafter
    exact plain_of_content (congrArg Prod.fst hcontent)
  · intro h
    exact ⟨_, _, after_outputDiv h0 rows, content_of_plain h, List.prefix_append endDiv _⟩

/-! ### From the link to the page -/

/-- The page sent for a query string: it passes the validation, and the rows are those its
`UPDATE` returns. -/
def Sends (g : Generated) (query page : Bytes) : Prop :=
  (∃ fuel, validate fuel query = some true) ∧
    ∃ key, SelectsKey (updateQuery query) key ∧ page = getbyidPage (g.updateReturning key)

/-- The page sent for the link of a stored phrase is the page of that phrase. -/
theorem sends_iff (b : Build) {g g' : Generated} {stored : List (UInt64 × Bytes)}
    (h : g.insertAll stored = some g') {id : UInt64} {phrase : Bytes}
    (hmem : (id, phrase) ∈ stored) (page : Bytes) :
    Sends g' (queryString (permalink b id)) page ↔ page = getbyidPage [phrase] := by
  have hrows := Generated.updateReturning_of_mem (Generated.stored_mem h hmem)
  have hvalid := validate_permalink b id
  constructor
  · rintro ⟨-, key, hkey, rfl⟩
    rw [queryString_permalink, selectsKey_iff] at hkey
    rw [hkey, hrows]
  · rintro rfl
    refine ⟨hvalid, id.toInt64, ?_, by rw [hrows]⟩
    rw [queryString_permalink, selectsKey_iff]

/-- **Stored phrases on their pages.** For every byte string without NUL, stored under an
id by any sequence of inserts that succeeds: some query string is decoded to it, a page is
sent for its link, and every page sent for it shows exactly the phrase as text if and only
if no markup and no character reference starts in the phrase. -/
theorem page_shows_iff (r : Rules) (b : Build) {g g' : Generated}
    {stored : List (UInt64 × Bytes)} (h : g.insertAll stored = some g') {id : UInt64}
    {phrase : Bytes} (hmem : (id, phrase) ∈ stored) (h0 : 0 ∉ phrase) :
    (∃ query, permalinkPhrase query = phrase) ∧
      (∃ page, Sends g' (queryString (permalink b id)) page) ∧
      ∀ page, Sends g' (queryString (permalink b id)) page →
        (ShownAsText r page phrase ↔ Plain r phrase) := by
  refine ⟨⟨_, exists_query h0⟩, ⟨_, (sends_iff b h hmem _).mpr rfl⟩, fun page hpage => ?_⟩
  obtain rfl := (sends_iff b h hmem page).mp hpage
  exact shownAsText_iff r h0 []

/-- A few of the names HTML defines. -/
def someRules : Rules where
  names := [ascii "amp;", ascii "amp", ascii "lt;", ascii "lt", ascii "gt;", ascii "copy"]
  noMarkup := by decide +kernel

/-- A stored phrase with an ampersand, a `<` and an apostrophe that are only text. -/
theorem page_shows_iff_plain :
    ∃ (g : Generated) (page : Bytes),
      Sends g (queryString (permalink ⟨false, false⟩ 7)) page ∧
      ShownAsText someRules page (ascii "Be calm & kind < it's fine") := by
  let g₀ : Generated := ⟨[], List.nodup_nil⟩
  let phrase := ascii "Be calm & kind < it's fine"
  obtain ⟨g, hg⟩ : ∃ g, g₀.insertAll [(7, phrase)] = some g := ⟨_, rfl⟩
  obtain ⟨-, ⟨page, hpage⟩, hshows⟩ :=
    page_shows_iff someRules ⟨false, false⟩ hg (List.mem_singleton.mpr rfl)
      (by decide +kernel : 0 ∉ phrase)
  exact ⟨g, page, hpage, (hshows page hpage).mpr (by decide +kernel)⟩

/-- The query string `linkfor=%3Cb%3E` is decoded to `<b>`, which the page sent for its link
does not show. -/
theorem not_shownAsText_tag :
    permalinkPhrase (ascii "linkfor=%3Cb%3E") = ascii "<b>" ∧
      ∃ (g : Generated) (page : Bytes), (7, ascii "<b>") ∈ g.rows ∧
        Sends g (queryString (permalink ⟨false, false⟩ 7)) page ∧
        ¬ ShownAsText someRules page (ascii "<b>") := by
  let g₀ : Generated := ⟨[], List.nodup_nil⟩
  obtain ⟨g, hg⟩ : ∃ g, g₀.insertAll [(7, ascii "<b>")] = some g := ⟨_, rfl⟩
  have hmem : (7, ascii "<b>") ∈ [((7 : UInt64), ascii "<b>")] := List.mem_singleton.mpr rfl
  have hplain : ¬ Plain someRules (ascii "<b>") := by decide +kernel
  refine ⟨by decide +kernel, g, _, Generated.stored_mem hg hmem,
    (sends_iff ⟨false, false⟩ hg hmem _).mpr rfl, ?_⟩
  rwa [shownAsText_iff someRules (by decide)]

end Yogigen
