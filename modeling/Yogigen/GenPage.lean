import Yogigen.AttributeText
import Yogigen.Pages
import Yogigen.Texts

/-!
# The Page of a Generated Phrase

`gen_request_handler` shows a new phrase and puts it a second time into the hidden field
`linkfor`, from where a visitor can have it stored. Apostrophes are replaced there by a
reference to U+2019 that has no semicolon; everything else is written as it is. So the
field says what is shown only if nothing in the phrase ends the value, is read as a
reference, or continues the reference of an apostrophe.

## Main results

* `genPage_eq`: the page is the template with the button, the phrase and its encoding.
* `decode_encodeLink_iff`: which texts the encoding keeps.
* `linkfor_iff`: which phrases the hidden field says, in every run of the server.
-/

open Printf HtmlAttribute Transition

namespace Yogigen

/-! ### The template -/

/-- `gen.html` up to the text of the button. -/
def genFront : Bytes :=
  lines [
    "<!DOCTYPE html>",
    "<html lang=\"en\">",
    "  <head>",
    "    <title>YogiGen</title>",
    "    <meta charset=\"utf-8\">",
    "    <meta name=\"viewport\" content=\"width=device-width, initial-scale=1, " ++
      "shrink-to-fit=no\"/>",
    "    <link rel=\"stylesheet\" type=\"text/css\" href=\"/css/style.css\">",
    "  </head>",
    "  <body>",
    "    <form action=\"/gen\" method=\"GET\">",
    "      <div id=\"wrapper\">"] ++
  ascii "        <button class=\"button-primary\" type=\"submit\">"

/-- `gen.html` from the end of the button to the start tag of the output div. -/
def genMiddle : Bytes :=
  lines [
    "</button>",
    "      </div>",
    "    </form>",
    "    <div class=\"container\">"] ++
  ascii "      <div class=\"fade-in\" id=\"outputstr\">"

/-- `gen.html` from the end of the output div to the opening quote of the hidden value. -/
def genLink : Bytes :=
  lines [
    "</div>",
    "    </div>",
    "    <form action=\"/permalink\" method=\"GET\">"] ++
  ascii "      <input type=\"hidden\" name=\"linkfor\" value=\""

/-- `gen.html` after the hidden value and its closing quote. -/
def genBack : Bytes :=
  lines [
    "/>",
    "      <div id=\"wrapper2\">",
    "        <div class=\"fade-in\">",
    "          <button class=\"button-secondary\" type=\"submit\">Get a shareable link</button>",
    "        </div>",
    "      </div>",
    "    </form>",
    "  </body>",
    "</html>"]

/-- `gen.html` up to the hidden value. -/
def genHeadTemplate : Bytes :=
  genFront ++ (ascii "%s" ++ (genMiddle ++ (ascii "%s" ++ genLink)))

/-- `gen.html`. -/
def genTemplate : Bytes :=
  genHeadTemplate ++ (ascii "%s" ++ 34 :: genBack)

/-! ### The page -/

/-- `BTN_TXT_0` to `BTN_TXT_3`. -/
def btnTxts : List Bytes :=
  [ascii "Generate", ascii "Chakras align", ascii "Feel the wisdom",
    ascii "Enlightenment is only a click away"]

/-- `randomize_button_text_idx`, for the byte drawn; `none` is a failed draw. -/
def randomizeButtonTextIdx : Option UInt8 → UInt8
  | none => 3
  | some rnd => rnd % 3

/-- The text of the button. -/
def buttonText (rnd : Option UInt8) : Bytes :=
  btnTxts.getD (randomizeButtonTextIdx rnd).toNat []

/-- `gen_str_enc`. -/
def encodeLink (phrase : Bytes) : Bytes :=
  bfindreplace phrase (bfromcstr (ascii "'")) (bfromcstr (ascii "&#8217")) 0

/-- What `gen_request_handler` sends after the header, for the byte drawn and a phrase. -/
def genPage (rnd : Option UInt8) (phrase : Bytes) : Bytes :=
  format genTemplate [.str (buttonText rnd), .str phrase, .str (encodeLink phrase)]

/-- The part of the page before the hidden value. -/
def genHead (rnd : Option UInt8) (phrase : Bytes) : Bytes :=
  format genHeadTemplate [.str (buttonText rnd), .str phrase]

/-- The hidden value that the handler writes into the page, as it is read. -/
def linkfor (rnd : Option UInt8) (phrase : Bytes) : Bytes :=
  decode 0 (quoted ((genPage rnd phrase).drop (genHead rnd phrase).length))

/-! ### Replacing one byte -/

/-- Every occurrence of a byte replaced by a text. -/
def replaceByte (d : UInt8) (repl b : Bytes) : Bytes :=
  b.flatMap fun c => if c = d then repl else [c]

section

variable {d : UInt8} {repl : Bytes}

/-- The byte is replaced. -/
theorem replaceByte_self (b : Bytes) :
    replaceByte d repl (d :: b) = repl ++ replaceByte d repl b := by
  rw [replaceByte, List.flatMap_cons, if_pos rfl, replaceByte]

/-- Other bytes stay. -/
theorem replaceByte_of_ne {c : UInt8} (hc : c ≠ d) (b : Bytes) :
    replaceByte d repl (c :: b) = c :: replaceByte d repl b := by
  rw [replaceByte, List.flatMap_cons, if_neg hc, replaceByte, List.singleton_append]

/-- Piece by piece. -/
theorem replaceByte_append (t u : Bytes) :
    replaceByte d repl (t ++ u) = replaceByte d repl t ++ replaceByte d repl u :=
  List.flatMap_append

/-- Nothing is replaced where the byte does not occur. -/
theorem replaceByte_eq_self {b : Bytes} (h : d ∉ b) : replaceByte d repl b = b := by
  induction b with
  | nil => rfl
  | cons c b ih =>
      obtain ⟨hc, hb⟩ := not_or.mp (List.mem_cons.not.mp h)
      rw [replaceByte_of_ne fun he => hc he.symm, ih hb]

/-- What is in the result is in the text or in the replacement. -/
theorem mem_of_mem_replaceByte {c : UInt8} (hc : c ∉ repl) {b : Bytes}
    (h : c ∈ replaceByte d repl b) : c ∈ b := by
  obtain ⟨c', hc', hmem⟩ := List.mem_flatMap.mp h
  split_ifs at hmem
  · exact absurd hmem hc
  · exact List.mem_singleton.mp hmem ▸ hc'

/-- **`bfindreplace` for one byte.** -/
theorem bfindreplace_byte (b : Bytes) : bfindreplace b [d] repl 0 = replaceByte d repl b := by
  have hfrom : ∀ b, replaceFrom [d] repl 0 b = replaceByte d repl b := by
    intro b
    induction b with
    | nil => rfl
    | cons c b ih =>
        by_cases hc : c = d
        · rw [hc, replaceFrom, if_pos (by simp), List.length_singleton, ih, replaceByte_self]
        · rw [replaceFrom, if_neg (by simpa using fun he : d = c => hc he.symm), ih,
            replaceByte_of_ne hc]
  rw [bfindreplace, if_neg (by simp), Int.toNat_zero, List.take_zero, List.nil_append,
    List.drop_zero, hfrom]

end

/-- `&#8217`, without a semicolon. -/
def apostropheRef : Bytes :=
  ascii "&#8217"

/-- U+2019. -/
def rightQuote : Bytes :=
  [0xE2, 0x80, 0x99]

/-- The text with every apostrophe replaced by U+2019. -/
def withQuotes (phrase : Bytes) : Bytes :=
  replaceByte 39 rightQuote phrase

/-- The loop replaces the apostrophes. -/
theorem encodeLink_eq (phrase : Bytes) :
    encodeLink phrase = replaceByte 39 apostropheRef phrase := by
  have hfind : bfromcstr (ascii "'") = [39] := by decide +kernel
  have hrepl : bfromcstr (ascii "&#8217") = apostropheRef := by decide +kernel
  rw [encodeLink, hfind, hrepl, bfindreplace_byte]

/-- An apostrophe becomes the reference without its semicolon. -/
theorem encodeLink_apostrophe (b : Bytes) :
    encodeLink (39 :: b) = 38 :: 35 :: 56 :: 50 :: 49 :: 55 :: encodeLink b := by
  rw [encodeLink_eq, replaceByte_self, encodeLink_eq]
  rfl

/-- Other bytes stay. -/
theorem encodeLink_of_ne {c : UInt8} (hc : c ≠ 39) (b : Bytes) :
    encodeLink (c :: b) = c :: encodeLink b := by
  rw [encodeLink_eq, replaceByte_of_ne hc, encodeLink_eq]

/-- Piece by piece. -/
theorem withQuotes_append (t u : Bytes) : withQuotes (t ++ u) = withQuotes t ++ withQuotes u :=
  replaceByte_append t u

/-- Byte by byte. -/
theorem withQuotes_cons (c : UInt8) (b : Bytes) :
    withQuotes (c :: b) = withQuotes [c] ++ withQuotes b :=
  withQuotes_append [c] b

/-! ### What is misread -/

/-- A reference starts here, or an apostrophe whose reference also takes the byte after it. -/
def misread : Bytes → Bool
  | 38 :: 35 :: d :: _ => Numeral.isDecDigit d
  | 39 :: d :: _ => Numeral.isDecDigit d || d == 59
  | _ => false

/-- The text has no double quote, no `&#` with a digit after it, and no apostrophe with a
digit or a semicolon after it. -/
def Linkable (phrase : Bytes) : Prop :=
  34 ∉ phrase ∧ ∀ t ∈ phrase.tails, misread t = false

instance (phrase : Bytes) : Decidable (Linkable phrase) :=
  inferInstanceAs (Decidable (34 ∉ phrase ∧ ∀ t ∈ phrase.tails, _))

/-- The bytes a reference takes are not touched by the encoding. -/
theorem takenLength_encodeLink (b : Bytes) :
    takenLength (encodeLink b) = takenLength b ∧
      (encodeLink b).drop (takenLength b) = encodeLink (b.drop (takenLength b)) ∧
      39 ∉ b.take (takenLength b) := by
  induction b with
  | nil => exact ⟨rfl, rfl, List.not_mem_nil⟩
  | cons c b ih =>
      obtain ⟨hlen, hdrop, hfree⟩ := ih
      by_cases hc : c = 39
      · subst hc
        rw [encodeLink_apostrophe]
        exact ⟨rfl, (encodeLink_apostrophe b).symm, List.not_mem_nil⟩
      · rw [encodeLink_of_ne hc, takenLength, takenLength]
        split_ifs with hdigit hsemi
        · refine ⟨by rw [hlen], hdrop, ?_⟩
          rw [List.take_succ_cons]
          exact List.not_mem_cons_of_ne_of_not_mem (fun he => hc he.symm) hfree
        · subst hsemi
          exact ⟨rfl, rfl, by simp⟩
        · exact ⟨rfl, (encodeLink_of_ne hc b).symm, List.not_mem_nil⟩

/-- What a reference takes, and the rest, in the text that is wanted. -/
theorem withQuotes_split (b : Bytes) :
    withQuotes b = b.take (takenLength b) ++ withQuotes (b.drop (takenLength b)) := by
  obtain ⟨-, -, hfree⟩ := takenLength_encodeLink b
  calc withQuotes b
      = withQuotes (b.take (takenLength b) ++ b.drop (takenLength b)) := by
        rw [List.take_append_drop]
    _ = b.take (takenLength b) ++ withQuotes (b.drop (takenLength b)) := by
        rw [withQuotes_append, withQuotes, replaceByte_eq_self hfree]

/-- The reference of an apostrophe goes on with the digits that follow. -/
theorem decode_apostrophe (b : Bytes) :
    decode 0 (encodeLink (39 :: b)) =
      character (Numeral.readNat (56 :: 50 :: 49 :: 55 :: encodeLink b)) ++
        decode 0 (encodeLink (b.drop (takenLength b))) := by
  obtain ⟨hlen, hdrop, -⟩ := takenLength_encodeLink b
  have hfour : takenLength (56 :: 50 :: 49 :: 55 :: encodeLink b) =
      takenLength (encodeLink b) + 4 := rfl
  rw [encodeLink_apostrophe, decode_reference (by decide), hfour, hlen, ← hdrop]
  rfl

/-- An apostrophe is misread when a digit follows. -/
theorem misread_apostrophe_iff (b : Bytes) :
    misread (39 :: b) = true ↔ 0 < takenLength b := by
  cases b with
  | nil => exact iff_of_false Bool.false_ne_true (lt_irrefl 0)
  | cons d b =>
      rw [misread, takenLength, Bool.or_eq_true, beq_iff_eq]
      split_ifs <;> simp [*]

/-- Other references are those of the text itself. -/
theorem startsReference_encodeLink {c : UInt8} (hc : c ≠ 39) (b : Bytes) :
    startsReference (c :: encodeLink b) = misread (c :: b) := by
  by_cases h38 : c = 38
  · subst h38
    cases b with
    | nil => rfl
    | cons e b =>
        by_cases h39 : e = 39
        · subst h39
          rw [encodeLink_apostrophe]
          rfl
        · rw [encodeLink_of_ne h39]
          by_cases h35 : e = 35
          · subst h35
            cases b with
            | nil => rfl
            | cons d b =>
                by_cases hd : d = 39
                · subst hd
                  rw [encodeLink_apostrophe]
                  rfl
                · rw [encodeLink_of_ne hd]
                  rfl
          · simp [startsReference, misread, h35]
  · simp [startsReference, misread, h38, hc]

/-- **Where nothing is misread**, one byte is read as it is wanted. -/
theorem decode_of_not_misread {c : UInt8} {b : Bytes} (h : misread (c :: b) = false) :
    decode 0 (encodeLink (c :: b)) = withQuotes [c] ++ decode 0 (encodeLink b) := by
  by_cases hc : c = 39
  · subst hc
    have hzero : takenLength b = 0 := by
      by_contra hne
      rw [(misread_apostrophe_iff b).mpr (Nat.pos_of_ne_zero hne)] at h
      exact absurd h (by simp)
    have hend := takeWhile_of_takenLength ((takenLength_encodeLink b).1.trans hzero)
    have hvalue : Numeral.readNat (56 :: 50 :: 49 :: 55 :: encodeLink b) = 8217 := by
      rw [Numeral.readNat]
      iterate 4 rw [List.takeWhile_cons_of_pos (by decide)]
      rw [hend]
      rfl
    rw [decode_apostrophe, hvalue, hzero, List.drop_zero]
    rfl
  · rw [← startsReference_encodeLink hc] at h
    rw [encodeLink_of_ne hc, decode_text h, withQuotes, replaceByte_of_ne hc]
    rfl

/-- What is misread is an apostrophe, or a reference in the phrase. -/
theorem misread_cases {b : Bytes} (h : misread b = true) :
    (∃ u, b = 39 :: u) ∨ ∃ d u, b = 38 :: 35 :: d :: u ∧ Numeral.isDecDigit d = true := by
  rw [misread.eq_def] at h
  split at h
  · exact .inr ⟨_, _, rfl, h⟩
  · exact .inl ⟨_, rfl⟩
  · exact absurd h Bool.false_ne_true

/-- **Where something is misread**, another text is read in its place, and not a longer
one. -/
theorem decode_of_misread {b : Bytes} (h : misread b = true) :
    ∃ s t r, decode 0 (encodeLink b) = s ++ decode 0 (encodeLink r) ∧
      withQuotes b = t ++ withQuotes r ∧ s.length ≤ t.length ∧ s ≠ t ∧
      r.length < b.length := by
  rcases misread_cases h with ⟨u, rfl⟩ | ⟨d, u, rfl, hd⟩
  · -- the reference of the apostrophe also takes what follows
    have hpos := (misread_apostrophe_iff u).mp h
    have hle := takenLength_le u
    have hlen : (rightQuote ++ u.take (takenLength u)).length = 3 + takenLength u := by
      rw [List.length_append, List.length_take_of_le hle]
      rfl
    refine ⟨_, rightQuote ++ u.take (takenLength u), _, decode_apostrophe u, ?_, ?_, ?_, ?_⟩
    · rw [List.append_assoc, ← withQuotes_split]
      exact replaceByte_self u
    · have hfour := length_character_le_four
        (Numeral.readNat (56 :: 50 :: 49 :: 55 :: encodeLink u))
      omega
    · refine character_ne_long _ ?_
      have htail : (rightQuote ++ u.take (takenLength u)).tail.length = 2 + takenLength u := by
        rw [List.length_tail, hlen]
        omega
      exact htail.ge.trans' (by omega)
    · rw [List.length_drop, List.length_cons]
      omega
  · -- a reference in the text itself
    have hd39 : d ≠ 39 := by
      rintro rfl
      exact absurd hd (by decide)
    have hle := takenLength_le (d :: u)
    obtain ⟨hlen, hdrop, -⟩ := takenLength_encodeLink (d :: u)
    refine ⟨_, 38 :: 35 :: (d :: u).take (takenLength (d :: u)),
      (d :: u).drop (takenLength (d :: u)), ?_, ?_, ?_,
      character_ne_written (Numeral.readNat (d :: encodeLink u)) 35 _, ?_⟩
    · rw [encodeLink_of_ne (by decide), encodeLink_of_ne (by decide), encodeLink_of_ne hd39,
        decode_reference hd, ← encodeLink_of_ne hd39, hlen, hdrop]
    · rw [withQuotes_cons, withQuotes_cons 35, withQuotes_split (d :: u)]
      rfl
    · have hread := length_character_le hd (encodeLink u)
      rw [← encodeLink_of_ne hd39, hlen, encodeLink_of_ne hd39] at hread
      rw [List.length_cons, List.length_cons, List.length_take_of_le hle]
      omega
    · rw [List.length_drop, List.length_cons (a := 38), List.length_cons (a := 35)]
      omega

/-- Different beginnings make different texts, if the longer one has no shorter rest. -/
theorem append_ne_append {s t x y : Bytes} (hst : s.length ≤ t.length) (hne : s ≠ t)
    (hxy : x.length ≤ y.length) : s ++ x ≠ t ++ y := by
  intro heq
  have hlen := congrArg List.length heq
  rw [List.length_append, List.length_append] at hlen
  exact hne (List.append_inj_left heq (by omega))

/-- **No text is read longer than it is wanted.** -/
theorem length_decode_le (b : Bytes) :
    (decode 0 (encodeLink b)).length ≤ (withQuotes b).length := by
  induction hn : b.length using Nat.strong_induction_on generalizing b with
  | _ n ih =>
      cases hm : misread b with
      | true =>
          obtain ⟨s, t, r, hdec, hwant, hst, -, hr⟩ := decode_of_misread hm
          have hrest := ih r.length (by omega) r rfl
          rw [hdec, hwant, List.length_append, List.length_append]
          omega
      | false =>
          cases b with
          | nil => exact Nat.zero_le _
          | cons c b =>
              have hrest := ih b.length (by rw [← hn]; exact Nat.lt_succ_self _) b rfl
              rw [decode_of_not_misread hm, withQuotes_cons c b, List.length_append,
                List.length_append]
              omega

/-- **Which texts the encoding keeps.** -/
theorem decode_encodeLink_iff (b : Bytes) :
    decode 0 (encodeLink b) = withQuotes b ↔ ∀ t ∈ b.tails, misread t = false := by
  induction b with
  | nil => exact iff_of_true rfl (by simp [misread])
  | cons c b ih =>
      rw [List.tails_cons, List.forall_mem_cons, ← ih]
      cases hm : misread (c :: b) with
      | true =>
          obtain ⟨s, t, r, hdec, hwant, hst, hne, -⟩ := decode_of_misread hm
          rw [hdec, hwant]
          exact iff_of_false (append_ne_append hst hne (length_decode_le r)) (by simp)
      | false =>
          rw [decode_of_not_misread hm, withQuotes_cons c b, List.append_cancel_left_eq, eq_self,
            true_and]

/-! ### The hidden value -/

/-- The value ends where the phrase has a double quote. -/
theorem quoted_encodeLink (b rest : Bytes) :
    quoted (encodeLink b ++ 34 :: rest) = encodeLink (quoted b) := by
  induction b with
  | nil => rfl
  | cons c b ih =>
      by_cases hc : c = 39
      · subst hc
        have hb : quoted (39 :: b) = 39 :: quoted b := rfl
        rw [encodeLink_apostrophe, hb, encodeLink_apostrophe, ← ih]
        rfl
      · by_cases h34 : c = 34
        · subst h34
          rfl
        · have hb : ∀ s, quoted (c :: s) = c :: quoted s := fun s =>
            List.takeWhile_cons_of_pos (decide_eq_true h34)
          rw [encodeLink_of_ne hc, hb, encodeLink_of_ne hc, List.cons_append, hb, ih]

/-- The right quotes are not shorter than the apostrophes. -/
theorem length_le_withQuotes (b : Bytes) : b.length ≤ (withQuotes b).length := by
  induction b with
  | nil => exact le_rfl
  | cons c b ih =>
      have hone : 1 ≤ (withQuotes [c]).length := by
        by_cases hc : c = 39
        · subst hc
          decide
        · rw [withQuotes, replaceByte_of_ne hc]
          exact Nat.succ_pos _
      rw [withQuotes_cons, List.length_append, List.length_cons]
      omega

/-- **Which texts a quoted value keeps.** -/
theorem decode_quoted_iff (b rest : Bytes) :
    decode 0 (quoted (encodeLink b ++ 34 :: rest)) = withQuotes b ↔ Linkable b := by
  rw [quoted_encodeLink]
  by_cases h34 : 34 ∈ b
  · refine iff_of_false (fun heq => ?_) fun hlink => hlink.1 h34
    -- what follows the double quote is missing
    have hsplit : quoted b ++ b.dropWhile (· ≠ 34) = b := List.takeWhile_append_dropWhile
    have hne : b.dropWhile (· ≠ 34) ≠ [] := by
      rw [Ne, List.dropWhile_eq_nil_iff]
      exact fun hall => absurd (hall 34 h34) (by decide)
    have hle := length_decode_le (quoted b)
    have hmore := length_le_withQuotes (b.dropWhile (· ≠ 34))
    have hpos := List.length_pos_iff.mpr hne
    rw [heq, ← hsplit, withQuotes_append, List.length_append, hsplit] at hle
    omega
  · have hself : quoted b = b := by
      rw [quoted, List.takeWhile_eq_self_iff]
      exact fun c hc => decide_eq_true fun he => h34 (he ▸ hc)
    rw [hself, decode_encodeLink_iff, Linkable, and_iff_right h34]

/-- **The page is the template with the button, the phrase and its encoding.** -/
theorem genPage_eq (rnd : Option UInt8) {phrase : Bytes} (h0 : 0 ∉ phrase) :
    genPage rnd phrase = genHead rnd phrase ++ (encodeLink phrase ++ 34 :: genBack) := by
  have hfront : 37 ∉ genFront := by decide +kernel
  have hmiddle : 37 ∉ genMiddle := by decide +kernel
  have hlink : 37 ∉ genLink := by decide +kernel
  have hback : 37 ∉ 34 :: genBack := by decide +kernel
  have henc : 0 ∉ encodeLink phrase := by
    rw [encodeLink_eq]
    exact fun hmem => h0 (mem_of_mem_replaceByte (by decide) hmem)
  have hassoc : genTemplate = genFront ++ (ascii "%s" ++ (genMiddle ++ (ascii "%s" ++
      (genLink ++ (ascii "%s" ++ 34 :: genBack))))) := by
    simp only [genTemplate, genHeadTemplate, List.append_assoc]
  rw [genPage, genHead, hassoc, genHeadTemplate, format_append hfront, format_str,
    format_append hmiddle, format_str, format_append hlink, format_str, format_eq_self hback,
    format_append hfront, format_str, format_append hmiddle, format_str, format_eq_self hlink,
    cstr_eq_self henc]
  simp only [List.append_assoc]

/-- The value is read as the phrase exactly if this can be linked. -/
theorem linkfor_eq_iff (rnd : Option UInt8) {phrase : Bytes} (h0 : 0 ∉ phrase) :
    linkfor rnd phrase = withQuotes phrase ↔ Linkable phrase := by
  rw [linkfor, genPage_eq rnd h0, List.drop_left, decode_quoted_iff]

/-- **What the hidden field says.** For every phrase of every run of calls from a loaded
state, and every button: the hidden value is read as the phrase with its apostrophes
replaced, if and only if the phrase has no double quote, no `&#` with a digit after it,
and no apostrophe with a digit or a semicolon after it. -/
theorem linkfor_iff {db : Database} {y : YogiGen} (h : Loads db y)
    {trace : List (GenCall × Object)} (hrun : Run Calls (.loaded y) trace) {call : GenCall}
    {o : Object} (hmem : (call, o) ∈ trace) {phrase : Bytes}
    (hphrase : call.phrase = some phrase) (rnd : Option UInt8) :
    linkfor rnd phrase = withQuotes phrase ↔ Linkable phrase :=
  linkfor_eq_iff rnd (zero_notMem_phrase h hrun hmem hphrase)

/-- A database with one noun and two formats with apostrophes. -/
def rockDb : Database where
  expressions := [⟨ascii "rock & roll", ascii "rock & roll", 3, 0⟩]
  formats := [⟨ascii "It's %s.", 0x06, 1⟩, ⟨ascii "It's %s of '68.", 0x06, 1⟩]

/-- The state it is loaded into. -/
def rock : YogiGen where
  verbs := .ofRows []
  adjs := .ofRows []
  cepts := .ofRows []
  objs := .ofRows [⟨3, 0, ascii "rock & roll", ascii "rock & roll"⟩]
  formats := .ofRows [⟨ascii "It's %s.", 0x06, 1⟩, ⟨ascii "It's %s of '68.", 0x06, 1⟩]
  conn := ⟨none, [], 0, maxConnNumber, 0⟩

/-- The state is one that the program loads from the database. -/
theorem loads_rock : Loads rockDb rock := by
  refine ⟨fun type => ?_, rockDb.formats, .refl _, by decide +kernel⟩
  cases type with
  | object => exact ⟨rockDb.expressions, .refl _, List.pairwise_singleton .., by decide +kernel⟩
  | verb | adjective | concept => exact ⟨[], .refl _, .nil, by decide +kernel⟩

/-- A phrase of each format. -/
def rockTrace : List (GenCall × Object) :=
  [(⟨[some 0, some 0], some (ascii "It's rock & roll.")⟩, .loaded rock),
    (⟨[some 1, some 0], some (ascii "It's rock & roll of '68.")⟩, .loaded rock)]

/-- The call is a call of the program. -/
theorem run_rockTrace : Run Calls (.loaded rock) rockTrace := by
  refine .cons (Supply.Reader.yields_iff_run.mpr ?_)
    (.cons (Supply.Reader.yields_iff_run.mpr ?_) (.nil _))
  · decide +kernel
  · decide +kernel

/-- The first phrase is said by the hidden field. -/
theorem linkfor_iff_rock :
    linkfor none (ascii "It's rock & roll.") = withQuotes (ascii "It's rock & roll.") :=
  (linkfor_iff loads_rock run_rockTrace List.mem_cons_self rfl none).mpr (by decide +kernel)

/-- In the second phrase the digits of the year go on with the reference of the apostrophe. -/
theorem linkfor_fails_rock :
    Loads rockDb rock ∧ Run Calls (.loaded rock) rockTrace ∧
      (⟨[some 1, some 0], some (ascii "It's rock & roll of '68.")⟩, .loaded rock) ∈ rockTrace ∧
      ∀ rnd, linkfor rnd (ascii "It's rock & roll of '68.") ≠
        withQuotes (ascii "It's rock & roll of '68.") := by
  refine ⟨loads_rock, run_rockTrace, List.mem_cons_of_mem _ List.mem_cons_self,
    fun rnd heq => ?_⟩
  have hlink := (linkfor_eq_iff rnd (by decide +kernel)).mp heq
  exact absurd hlink (by decide +kernel)

end Yogigen
