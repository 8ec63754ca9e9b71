import Yogigen.Sharing
import Yogigen.Shipped

/-!
# Links to Phrases of the Rows

The texts of the rows that come with the program have no markup, no reference and no digit, and
no format has both an apostrophe and a semicolon. So nothing in a phrase is misread, neither in
the hidden field of its page nor on the page that its link shows.

## Main results

* `Clear.phrase`: what the phrases of a run do not have.
* `shipped_link_shows`: the link of a phrase shows the phrase.
-/

open HtmlText Printf Transition

namespace Yogigen

/-! ### The formats while a phrase is made -/

/-- The formats do not matter for the entries that are found. -/
theorem lookup_withFormats (y : YogiGen) (t : Table FormatString) (s : SubstitutionData)
    (i : Fin 8) : lookup { y with formats := t } s i = lookup y s i := by
  rw [lookup, lookup, getExpression_eq, getExpression_eq]
  cases s.types i with
  | verb | adjective | concept | object => rfl

/-- Nor for a step of the loop. -/
theorem substituteStep_withFormats (y : YogiGen) (t : Table FormatString) (s : SubstitutionData)
    (i : Fin 8) (out : Bytes) : substituteStep { y with formats := t } s i out =
      (substituteStep y s i out).map fun r => ({ r.1 with formats := t }, r.2) := by
  rw [substituteStep, substituteStep, lookup_withFormats]
  cases lookup y s i with
  | none => rfl
  | some e =>
      dsimp only
      split_ifs with hart
      · cases s.types i with
        | verb | adjective | concept | object => rfl
      · rfl

/-- What is put together depends on the expressions only. -/
theorem substituteLoop_withFormats {s : SubstitutionData} {n i : ℕ} {y y' : YogiGen}
    {out out' : Bytes} (t : Table FormatString)
    (h : substituteLoop s n i y out = .ok (some (y', out'))) :
    substituteLoop s n i { y with formats := t } out =
      .ok (some ({ y' with formats := t }, out')) := by
  induction n generalizing i y out with
  | zero =>
      obtain ⟨hi, hstep⟩ := substituteLoop_zero_iff.mp h
      refine substituteLoop_zero_iff.mpr ⟨hi, ?_⟩
      rw [substituteStep_withFormats, hstep]
      rfl
  | succ n ih =>
      obtain ⟨hi, y₁, out₁, hstep, hrest⟩ := substituteLoop_succ_iff.mp h
      refine substituteLoop_succ_iff.mpr ⟨hi, { y₁ with formats := t }, out₁, ?_, ih hrest⟩
      rw [substituteStep_withFormats, hstep]
      rfl

/-- **A byte that no expression has** comes into a phrase from its format only. -/
theorem FreeOf.mem_of_substituteLoop {c : UInt8} (hc : c < 65) (hblank : c ≠ 32) {y y' : YogiGen}
    (h : FreeOf c y) {s : SubstitutionData} {n i : ℕ} {out out' : Bytes}
    (hloop : substituteLoop s n i y out = .ok (some (y', out'))) (hmem : c ∈ out') : c ∈ out := by
  by_contra hout
  have hlacks : Lacks c { y with formats := .ofRows [] } := by
    refine ⟨fun type => ?_, fun f hf => absurd hf List.not_mem_nil⟩
    have hfree := h type
    cases type with
    | verb | adjective | concept | object => exact hfree
  have hloop' := substituteLoop_withFormats (.ofRows []) hloop
  exact (hlacks.substituteLoop hc hblank hout hloop').2 hmem

/-- The prefixes have no byte below the letters but blanks. -/
theorem notMem_marks {c : UInt8} (hc : c < 65) (hblank : c ≠ 32) (k : ℕ) : c ∉ marks k := by
  intro hmem
  obtain ⟨mark, hmark, hmem⟩ := List.mem_flatten.mp hmem
  rw [List.eq_of_mem_replicate hmark] at hmem
  exact notMem_articleN hc hblank hmem

/-- Prefixes bring no such byte into the tables. -/
theorem Prefixed.freeOf {c : UInt8} (hc : c < 65) (hblank : c ≠ 32) {y y' : YogiGen}
    (h : Prefixed y y') (hfree : FreeOf c y) : FreeOf c y' := by
  intro type e' he' mode
  obtain ⟨hlen, hget⟩ := List.forall₂_iff_get.mp (h.table type)
  obtain ⟨i, hi, rfl⟩ := List.mem_iff_getElem.mp he'
  obtain ⟨k, htext, -⟩ := (hget i (hlen ▸ hi) hi).text mode
  simp only [List.get_eq_getElem] at htext
  rw [htext]
  refine List.mem_append.not.mpr (not_or.mpr ⟨notMem_marks hc hblank k, ?_⟩)
  exact hfree type _ (List.getElem_mem _) mode

/-! ### What a phrase does not have -/

/-- A byte with which a reference, a tag or the end of an attribute begins, or a digit. -/
def risky (c : UInt8) : Bool :=
  c == 34 || c == 38 || c == 60 || Numeral.isDecDigit c

/-- No text has a risky byte, no expression an apostrophe or a semicolon, and no format both. -/
structure Clear (y : YogiGen) : Prop where
  lacks : ∀ c, risky c = true → Lacks c y
  apostrophe : FreeOf 39 y
  semicolon : FreeOf 59 y
  apart : ∀ f ∈ y.formats.entries, 39 ∈ f.str → 59 ∉ f.str

/-- A phrase in which nothing is misread. -/
structure ClearText (phrase : Bytes) : Prop where
  lacks : ∀ c, risky c = true → c ∉ phrase
  apart : 39 ∈ phrase → 59 ∉ phrase

/-- No letter is risky, and no blank. -/
theorem risky_lt {c : UInt8} (h : risky c = true) : c < 65 ∧ c ≠ 32 := by
  simp only [risky, Numeral.isDecDigit, Bool.or_eq_true, beq_iff_eq, decide_eq_true_eq] at h
  rcases h with ((rfl | rfl) | rfl) | ⟨hlow, hhigh⟩
  · decide
  · decide
  · decide
  · refine ⟨UInt8.lt_of_le_of_lt hhigh (by decide), ?_⟩
    rintro rfl
    exact absurd hlow (by decide)

/-- **One phrase** of clear tables. -/
theorem Clear.composePhrase {y y' : YogiGen} {draws : List (Option UInt16)} {out : Bytes}
    (h : Clear y) (hy : (composePhrase y).Yields draws (some (out, y'))) :
    Clear y' ∧ ClearText out := by
  have hprefixed := (exists_draws_iff.mp ⟨draws, hy⟩).prefixed
  have hlacks : ∀ c, risky c = true → Lacks c y' ∧ c ∉ out := fun c hrisky =>
    (h.lacks c hrisky).composePhrase (risky_lt hrisky).1 (risky_lt hrisky).2 hy
  have hquotes : FreeOf 39 y' := hprefixed.freeOf (by decide) (by decide) h.apostrophe
  have hsemis : FreeOf 59 y' := hprefixed.freeOf (by decide) (by decide) h.semicolon
  refine ⟨⟨fun c hrisky => (hlacks c hrisky).1, hquotes, hsemis, ?_⟩,
    fun c hrisky => (hlacks c hrisky).2, fun hquote hsemi => ?_⟩
  · rw [hprefixed.formats]
    exact h.apart
  · obtain ⟨f, s, hchooses, hsub⟩ := chooses_of_yields hy
    obtain ⟨out₀, hloop, hcap⟩ := substituteAndPrettify_ok_iff.mp hsub
    cases hchooses with
    | intro h0 hf hs =>
        rw [getFormats] at hf
        split_ifs at hf
        have hback : ∀ c : UInt8, c < 65 → c ≠ 32 → FreeOf c y → c ∈ out → c ∈ f.str := by
          intro c hc hblank hfree hmem
          refine hfree.mem_of_substituteLoop hc hblank hloop ?_
          by_contra hout
          exact notMem_capitalise hc hout hcap hmem
        exact h.apart f (List.mem_of_getElem? hf)
          (hback 39 (by decide) (by decide) h.apostrophe hquote)
          (hback 59 (by decide) (by decide) h.semicolon hsemi)

/-- **The phrases of a run** of clear tables. -/
theorem Clear.phrase {y : YogiGen} (h : Clear y) {trace : List (GenCall × Object)}
    (hrun : Run Calls (.loaded y) trace) {call : GenCall} {o : Object} (hmem : (call, o) ∈ trace)
    {phrase : Bytes} (hphrase : call.phrase = some phrase) : ClearText phrase := by
  have hstep : ∀ (o : Object) (call : GenCall) (o' : Object),
      (∀ y, o.contents = some y → Clear y) → Calls o call o' →
        ∀ y, o'.contents = some y → Clear y := by
    intro o call o' ho hcall y' hy'
    obtain ⟨y, hcontents, ⟨out, y₁, -, rfl, hyields⟩ | ⟨-, rfl, -⟩⟩ := generate_cases hcall
    · obtain rfl := Option.some.inj hy'
      exact ((ho y hcontents).composePhrase hyields).1
    · exact absurd hy' (by simp)
  obtain ⟨o₀, ho₀, hcall⟩ := hrun.exists_step hstep (fun y' hy' => Option.some.inj hy' ▸ h) hmem
  obtain ⟨y₀, hcontents, ⟨out, y₁, hout, -, hyields⟩ | ⟨hnull, -⟩⟩ := generate_cases hcall
  · obtain rfl := Option.some.inj (hphrase.symm.trans hout)
    exact ((ho₀ y₀ hcontents).composePhrase hyields).2
  · exact absurd (hphrase.symm.trans hnull) (by simp)

/-! ### How it is read -/

/-- What is in the shown phrase is in the phrase or part of a right quote. -/
theorem mem_withQuotes {c : UInt8} {b : Bytes} (h : c ∈ withQuotes b) :
    (c ∈ b ∧ c ≠ 39) ∨ c ∈ rightQuote := by
  obtain ⟨d, hd, hmem⟩ := List.mem_flatMap.mp h
  split_ifs at hmem with heq
  · exact .inr hmem
  · obtain rfl := List.mem_singleton.mp hmem
    exact .inl ⟨hd, heq⟩

/-- A clear phrase can be linked. -/
theorem ClearText.linkable {phrase : Bytes} (h : ClearText phrase) : Linkable phrase := by
  refine ⟨h.lacks 34 (by decide), fun t ht => ?_⟩
  have hsub := ((List.mem_tails _ _).mp ht).subset
  unfold misread
  split
  · exact absurd (hsub List.mem_cons_self) (h.lacks 38 (by decide))
  · next d _ =>
      have hd : d ∈ phrase := hsub (List.mem_cons_of_mem _ List.mem_cons_self)
      have hquote : 39 ∈ phrase := hsub List.mem_cons_self
      rw [Bool.or_eq_false_iff, beq_eq_false_iff_ne]
      refine ⟨?_, ?_⟩
      · by_contra hdigit
        rw [Bool.not_eq_false] at hdigit
        exact h.lacks d (by simp [risky, hdigit]) hd
      · rintro rfl
        exact h.apart hquote hd
  · rfl

/-- And is plain text. -/
theorem ClearText.plain (rules : Rules) {phrase : Bytes} (h : ClearText phrase) :
    Plain rules (withQuotes phrase) := by
  intro t ht
  have hsub := ((List.mem_tails _ _).mp ht).subset
  have hno : ∀ c, risky c = true → c ∉ rightQuote → c ∉ t := by
    intro c hrisky hquote hmem
    rcases mem_withQuotes (hsub hmem) with ⟨hc, -⟩ | hc
    · exact h.lacks c hrisky hc
    · exact hquote hc
  constructor
  · unfold startsMarkup
    split
    · exact absurd List.mem_cons_self (hno 60 (by decide) (by decide))
    · rfl
  · unfold startsReference
    split
    · exact absurd List.mem_cons_self (hno 38 (by decide) (by decide))
    · rfl

/-! ### The rows -/

/-- What is loaded has been read of rows. -/
theorem Loads.exists_expressionRow {db : Database} {y : YogiGen} (h : Loads db y)
    {type : ExprType} {e : Expression} (he : e ∈ (y.table type).entries) :
    ∃ row ∈ db.expressions, e = readExpr row := by
  obtain ⟨rows, hperm, -, htable⟩ := h.expressions type
  rw [htable, Table.ofRows] at he
  obtain ⟨row, hrow, rfl⟩ := List.mem_map.mp (List.mem_of_mem_take he)
  exact ⟨row, (List.mem_filter.mp (hperm.mem_iff.mp hrow)).1, rfl⟩

/-- Every format that is loaded comes from a row. -/
theorem Loads.exists_formatRow {db : Database} {y : YogiGen} (h : Loads db y) {f : FormatString}
    (hf : f ∈ y.formats.entries) : ∃ row ∈ db.formats, f = readFrmt row := by
  obtain ⟨rows, hperm, hformats⟩ := h.formats
  rw [hformats, Table.ofRows] at hf
  obtain ⟨row, hrow, rfl⟩ := List.mem_map.mp (List.mem_of_mem_take hf)
  exact ⟨row, hperm.mem_iff.mp hrow, rfl⟩

/-- A byte that may be misread, alone or after another. -/
def delicate (c : UInt8) : Bool :=
  risky c || c == 39 || c == 59

/-- No expression of the rows has a delicate byte. -/
def clearRows (rows : List ExpressionRow) : Bool :=
  rows.all fun row => (row.field1 ++ row.field2).all fun c => !delicate c

/-- The delicate bytes of a format are all apostrophes, or all semicolons. -/
def clearFormat (row : FormatRow) : Bool :=
  (row.str.filter delicate).all (· == 39) || (row.str.filter delicate).all (· == 59)

/-- A string that is read has the bytes of its row. -/
theorem mem_of_mem_field {row : ExpressionRow} {mode : Bool} {c : UInt8}
    (h : c ∈ (readExpr row).field mode) : c ∈ row.field1 ++ row.field2 := by
  cases mode with
  | false => exact List.mem_append_left _ (List.takeWhile_subset _ h)
  | true => exact List.mem_append_right _ (List.takeWhile_subset _ h)

/-- The texts of clear rows have no delicate byte. -/
theorem notMem_field_of_clearRows {rows : List ExpressionRow} (h : clearRows rows = true)
    {row : ExpressionRow} (hrow : row ∈ rows) {c : UInt8} (hc : delicate c = true)
    (mode : Bool) : c ∉ (readExpr row).field mode := by
  intro hmem
  have hclear := List.all_eq_true.mp (List.all_eq_true.mp h row hrow) c (mem_of_mem_field hmem)
  rw [hc] at hclear
  cases hclear

/-- A clear format has no delicate byte but quotes, or none but semicolons. -/
theorem eq_of_clearFormat {row : FormatRow} (h : clearFormat row = true) :
    (∀ c ∈ (readFrmt row).str, delicate c = true → c = 39) ∨
      ∀ c ∈ (readFrmt row).str, delicate c = true → c = 59 := by
  have hmem : ∀ c ∈ (readFrmt row).str, delicate c = true → c ∈ row.str.filter delicate :=
    fun c hc hd => List.mem_filter.mpr ⟨List.takeWhile_subset _ hc, hd⟩
  rcases Bool.or_eq_true_iff.mp h with hall | hall
  · exact .inl fun c hc hd => beq_iff_eq.mp (List.all_eq_true.mp hall c (hmem c hc hd))
  · exact .inr fun c hc hd => beq_iff_eq.mp (List.all_eq_true.mp hall c (hmem c hc hd))

/-- The verbs are clear. -/
theorem verbRows_clear : clearRows verbRows = true := by
  decide +kernel

/-- The adjectives are clear. -/
theorem adjectiveRows_clear : clearRows adjectiveRows = true := by
  decide +kernel

/-- The concepts are clear. -/
theorem conceptRows_clear : clearRows conceptRows = true := by
  decide +kernel

/-- The objects are clear. -/
theorem objectRows_clear : clearRows objectRows = true := by
  decide +kernel

/-- The formats are clear. -/
theorem formatRows_clear : formatRows.all clearFormat = true := by
  decide +kernel

/-- So all expressions are. -/
theorem expressionRows_clear : clearRows shippedDb.expressions = true := by
  have happend : ∀ rows rows', clearRows (rows ++ rows') = (clearRows rows && clearRows rows') :=
    fun _ _ => List.all_append
  rw [shippedDb, happend, happend, happend, verbRows_clear, adjectiveRows_clear,
    conceptRows_clear, objectRows_clear]
  rfl

/-- **The rows are clear.** -/
theorem clear_of_loads {y : YogiGen} (h : Loads shippedDb y) : Clear y := by
  have hexpr : ∀ c, delicate c = true → FreeOf c y := by
    intro c hc type e he mode
    obtain ⟨row, hrow, rfl⟩ := h.exists_expressionRow he
    exact notMem_field_of_clearRows expressionRows_clear hrow hc mode
  have hfrmt : ∀ f ∈ y.formats.entries,
      (∀ c ∈ f.str, delicate c = true → c = 39) ∨ ∀ c ∈ f.str, delicate c = true → c = 59 := by
    intro f hf
    obtain ⟨row, hrow, rfl⟩ := h.exists_formatRow hf
    exact eq_of_clearFormat (List.all_eq_true.mp formatRows_clear row hrow)
  refine ⟨fun c hc => ?_, hexpr 39 (by decide), hexpr 59 (by decide), fun f hf hquote hsemi => ?_⟩
  · have hd : delicate c = true := by simp [delicate, hc]
    refine ⟨hexpr c hd, fun f hf hmem => ?_⟩
    -- neither an apostrophe nor a semicolon is risky
    rcases hfrmt f hf with hall | hall
    · exact absurd (hall c hmem hd ▸ hc) (by decide)
    · exact absurd (hall c hmem hd ▸ hc) (by decide)
  · rcases hfrmt f hf with hall | hall
    · exact absurd (hall 59 hsemi (by decide)) (by decide)
    · exact absurd (hall 39 hquote (by decide)) (by decide)

/-! ### Links -/

/-- **Links on the shipped rows.** In every run of calls from a load of the rows, in whatever
order they come, and every run of the requests in orderly steps: once the visitor of the page
of a phrase has been shown a link, a page is sent for it, and it shows the phrase as text, with
its apostrophes replaced. -/
theorem shipped_link_shows (rules : Rules) (b : Build) {y : YogiGen} (h : Loads shippedDb y)
    {calls : List (GenCall × Object)} (hcalls : Run Calls (.loaded y) calls) {call : GenCall}
    {o : Object} (hmem : (call, o) ∈ calls) {phrase : Bytes} (hphrase : call.phrase = some phrase)
    {rnd : Option UInt8} {e : Bytes} (henc : Encodes (linkfor rnd phrase) e) {R : Type}
    [DecidableEq R] {s : Board R} {query : R → Bytes} (hs : s.Asked query)
    {trace more : List (Turn R × Board R)} (hrun : Run (Enabled Board.next) s (trace ++ more))
    (hord : Guarded Board.Orderly s (trace ++ more)) {r : R}
    (hquery : query r = ascii "linkfor=" ++ e) {id : UInt64}
    (hret : (final s trace).stage r = .returned id) (hid : id ≠ errorId) :
    (∃ page, Sends (final s (trace ++ more)).table (queryString (permalink b id)) page) ∧
      ∀ page, Sends (final s (trace ++ more)).table (queryString (permalink b id)) page →
        ShownAsText rules page (withQuotes phrase) := by
  have h0 := zero_notMem_phrase h hcalls hmem hphrase
  have hclear := (clear_of_loads h).phrase hcalls hmem hphrase
  have hlink := (linkfor_eq_iff rnd h0).mpr hclear.linkable
  have hsends := sends_linkfor_iff b h0 henc hs hrun hord hquery hret hid
  refine ⟨⟨_, (hsends _).mpr rfl⟩, fun page hpage => ?_⟩
  obtain rfl := (hsends page).mp hpage
  rw [hlink]
  exact (shownAsText_iff rules (hlink ▸ zero_notMem_linkfor rnd h0) []).mpr (hclear.plain rules)

/-! ### One phrase of the rows -/

/-- The second of two visitors shares a phrase with an apostrophe. -/
theorem shipped_link_shows_joy :
    ∃ (s : Board Bool) (page : Bytes),
      Sends s.table (queryString (permalink ⟨false, false⟩ 8)) page ∧
      ShownAsText someRules page (withQuotes joyPhrase) := by
  obtain ⟨o, hcall⟩ := exists_calls_of_makes makes_joy
  obtain ⟨trace, more, hrun, hord, -, -, hret⟩ := exists_visitor_run
  have henc : Encodes (linkfor none joyPhrase) (percentEncode (withQuotes joyPhrase)) :=
    encodes_linkfor none (by decide) (by decide +kernel)
  rw [← List.append_nil (trace ++ more)] at hrun hord
  obtain ⟨⟨page, hpage⟩, hshows⟩ :=
    shipped_link_shows someRules ⟨false, false⟩ (loads_load shippedDb) (.cons hcall (.nil _))
      List.mem_cons_self rfl henc asked_visitorBoard hrun hord (r := true) rfl hret (by decide)
  exact ⟨_, page, hpage, hshows page hpage⟩

end Yogigen
