import Yogigen.Queries
import Mathlib.Data.List.GetD
import Mathlib.Data.List.Nodup

/-!
# Links to Stored Phrases

An id is used three times: as the key of the row `YogiGen_insert_into_db` stores, as the
text of the link the permalink page shows, and, when the link is followed, as the key in
the `UPDATE` of `YogiGen_get_by_id`. The text is `%lx` of the id, without leading zeros;
the keys are `bigint`s, so ids with the top bit set are negative keys.

## Main results

* `validate_of_short`: the validation loop ends and accepts a short hexadecimal text; its
  counter is eight bits wide.
* `validates_iff`: the texts on which it ends with the right answer.
* `insertsKey_iff`, `selectsKey_iff`: the keys of the two statements.
* `readInsert_insertQuery`, `readInsert_ne`: the row that the `INSERT` of a phrase stores.
* `link_selects_row`: the three uses of an id agree.
-/

open Printf SqlText

namespace Yogigen

/-! ### The link -/

/-- The compile-time switches of `yogiserver.h` that change addresses. -/
structure Build where
  heroku : Bool
  ssl : Bool

/-- `HTTP_PREFIX`. -/
def httpPrefix (b : Build) : Bytes :=
  if b.ssl || b.heroku then ascii "https://" else ascii "http://"

/-- `HOST`. -/
def host (b : Build) : Bytes :=
  if b.heroku then ascii "yogigen.herokuapp.com" else ascii "localhost"

/-- The text area of `permalink.html`, the only part of the page with conversions. -/
def permalinkTemplate : Bytes :=
  ascii "%s%s/getbyid?%lx"

/-- The link `permalink_request_handler` prints for an id. -/
def permalink (b : Build) (id : UInt64) : Bytes :=
  format permalinkTemplate [.str (httpPrefix b), .str (host b), .ulong id]

/-- The query string of an address. -/
def queryString (url : Bytes) : Bytes :=
  (url.dropWhile (· ≠ 63)).drop 1

/-- The parts of an address have no NUL. -/
theorem cstr_address (b : Build) :
    cstr (httpPrefix b) = httpPrefix b ∧ cstr (host b) = host b := by
  obtain ⟨heroku, ssl⟩ := b
  revert heroku ssl
  decide +kernel

/-- The link, in its parts. -/
theorem permalink_eq (b : Build) (id : UInt64) :
    permalink b id = httpPrefix b ++ host b ++ ascii "/getbyid" ++ 63 :: hexText id := by
  have h : permalink b id =
      cstr (httpPrefix b) ++ (cstr (host b) ++ (ascii "/getbyid?" ++ (hexText id ++ []))) := rfl
  rw [h, (cstr_address b).1, (cstr_address b).2]
  simp [ascii]

/-- Following the link of an id requests its hexadecimal text. -/
theorem queryString_permalink (b : Build) (id : UInt64) :
    queryString (permalink b id) = hexText id := by
  have hfront : ∀ c ∈ httpPrefix b ++ host b ++ ascii "/getbyid", decide (c ≠ 63) = true := by
    obtain ⟨heroku, ssl⟩ := b
    revert heroku ssl
    decide +kernel
  rw [queryString, permalink_eq, List.dropWhile_append_of_pos hfront, List.dropWhile_cons]
  rfl

/-! ### Validation -/

/-- The loop of `getbyid_request_handler` from counter `i`: `none` while it has not ended. -/
def validateFrom : ℕ → Bytes → UInt8 → Option Bool
  | 0, _, _ => none
  | fuel + 1, query, i =>
      if i.toNat < query.length then
        if isxdigit (query.getD i.toNat 0) then validateFrom fuel query (i + 1) else some false
      else some true

/-- The validation of a query string. -/
def validate (fuel : ℕ) (query : Bytes) : Option Bool :=
  validateFrom fuel query 0

/-- While the counter cannot wrap, the loop ends after one round for each byte left. -/
theorem validateFrom_eq_true {query : Bytes} (hhex : ∀ c ∈ query, isxdigit c = true)
    (hlen : query.length < 256) (k : ℕ) :
    ∀ {i : UInt8} {fuel : ℕ}, i.toNat + k = query.length → k < fuel →
      validateFrom fuel query i = some true := by
  induction k with
  | zero =>
      intro i fuel hi hfuel
      obtain ⟨fuel, rfl⟩ := Nat.exists_eq_add_one_of_ne_zero (by omega : fuel ≠ 0)
      rw [validateFrom, if_neg (by omega)]
  | succ k ih =>
      intro i fuel hi hfuel
      obtain ⟨fuel, rfl⟩ := Nat.exists_eq_add_one_of_ne_zero (by omega : fuel ≠ 0)
      have hlt : i.toNat < query.length := by omega
      have hdigit : isxdigit (query.getD i.toNat 0) = true := by
        rw [List.getD_eq_getElem _ _ hlt]
        exact hhex _ (List.getElem_mem hlt)
      have hnext : (i + 1).toNat = i.toNat + 1 := by
        rw [UInt8.toNat_add, UInt8.toNat_one]
        omega
      rw [validateFrom, if_pos hlt, if_pos hdigit]
      exact ih (by omega) (by omega)

/-- **Short hexadecimal texts are accepted.** -/
theorem validate_of_short {query : Bytes} (hhex : ∀ c ∈ query, isxdigit c = true)
    (hlen : query.length < 256) {fuel : ℕ} (hfuel : query.length < fuel) :
    validate fuel query = some true :=
  validateFrom_eq_true hhex hlen query.length (Nat.zero_add _) hfuel

/-- A printed id has hexadecimal digits only. -/
theorem isxdigit_of_mem_hexText {id : UInt64} {c : UInt8} (h : c ∈ hexText id) :
    isxdigit c = true :=
  Numeral.isHexDigit_of_mem_text h

/-- A printed id has sixteen digits at most. -/
theorem length_hexText_le (id : UInt64) : (hexText id).length ≤ 16 :=
  Numeral.length_text_le (by omega) (by omega) id.toNat_lt

/-- **Links are valid.** -/
theorem validate_permalink (b : Build) (id : UInt64) :
    ∃ fuel, validate fuel (queryString (permalink b id)) = some true := by
  have hlen := length_hexText_le id
  rw [queryString_permalink]
  exact ⟨17, validate_of_short (fun _ hc => isxdigit_of_mem_hexText hc) (by omega) (by omega)⟩

/-- One round on a hexadecimal digit. -/
theorem validateFrom_digit {query : Bytes} {i : UInt8} (hi : i.toNat < query.length)
    (hdigit : isxdigit (query.getD i.toNat 0) = true) (fuel : ℕ) :
    validateFrom (fuel + 1) query i = validateFrom fuel query (i + 1) := by
  rw [validateFrom, if_pos hi, if_pos hdigit]

/-- The counter stays below 256, so a text that long is never read to its end. -/
theorem validateFrom_eq_none {query : Bytes} (hlen : 256 ≤ query.length)
    (hhex : ∀ n < 256, isxdigit (query.getD n 0) = true) (fuel : ℕ) :
    ∀ i : UInt8, validateFrom fuel query i = none := by
  induction fuel with
  | zero => exact fun _ => rfl
  | succ fuel ih =>
      intro i
      have hi : i.toNat < 256 := i.toNat_lt
      rw [validateFrom_digit (by omega) (hhex _ hi)]
      exact ih (i + 1)

/-- A byte that is no digit, at a place the counter reaches before it wraps, is found. -/
theorem validateFrom_eq_false {query : Bytes} {m : ℕ} (hm : m ≤ 256) (hlen : m ≤ query.length)
    (k : ℕ) :
    ∀ {i : UInt8}, i.toNat + k = m →
      (∃ n, i.toNat ≤ n ∧ n < m ∧ isxdigit (query.getD n 0) = false) →
      ∃ fuel, validateFrom fuel query i = some false := by
  induction k with
  | zero =>
      rintro i hi ⟨n, hn, hlt, -⟩
      omega
  | succ k ih =>
      rintro i hi ⟨n, hn, hlt, hbad⟩
      have hread : i.toNat < query.length := by omega
      cases hdigit : isxdigit (query.getD i.toNat 0) with
      | false =>
          refine ⟨1, ?_⟩
          rw [validateFrom, if_pos hread, hdigit]
          rfl
      | true =>
          have hne : i.toNat ≠ n := by
            rintro rfl
            exact absurd (hdigit.symm.trans hbad) (by decide)
          have hnext : (i + 1).toNat = i.toNat + 1 := by
            rw [UInt8.toNat_add, UInt8.toNat_one]
            omega
          obtain ⟨fuel, hfuel⟩ := ih (i := i + 1) (by omega) ⟨n, by omega, hlt, hbad⟩
          exact ⟨fuel + 1, (validateFrom_digit hread hdigit fuel).trans hfuel⟩

/-- The answer of a validation that ends does not depend on how long it is watched. -/
theorem validateFrom_mono {query : Bytes} {answer : Bool} (more : ℕ) {fuel : ℕ} :
    ∀ {i : UInt8}, validateFrom fuel query i = some answer →
      validateFrom (fuel + more) query i = some answer := by
  induction fuel with
  | zero => exact fun h => absurd h (by simp [validateFrom])
  | succ fuel ih =>
      intro i h
      rw [Nat.add_right_comm]
      rw [validateFrom] at h ⊢
      split_ifs at h ⊢ with hi hdigit
      · exact ih h
      · exact h
      · exact h

/-- A validation has one answer. -/
theorem validate_unique {query : Bytes} {a b : Bool} {m n : ℕ}
    (ha : validate m query = some a) (hb : validate n query = some b) : a = b := by
  have ha' := validateFrom_mono n ha
  rw [Nat.add_comm] at ha'
  exact Option.some.inj (ha'.symm.trans (validateFrom_mono m hb))

/-- The validation ends, and lets the request through exactly when its query string
consists of hexadecimal digits. -/
def Validates (query : Bytes) : Prop :=
  ∃ fuel answer, validate fuel query = some answer ∧
    (answer = true ↔ ∀ c ∈ query, isxdigit c = true)

/-- A byte among the first 256 is read before the counter wraps. -/
theorem validate_eq_false {query : Bytes} {c : UInt8} (hc : c ∈ query.take 256)
    (hbad : isxdigit c = false) : ∃ fuel, validate fuel query = some false := by
  obtain ⟨n, hn, rfl⟩ := List.mem_iff_getElem.mp hc
  rw [List.length_take] at hn
  rw [List.getElem_take] at hbad
  refine validateFrom_eq_false (m := min 256 query.length) (min_le_left ..) (min_le_right ..)
    (min 256 query.length) (Nat.zero_add _) ⟨n, Nat.zero_le n, hn, ?_⟩
  rwa [List.getD_eq_getElem _ _ (by omega)]

/-- Long texts that start with 256 digits keep the handler in its loop for ever. -/
theorem validate_eq_none {query : Bytes} (hlen : 256 ≤ query.length)
    (hhex : ∀ c ∈ query.take 256, isxdigit c = true) (fuel : ℕ) :
    validate fuel query = none := by
  refine validateFrom_eq_none hlen (fun n hn => ?_) fuel 0
  have htake : n < (query.take 256).length := by
    rw [List.length_take]
    omega
  rw [List.getD_eq_getElem _ _ (by omega), ← List.getElem_take (h := htake)]
  exact hhex _ (List.getElem_mem htake)

/-- The texts that pass the validation. -/
theorem validate_eq_true_iff (query : Bytes) :
    (∃ fuel, validate fuel query = some true) ↔
      query.length ≤ 255 ∧ ∀ c ∈ query, isxdigit c = true := by
  constructor
  · rintro ⟨fuel, hfuel⟩
    have hfront : ∀ c ∈ query.take 256, isxdigit c = true := by
      intro c hc
      by_contra hbad
      obtain ⟨n, hn⟩ := validate_eq_false hc (Bool.eq_false_iff.mpr hbad)
      exact absurd (validate_unique hn hfuel) (by decide)
    have hlen : query.length ≤ 255 := by
      by_contra hlong
      have hnone := validate_eq_none (by omega) hfront fuel
      exact absurd (hnone.symm.trans hfuel) (by simp)
    rw [List.take_of_length_le (by omega)] at hfront
    exact ⟨hlen, hfront⟩
  · rintro ⟨hlen, hall⟩
    exact ⟨query.length + 1, validate_of_short hall (by omega) (by omega)⟩

/-- **What the validation decides.** It ends with the right answer exactly on texts of at
most 255 bytes and on those with a byte among the first 256 that is no hexadecimal digit;
on any other text it never ends. -/
theorem validates_iff (query : Bytes) :
    (Validates query ↔
      query.length ≤ 255 ∨ ∃ c ∈ query.take 256, isxdigit c = false) ∧
    (¬ Validates query → ∀ fuel, validate fuel query = none) := by
  have hbad : ∀ c ∈ query.take 256, isxdigit c = false → Validates query := by
    intro c hc hdigit
    obtain ⟨fuel, hfuel⟩ := validate_eq_false hc hdigit
    refine ⟨fuel, false, hfuel, iff_of_false (by decide) fun hall => ?_⟩
    exact absurd ((hall c (List.mem_of_mem_take hc)).symm.trans hdigit) (by decide)
  have hends : query.length ≤ 255 ∨ (∃ c ∈ query.take 256, isxdigit c = false) →
      Validates query := by
    rintro (hlen | ⟨c, hc, hdigit⟩)
    · by_cases hall : ∀ c ∈ query, isxdigit c = true
      · exact ⟨query.length + 1, true, validate_of_short hall (by omega) (by omega),
          iff_of_true rfl hall⟩
      · obtain ⟨c, hc, hdigit⟩ := not_forall₂.mp hall
        refine hbad c ?_ (Bool.eq_false_iff.mpr hdigit)
        rwa [List.take_of_length_le (by omega)]
    · exact hbad c hc hdigit
  have hlong : ¬ (query.length ≤ 255 ∨ ∃ c ∈ query.take 256, isxdigit c = false) →
      ∀ fuel, validate fuel query = none := by
    intro h fuel
    obtain ⟨hlen, hno⟩ := not_or.mp h
    refine validate_eq_none (by omega) (fun c hc => ?_) fuel
    exact Bool.not_eq_false _ ▸ fun hdigit => hno ⟨c, hc, hdigit⟩
  refine ⟨⟨fun h => ?_, hends⟩, fun h => hlong fun hcond => h (hends hcond)⟩
  by_contra hcond
  obtain ⟨fuel, answer, hanswer, -⟩ := h
  exact absurd ((hlong hcond fuel).symm.trans hanswer) (by simp)

/-- 256 zeros are hexadecimal digits, and the loop that reads them never ends. -/
theorem not_validates_zeros : ¬ Validates (List.replicate 256 48) := by
  have hzero : isxdigit 48 = true := by decide
  have hhex : ∀ c ∈ (List.replicate 256 (48 : UInt8)).take 256, isxdigit c = true := by
    intro c hc
    rw [List.eq_of_mem_replicate (List.mem_of_mem_take hc), hzero]
  rintro ⟨fuel, answer, hanswer, -⟩
  rw [validate_eq_none (by rw [List.length_replicate]) hhex fuel] at hanswer
  exact absurd hanswer (by simp)

/-! ### Keys -/

/-- `X'hex'::bigint`: four bits a digit, zero-extended to 64 bits, read as two's
complement. -/
def bitStringBigint (hex : Bytes) : Option Int64 :=
  if hex.length * 4 ≤ 64 ∧ hex.all isxdigit then
    some (UInt64.ofNat (Numeral.value 16 hex)).toInt64
  else none

/-- The text is an `INSERT` whose first value is the key. -/
def InsertsKey (text : Bytes) (key : Int64) : Prop :=
  ∃ hex rest, lex text = some (insertHead ++ bigintLiteral hex ++ .symbol 44 :: rest) ∧
    bitStringBigint hex = some key

/-- The text is the `UPDATE` of the row with the key. -/
def SelectsKey (text : Bytes) (key : Int64) : Prop :=
  ∃ hex, lex text = some (updateHead ++ bigintLiteral hex ++ updateTail) ∧
    bitStringBigint hex = some key

/-- **The printed id denotes its two's complement.** -/
theorem bitStringBigint_hexText (id : UInt64) :
    bitStringBigint (hexText id) = some id.toInt64 := by
  have hlen := length_hexText_le id
  have hall : (hexText id).all isxdigit = true :=
    List.all_eq_true.mpr fun _ hc => isxdigit_of_mem_hexText hc
  rw [bitStringBigint, if_pos ⟨by omega, hall⟩, hexText,
    Numeral.value_text (by omega) (by omega), UInt64.ofNat_toNat]

/-- **The key of the `INSERT`.** Whatever the phrase, if the statement has tokens at all
then the id's two's complement is its key, and no other number is. -/
theorem insertsKey_iff (id : UInt64) {phrase : Bytes} (h0 : 0 ∉ phrase) (key : Int64) :
    InsertsKey (insertQuery id phrase) key ↔
      (lex (insertQuery id phrase)).isSome ∧ key = id.toInt64 := by
  constructor
  · rintro ⟨hex, rest, hlex, hkey⟩
    refine ⟨by rw [hlex]; rfl, ?_⟩
    rw [lex_insertQuery id h0] at hlex
    obtain ⟨tokens, -, heq⟩ := Option.map_eq_some_iff.mp hlex
    rw [List.append_assoc, List.append_assoc, List.append_cancel_left_eq] at heq
    obtain ⟨hliteral, -⟩ := List.cons.inj heq
    rw [← (Token.quoted.inj hliteral).2, bitStringBigint_hexText] at hkey
    exact (Option.some.inj hkey).symm
  · rintro ⟨hsome, rfl⟩
    rw [lex_insertQuery id h0, Option.isSome_map] at hsome
    obtain ⟨tokens, htokens⟩ := Option.isSome_iff_exists.mp hsome
    refine ⟨hexText id, tokens, ?_, bitStringBigint_hexText id⟩
    rw [lex_insertQuery id h0, htokens]
    rfl

/-- The `INSERT` of a phrase without quotes has the id's two's complement as its key. -/
theorem insertsKey_of_quoteless (id : UInt64) {phrase : Bytes} (h0 : 0 ∉ phrase)
    (hquote : 39 ∉ phrase) : InsertsKey (insertQuery id phrase) id.toInt64 := by
  refine (insertsKey_iff id h0 _).mpr ⟨?_, rfl⟩
  obtain ⟨value, -, hlex⟩ := (insertsExactly_iff id h0).mpr hquote
  rw [hlex]
  rfl

/-- **The key of the `UPDATE`** for a printed id. -/
theorem selectsKey_iff (id : UInt64) (key : Int64) :
    SelectsKey (updateQuery (hexText id)) key ↔ key = id.toInt64 := by
  have hlex := lex_updateQuery (zero_notMem_hexText id) (quote_notMem_hexText id)
  constructor
  · rintro ⟨hex, hlex', hkey⟩
    rw [hlex'] at hlex
    have heq := Option.some.inj hlex
    rw [List.append_assoc, List.append_assoc, List.append_cancel_left_eq] at heq
    obtain ⟨hliteral, -⟩ := List.cons.inj heq
    rw [(Token.quoted.inj hliteral).2, bitStringBigint_hexText] at hkey
    exact (Option.some.inj hkey).symm
  · rintro rfl
    exact ⟨hexText id, hlex, bitStringBigint_hexText id⟩

/-- Different ids are different keys. -/
theorem toInt64_injective : Function.Injective UInt64.toInt64 := by
  intro a b h
  have := congrArg Int64.toUInt64 h
  simpa using this

/-! ### Reading an `INSERT` -/

/-- The tokens of an `INSERT` of two literals. -/
def insertTokens (hex phrase : Bytes) : List Token :=
  insertHead ++ bigintLiteral hex ++ [.symbol 44, .quoted [] phrase, .symbol 41, .symbol 59]

/-- The key and the phrase of the row that a text stores, if it is one `INSERT` of two
literals. The two literals are taken from where they have to be, and the text has to be the
`INSERT` of them. -/
def readInsert (text : Bytes) : Option (Int64 × Bytes) :=
  (lex text).bind fun tokens =>
    match tokens.drop insertHead.length with
    | .quoted _ hex :: _ :: _ :: _ :: _ :: .quoted _ phrase :: _ =>
        if tokens = insertTokens hex phrase then (bitStringBigint hex).map (·, phrase) else none
    | _ => none

/-- What it means to be read as an `INSERT`. -/
theorem readInsert_eq_some_iff {text : Bytes} {key : Int64} {phrase : Bytes} :
    readInsert text = some (key, phrase) ↔
      ∃ hex, lex text = some (insertTokens hex phrase) ∧ bitStringBigint hex = some key := by
  constructor
  · intro h
    obtain ⟨tokens, hlex, hread⟩ := Option.bind_eq_some_iff.mp h
    split at hread
    · next _ hex _ _ _ _ _ phrase' _ _ =>
        split_ifs at hread with htokens
        obtain ⟨key', hkey, heq⟩ := Option.map_eq_some_iff.mp hread
        obtain ⟨rfl, rfl⟩ := Prod.mk.inj heq
        exact ⟨hex, by rw [hlex, htokens], hkey⟩
    · cases hread
  · rintro ⟨hex, hlex, hkey⟩
    have hdrop : (insertTokens hex phrase).drop insertHead.length =
        bigintLiteral hex ++ [.symbol 44, .quoted [] phrase, .symbol 41, .symbol 59] := by
      rw [insertTokens, List.append_assoc, List.drop_left]
    rw [readInsert, hlex, Option.bind_some, hdrop]
    simp only [bigintLiteral, List.cons_append, List.nil_append, if_true, hkey, Option.map_some]

/-- A text that is read as an `INSERT` inserts exactly one phrase, under one key. -/
theorem inserts_of_readInsert {text : Bytes} {key : Int64} {phrase : Bytes}
    (h : readInsert text = some (key, phrase)) :
    InsertsKey text key ∧ InsertsExactly text phrase := by
  obtain ⟨hex, hlex, hkey⟩ := readInsert_eq_some_iff.mp h
  refine ⟨⟨hex, [.quoted [] phrase, .symbol 41, .symbol 59], hlex, hkey⟩, bigintLiteral hex, ?_,
    hlex⟩
  simp [bigintLiteral, separators]

/-- **The row of a phrase without quotes**: its own, under the id's two's complement. -/
theorem readInsert_insertQuery (id : UInt64) {phrase : Bytes} (h0 : 0 ∉ phrase)
    (hquote : 39 ∉ phrase) : readInsert (insertQuery id phrase) = some (id.toInt64, phrase) := by
  have htail : lex (ascii ");") = some [.symbol 41, .symbol 59] := rfl
  have hvalue := (embedded_iff [] htail rfl (by decide)).mpr hquote
  refine readInsert_eq_some_iff.mpr ⟨hexText id, ?_, bitStringBigint_hexText id⟩
  rw [lex_insertQuery id h0, hvalue]
  rfl

/-- **A phrase with quotes is not stored as it is**: if its statement is one `INSERT` at all,
then it is that of another phrase. -/
theorem readInsert_ne (id : UInt64) {phrase : Bytes} (h0 : 0 ∉ phrase) (hquote : 39 ∈ phrase)
    {key : Int64} {stored : Bytes} (h : readInsert (insertQuery id phrase) = some (key, stored)) :
    stored ≠ phrase := by
  rintro rfl
  exact (insertsExactly_iff id h0).mp (inserts_of_readInsert h).2 hquote

/-- A doubled quote is stored as one, and a quote can end the `INSERT`. -/
example :
    readInsert (insertQuery 7 (ascii "it''s")) = some (7, ascii "it's") ∧
      readInsert (insertQuery 7 (ascii "x'); DELETE FROM Generated; --")) = none := by
  decide +kernel

/-! ### The table of stored phrases -/

/-- The table `Generated`: `id` is its primary key. -/
structure Generated where
  rows : List (Int64 × Bytes)
  nodup : (rows.map Prod.fst).Nodup

namespace Generated

/-- An `INSERT`: `none` when the key is already there. -/
def insert (g : Generated) (key : Int64) (phrase : Bytes) : Option Generated :=
  if h : key ∈ g.rows.map Prod.fst then none
  else
    some
      { rows := g.rows ++ [(key, phrase)]
        nodup := by
          rw [List.map_append, List.nodup_append]
          refine ⟨g.nodup, List.nodup_singleton _, ?_⟩
          rintro k hk k' hk' rfl
          have hkey : k = key := List.mem_singleton.mp hk'
          exact h (hkey ▸ hk) }

/-- `UPDATE .. WHERE id = key RETURNING phrase`. -/
def updateReturning (g : Generated) (key : Int64) : List Bytes :=
  (g.rows.filter fun row => row.1 = key).map Prod.snd

/-- Insert one phrase after another under the keys of their ids. -/
def insertAll : Generated → List (UInt64 × Bytes) → Option Generated
  | g, [] => some g
  | g, (id, phrase) :: stored => (g.insert id.toInt64 phrase).bind (·.insertAll stored)

/-- An `INSERT` that succeeds has a new key, and its row comes last. -/
theorem insert_eq_some {g g' : Generated} {key : Int64} {phrase : Bytes}
    (h : g.insert key phrase = some g') :
    key ∉ g.rows.map Prod.fst ∧ g'.rows = g.rows ++ [(key, phrase)] := by
  rw [insert] at h
  split_ifs at h with hmem
  obtain rfl := Option.some.inj h
  exact ⟨hmem, rfl⟩

/-- A key that is not in the table selects nothing. -/
theorem updateReturning_of_notMem {g : Generated} {key : Int64}
    (h : key ∉ g.rows.map Prod.fst) : g.updateReturning key = [] := by
  rw [updateReturning, List.map_eq_nil_iff, List.filter_eq_nil_iff]
  rintro row hrow hkey
  exact h (of_decide_eq_true hkey ▸ List.mem_map_of_mem (f := Prod.fst) hrow)

/-- A new row is selected by its key, after what the key selected before. -/
theorem updateReturning_of_rows {g g' : Generated} {row : Int64 × Bytes}
    (h : g'.rows = g.rows ++ [row]) (key : Int64) :
    g'.updateReturning key = g.updateReturning key ++ if row.1 = key then [row.2] else [] := by
  rw [updateReturning, updateReturning, h, List.filter_append, List.map_append,
    List.append_cancel_left_eq]
  by_cases hkey : row.1 = key
  · simp [hkey]
  · simp [hkey]

/-- A row of the table is the only one its key selects. -/
theorem updateReturning_of_mem {g : Generated} {key : Int64} {phrase : Bytes}
    (h : (key, phrase) ∈ g.rows) : g.updateReturning key = [phrase] := by
  obtain ⟨rows, hnodup⟩ := g
  induction rows with
  | nil => exact absurd h List.not_mem_nil
  | cons row rows ih =>
      rw [List.map_cons, List.nodup_cons] at hnodup
      have ih' := ih hnodup.2
      simp only [updateReturning] at ih' ⊢
      rcases List.mem_cons.mp h with rfl | hmem
      · have hnone : rows.filter (fun row => row.1 = key) = [] := by
          rw [List.filter_eq_nil_iff]
          intro row hrow he
          have hkey := List.mem_map_of_mem (f := Prod.fst) hrow
          rw [of_decide_eq_true he] at hkey
          exact hnodup.1 hkey
        rw [List.filter_cons_of_pos (by simp), hnone]
        rfl
      · have hne : row.1 ≠ key := fun he =>
          hnodup.1 (he ▸ List.mem_map_of_mem (f := Prod.fst) hmem)
        rw [List.filter_cons_of_neg (by simpa using hne)]
        exact ih' hmem

/-- Later inserts keep the rows there are. -/
theorem mem_insertAll {g g' : Generated} {stored : List (UInt64 × Bytes)}
    (h : g.insertAll stored = some g') {row : Int64 × Bytes} (hrow : row ∈ g.rows) :
    row ∈ g'.rows := by
  induction stored generalizing g with
  | nil => exact Option.some.inj h ▸ hrow
  | cons p stored ih =>
      obtain ⟨g₁, hinsert, hall⟩ := Option.bind_eq_some_iff.mp h
      refine ih hall ?_
      rw [(insert_eq_some hinsert).2]
      exact List.mem_append_left _ hrow

/-- Every phrase that was stored is in the table under the key of its id. -/
theorem stored_mem {g g' : Generated} {stored : List (UInt64 × Bytes)}
    (h : g.insertAll stored = some g') {id : UInt64} {phrase : Bytes}
    (hmem : (id, phrase) ∈ stored) : (id.toInt64, phrase) ∈ g'.rows := by
  induction stored generalizing g with
  | nil => exact absurd hmem List.not_mem_nil
  | cons p stored ih =>
      obtain ⟨g₁, hinsert, hall⟩ := Option.bind_eq_some_iff.mp h
      rcases List.mem_cons.mp hmem with rfl | hrest
      · refine mem_insertAll hall ?_
        rw [(insert_eq_some hinsert).2]
        exact List.mem_append_right _ (List.mem_singleton.mpr rfl)
      · exact ih hall hrest

end Generated

/-! ### The three uses of an id -/

/-- **A link selects exactly the row created for it.** The text of the link passes the
validation, whose loop ends on it; the `UPDATE` made of it has the id's two's complement
as its key and so has the `INSERT` of any phrase whose statement can be read, which that of a
phrase without quotes is; different ids have different keys; and after any sequence of inserts
that succeeds, the key of a stored id returns exactly the phrase stored under it. -/
theorem link_selects_row (b : Build) (id : UInt64) :
    (∃ fuel, validate fuel (queryString (permalink b id)) = some true) ∧
    (∀ key, SelectsKey (updateQuery (queryString (permalink b id))) key ↔ key = id.toInt64) ∧
    (∀ phrase : Bytes, 0 ∉ phrase → ∀ key, InsertsKey (insertQuery id phrase) key ↔
      (lex (insertQuery id phrase)).isSome ∧ key = id.toInt64) ∧
    (∀ phrase : Bytes, 0 ∉ phrase → 39 ∉ phrase →
      InsertsKey (insertQuery id phrase) id.toInt64) ∧
    (∀ id' : UInt64, id'.toInt64 = id.toInt64 → id' = id) ∧
    ∀ (g g' : Generated) (stored : List (UInt64 × Bytes)), g.insertAll stored = some g' →
      ∀ phrase, (id, phrase) ∈ stored → g'.updateReturning id.toInt64 = [phrase] := by
  refine ⟨validate_permalink b id, ?_, fun phrase h0 key => insertsKey_iff id h0 key,
    fun phrase h0 hquote => insertsKey_of_quoteless id h0 hquote,
    fun id' h => toInt64_injective h, fun g g' stored h phrase hmem => ?_⟩
  · rw [queryString_permalink]
    exact selectsKey_iff id
  · exact Generated.updateReturning_of_mem (Generated.stored_mem h hmem)

end Yogigen
