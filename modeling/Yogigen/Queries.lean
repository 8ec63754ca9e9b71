import Yogigen.Bstring
import Yogigen.SqlText

/-!
# The Statements of the Program

The SQL templates of `yogidb.h`, the statements `YogiGen_insert_into_db` and
`YogiGen_get_by_id` format from them, and what these statements say when they are read
as SQL. Nothing is escaped on the way into a template.

## Main results

* `lex_insertQuery`: everything in front of the phrase is read as intended, whatever the
  phrase is.
* `insertsExactly_iff`: the statement is one `INSERT` of exactly the phrase if and only if
  the phrase has no single quote.
* `lex_updateQuery`: a hexadecimal id is read back from the `UPDATE`.
-/

open Printf SqlText

namespace Yogigen

/-- `UINT64_MAX`, the id reserved for errors. -/
def errorId : UInt64 := 0xFFFFFFFFFFFFFFFF

/-! ### Templates -/

/-- `GEN_SQL_INSERT_TEMPLATE`. -/
def genSqlInsertTemplate : Bytes :=
  ascii "INSERT INTO Generated (id, phrase) VALUES (X'%lx'::bigint, '%s');"

/-- `GEN_SQL_UPDATE_RETURN_TEMPLATE`. -/
def genSqlUpdateReturnTemplate : Bytes :=
  ascii "UPDATE Generated SET last_access=CURRENT_TIMESTAMP WHERE id=X'%s'::bigint RETURNING phrase;"

/-- The statement `YogiGen_insert_into_db` sends. -/
def insertQuery (id : UInt64) (genStr : Bytes) : Bytes :=
  format genSqlInsertTemplate [.ulong id, .str genStr]

/-- The statement `YogiGen_get_by_id` sends. -/
def updateQuery (idStr : Bytes) : Bytes :=
  format genSqlUpdateReturnTemplate [.str idStr]

/-- What `%lx` prints. -/
def hexText (id : UInt64) : Bytes :=
  Numeral.text 16 id.toNat

/-! ### Their tokens -/

/-- `INSERT INTO Generated (id, phrase) VALUES (`. -/
def insertHead : List Token :=
  [.word (ascii "INSERT"), .word (ascii "INTO"), .word (ascii "Generated"), .symbol 40,
    .word (ascii "id"), .symbol 44, .word (ascii "phrase"), .symbol 41, .word (ascii "VALUES"),
    .symbol 40]

/-- `UPDATE Generated SET last_access=CURRENT_TIMESTAMP WHERE id=`. -/
def updateHead : List Token :=
  [.word (ascii "UPDATE"), .word (ascii "Generated"), .word (ascii "SET"),
    .word (ascii "last_access"), .symbol 61, .word (ascii "CURRENT_TIMESTAMP"),
    .word (ascii "WHERE"), .word (ascii "id"), .symbol 61]

/-- ` RETURNING phrase;`. -/
def updateTail : List Token :=
  [.word (ascii "RETURNING"), .word (ascii "phrase"), .symbol 59]

/-- `X'hex'::bigint`. -/
def bigintLiteral (hex : Bytes) : List Token :=
  [.quoted (ascii "X") hex, .symbol 58, .symbol 58, .word (ascii "bigint")]

/-- Parentheses, commas and semicolons, which separate values and statements. -/
def separators : List Token :=
  [.symbol 40, .symbol 41, .symbol 44, .symbol 59]

/-- The text is one `INSERT` statement with two values, the second of them a string literal
that denotes exactly `phrase`. -/
def InsertsExactly (text phrase : Bytes) : Prop :=
  ∃ value : List Token, (∀ token ∈ value, token ∉ separators) ∧
    lex text =
      some (insertHead ++ value ++ [.symbol 44, .quoted [] phrase, .symbol 41, .symbol 59])

/-- An id in hexadecimal has no quote. -/
theorem quote_notMem_hexText (id : UInt64) : 39 ∉ hexText id := by
  intro h
  exact absurd (Numeral.isHexDigit_of_mem_text h) (by decide)

/-- And no NUL. -/
theorem zero_notMem_hexText (id : UInt64) : 0 ∉ hexText id := by
  intro h
  exact absurd (Numeral.isHexDigit_of_mem_text h) (by decide)

/-- The `INSERT` in full. -/
theorem insertQuery_eq (id : UInt64) {phrase : Bytes} (h0 : 0 ∉ phrase) :
    insertQuery id phrase =
      ascii "INSERT INTO Generated (id, phrase) VALUES (X'" ++
        (hexText id ++ (ascii "'::bigint, '" ++ (phrase ++ 39 :: ascii ");"))) := by
  have h : insertQuery id phrase =
      ascii "INSERT INTO Generated (id, phrase) VALUES (X'" ++
        (hexText id ++ (ascii "'::bigint, '" ++ (cstr phrase ++ 39 :: ascii ");"))) := rfl
  rw [h, cstr_eq_self h0]

/-- The `UPDATE` in full. -/
theorem updateQuery_eq {idStr : Bytes} (h0 : 0 ∉ idStr) :
    updateQuery idStr =
      ascii "UPDATE Generated SET last_access=CURRENT_TIMESTAMP WHERE id=X'" ++
        (idStr ++ 39 :: ascii "::bigint RETURNING phrase;") := by
  have h : updateQuery idStr =
      ascii "UPDATE Generated SET last_access=CURRENT_TIMESTAMP WHERE id=X'" ++
        (cstr idStr ++ 39 :: ascii "::bigint RETURNING phrase;") := rfl
  rw [h, cstr_eq_self h0]

/-- **The part of the `INSERT` before the phrase** is read as intended; the phrase is read
from inside a literal. -/
theorem lex_insertQuery (id : UInt64) {phrase : Bytes} (h0 : 0 ∉ phrase) :
    lex (insertQuery id phrase) =
      (lexFrom (.literal [] []) (phrase ++ 39 :: ascii ");")).map
        (fun tokens => insertHead ++ bigintLiteral (hexText id) ++ .symbol 44 :: tokens) := by
  have hhead : scan .between (ascii "INSERT INTO Generated (id, phrase) VALUES (X'") =
      (insertHead, .literal (ascii "X") []) := rfl
  have hhex : scan (.literal (ascii "X") []) (hexText id) =
      ([], .literal (ascii "X") (hexText id)) := by
    have h := scan_escape (ascii "X") [] (hexText id)
    rwa [escape_eq_self (quote_notMem_hexText id)] at h
  have hmid : scan (.literal (ascii "X") (hexText id)) (ascii "'::bigint, '") =
      (bigintLiteral (hexText id) ++ [.symbol 44], .literal [] []) := rfl
  rw [insertQuery_eq id h0, lex, lexFrom_append, hhead, lexFrom_append, hhex, lexFrom_append,
    hmid]
  simp only [Option.map_map]
  rfl

/-- **An id without quotes is read back from the `UPDATE`.** -/
theorem lex_updateQuery {idStr : Bytes} (h0 : 0 ∉ idStr) (hq : 39 ∉ idStr) :
    lex (updateQuery idStr) = some (updateHead ++ bigintLiteral idStr ++ updateTail) := by
  have hhead : scan .between
      (ascii "UPDATE Generated SET last_access=CURRENT_TIMESTAMP WHERE id=X'") =
      (updateHead, .literal (ascii "X") []) := by decide +kernel
  have htail : lex (ascii "::bigint RETURNING phrase;") =
      some ([.symbol 58, .symbol 58, .word (ascii "bigint")] ++ updateTail) := rfl
  have hcolon : (ascii "::bigint RETURNING phrase;").head? ≠ some 39 := by
    rw [show (ascii "::bigint RETURNING phrase;").head? = some 58 from rfl]
    decide
  rw [updateQuery_eq h0, lex, lexFrom_append, hhead, lexFrom_embedded hq hcolon, htail]
  rfl

/-! ### When the phrase is inserted as it is -/

/-- **Exactly the phrase.** Whatever the id, the statement is one `INSERT` whose second
value is a literal denoting the phrase if and only if no byte of the phrase is a quote. -/
theorem insertsExactly_iff (id : UInt64) {phrase : Bytes} (h0 : 0 ∉ phrase) :
    InsertsExactly (insertQuery id phrase) phrase ↔ 39 ∉ phrase := by
  have htail : lex (ascii ");") = some [.symbol 41, .symbol 59] := rfl
  rw [← embedded_iff [] htail rfl (by decide)]
  constructor
  · rintro ⟨value, hvalue, hlex⟩
    rw [lex_insertQuery id h0] at hlex
    obtain ⟨tokens, htokens, heq⟩ := Option.map_eq_some_iff.mp hlex
    rw [List.append_assoc, List.append_assoc, List.append_cancel_left_eq] at heq
    have hcomma : (.symbol 44 : Token) ∉ value := fun h => hvalue _ h (by decide)
    have hrest : (.symbol 44 : Token) ∉ [.quoted [] phrase, .symbol 41, .symbol 59] := by simp
    have hsplit := (List.append_cons_inj_of_notMem hcomma hrest).mp heq.symm
    rw [htokens, hsplit.2.2]
  · intro h
    refine ⟨bigintLiteral (hexText id), ?_, ?_⟩
    · simp [bigintLiteral, separators]
    · rw [lex_insertQuery id h0, h, Option.map_some]

end Yogigen
