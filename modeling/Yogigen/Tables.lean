import Yogigen.Yogidb

/-!
# The Loaded State

`Expression`, `Format_String` and `YogiGen` as the program holds them in memory, and the
readers that fill them from query results. Numbers arrive as decimal text and are cast to
the width of their field; tables have at most 65535 entries, because their counts are
`uint16_t`, and a result set of more rows is read up to its count modulo 65536.

## Main results

* `readFrmt_eq`: what the readers make of a row of `Format_String`.
* `Loads`: which states a database can be loaded into.
-/

open Printf

namespace Yogigen

/-- `VERB`, `ADJECTIVE`, `CONCEPT` and `OBJECT`. -/
inductive ExprType
  | verb
  | adjective
  | concept
  | object
  deriving DecidableEq

/-- `struct expression`. -/
structure Expression where
  type : UInt8
  flags : UInt8
  field1 : Bytes
  field2 : Bytes
  deriving DecidableEq

/-- `A_OFLAG_AN`. -/
def aOflagAn : UInt8 := 1
/-- `VFLAG_NPOSTP_ALL_OK`. -/
def vflagNpostpAllOk : UInt8 := 2
/-- `VFLAG_NPOSTP_OBJ_OK`. -/
def vflagNpostpObjOk : UInt8 := 3

/-- `struct format_str`. -/
structure FormatString where
  str : Bytes
  data : UInt64
  count : UInt8
  deriving DecidableEq

/-- An array with a `uint16_t` count. -/
structure Table (α : Type) where
  entries : List α
  small : entries.length < 65536
  deriving DecidableEq

namespace Table

variable {α : Type}

/-- The count of a table. -/
def count (t : Table α) : UInt16 :=
  UInt16.ofNat t.entries.length

/-- The count is that of the entries. -/
@[simp] theorem toNat_count (t : Table α) : t.count.toNat = t.entries.length := by
  rw [count, UInt16.toNat_ofNat', Nat.mod_eq_of_lt t.small]

/-- It is zero for the empty table. -/
theorem count_eq_zero_iff (t : Table α) : t.count = 0 ↔ t.entries = [] := by
  rw [← UInt16.toNat_inj, toNat_count]
  exact List.length_eq_zero_iff

/-- Replace one entry. -/
def set (t : Table α) (i : ℕ) (a : α) : Table α where
  entries := t.entries.set i a
  small := by
    rw [List.length_set]
    exact t.small

/-- What is read of a result set: its count is cast to `uint16_t`. -/
def ofRows (rows : List α) : Table α where
  entries := rows.take (rows.length % 65536)
  small := by
    rw [List.length_take]
    omega

end Table

/-- `struct yogigen`. -/
structure YogiGen where
  verbs : Table Expression
  adjs : Table Expression
  cepts : Table Expression
  objs : Table Expression
  formats : Table FormatString
  conn : Connection
  deriving DecidableEq

namespace YogiGen

/-- The table of an expression type. -/
def table (y : YogiGen) : ExprType → Table Expression
  | .verb => y.verbs
  | .adjective => y.adjs
  | .concept => y.cepts
  | .object => y.objs

/-- Replace the table of an expression type. -/
def setTable (y : YogiGen) (t : Table Expression) : ExprType → YogiGen
  | .verb => { y with verbs := t }
  | .adjective => { y with adjs := t }
  | .concept => { y with cepts := t }
  | .object => { y with objs := t }

end YogiGen

/-! ### Loading -/

/-- A row of `Expression`. -/
structure ExpressionRow where
  field1 : Bytes
  field2 : Bytes
  type : Int32
  flags : Int32

/-- A row of `Format_String`. -/
structure FormatRow where
  str : Bytes
  data : Int64
  count : Int32

/-- The tables the program loads. -/
structure Database where
  expressions : List ExpressionRow
  formats : List FormatRow

/-- `(uint8_t) atoi (text)`. -/
def atoiU8 (text : Bytes) : UInt8 :=
  UInt8.ofInt (Numeral.readInt text)

/-- `(uint64_t) atol (text)`. -/
def atolU64 (text : Bytes) : UInt64 :=
  (Int64.ofInt (Numeral.readInt text)).toUInt64

/-- One iteration of `read_expr_result_set`; integer columns are delivered as text. -/
def readExpr (row : ExpressionRow) : Expression where
  type := atoiU8 (Numeral.intText row.type.toInt)
  flags := atoiU8 (Numeral.intText row.flags.toInt)
  field1 := bfromcstr row.field1
  field2 := bfromcstr row.field2

/-- One iteration of `read_frmt_result_set`. -/
def readFrmt (row : FormatRow) : FormatString where
  str := bfromcstr row.str
  data := atolU64 (Numeral.intText row.data.toInt)
  count := atoiU8 (Numeral.intText row.count.toInt)

/-- The number that is printed is read back. -/
theorem atolU64_intText (n : Int64) : atolU64 (Numeral.intText n.toInt) = n.toUInt64 := by
  rw [atolU64, Numeral.readInt_intText, Int64.ofInt_toInt]

/-- So is a count, modulo 256. -/
theorem atoiU8_intText (n : Int32) : atoiU8 (Numeral.intText n.toInt) = UInt8.ofInt n.toInt := by
  rw [atoiU8, Numeral.readInt_intText]

/-- **What is read of a format row.** -/
theorem readFrmt_eq (row : FormatRow) :
    readFrmt row = ⟨bfromcstr row.str, row.data.toUInt64, UInt8.ofInt row.count.toInt⟩ := by
  rw [readFrmt, atolU64_intText, atoiU8_intText]

/-- The column value of an expression type. -/
def ExprType.code : ExprType → Int32
  | .verb => 0
  | .adjective => 1
  | .concept => 2
  | .object => 3

/-- The state after `YogiGen_fetch_all`, when the database does not change meanwhile. The
expressions of a type come ordered by their flags, rows with equal flags in any order;
the formats come in any order. -/
structure Loads (db : Database) (y : YogiGen) : Prop where
  expressions : ∀ type, ∃ rows : List ExpressionRow,
    rows.Perm (db.expressions.filter (·.type = type.code)) ∧
      rows.Pairwise (·.flags ≤ ·.flags) ∧ y.table type = .ofRows (rows.map readExpr)
  formats : ∃ rows : List FormatRow, rows.Perm db.formats ∧
    y.formats = .ofRows (rows.map readFrmt)

end Yogigen
