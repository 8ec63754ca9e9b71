import Yogigen.Selection

/-!
# Loading the Tables

`YogiGen_init` counts the rows of the tables and allocates an array for each count;
`YogiGen_fetch_all` selects the rows later and writes as many of them as the result set
says. Counts and numbers of rows are cast to `uint16_t`. Each statement sees the contents
of its own moment, so nothing makes the two numbers agree.

## Main results

* `Loader.fill_zero`: what filling an array from its start does.
* `fetchTypes_cases`: what `fetch_expressions` leaves, whether it fails or not.
* `fetchedAll_of_ok`: what has been written when `YogiGen_fetch_all` succeeds.
* `loadsSafely_iff`: exactly when loading stays within the arrays and fills them.
* `loads_of_fetchAll`: what is loaded if nothing changes meanwhile.
-/

/-! ### Filling arrays -/

namespace Loader

variable {α ε : Type}

/-- Write values into consecutive cells of an array, which are `none` until then. A cell
outside the array is an error. -/
def fill (err : ε) : List (Option α) → ℕ → List α → Except ε (List (Option α))
  | arr, _, [] => .ok arr
  | arr, i, a :: as =>
      if i < arr.length then fill err (arr.set i (some a)) (i + 1) as else .error err

/-- What fits is written. -/
theorem fill_of_le {err : ε} {arr : List (Option α)} {i : ℕ} {as : List α}
    (h : i + as.length ≤ arr.length) :
    fill err arr i as = .ok (arr.take i ++ as.map some ++ arr.drop (i + as.length)) := by
  induction as generalizing arr i with
  | nil => simp [fill]
  | cons a as ih =>
      rw [List.length_cons] at h
      have hi : i < arr.length := by omega
      rw [fill, if_pos hi, ih (by rw [List.length_set]; omega)]
      have htake : (arr.set i (some a)).take (i + 1) = arr.take i ++ [some a] := by
        rw [List.take_succ_eq_append_getElem (by rwa [List.length_set]), List.take_set,
          List.getElem_set_self, List.set_eq_of_length_le (by simp)]
      have hdrop : (arr.set i (some a)).drop (i + 1 + as.length) =
          arr.drop (i + (as.length + 1)) := by
        rw [List.drop_set_of_lt (by omega), Nat.add_right_comm, Nat.add_assoc]
      rw [htake, hdrop, List.length_cons, List.map_cons]
      simp only [List.append_assoc, List.singleton_append]

/-- What does not fit is an error. -/
theorem fill_of_lt {err : ε} {arr : List (Option α)} {i : ℕ} {as : List α} (hi : i ≤ arr.length)
    (h : arr.length < i + as.length) : fill err arr i as = .error err := by
  induction as generalizing arr i with
  | nil =>
      rw [List.length_nil] at h
      omega
  | cons a as ih =>
      rw [List.length_cons] at h
      rw [fill]
      split_ifs with hlt
      · exact ih (by rw [List.length_set]; omega) (by rw [List.length_set]; omega)
      · rfl

/-- **Filling from the start** writes all the values, or leaves the array. -/
theorem fill_zero (err : ε) (arr : List (Option α)) (as : List α) :
    fill err arr 0 as = if as.length ≤ arr.length then .ok (as.map some ++ arr.drop as.length)
      else .error err := by
  split_ifs with h
  · rw [fill_of_le (by omega)]
    simp
  · exact fill_of_lt (Nat.zero_le _) (by omega)

end Loader

open Loader

namespace Yogigen

/-! ### The database -/

/-- The rows of an expression type. -/
def Database.rows (db : Database) (type : ExprType) : List ExpressionRow :=
  db.expressions.filter (·.type = type.code)

/-- The contents the statements of a load see. -/
structure Snapshots where
  countExpr : Database
  countFrmt : Database
  selectExpr : ExprType → Database
  selectFrmt : Database

/-- The result sets of the select statements; a statement that failed has none. -/
structure Answers where
  expr : ExprType → Option (List ExpressionRow)
  frmt : Option (List FormatRow)

/-- Result sets that a database can answer with: expressions come ordered by their flags,
formats in any order. -/
structure Answers.Of (a : Answers) (snap : Snapshots) : Prop where
  expr : ∀ type rows, a.expr type = some rows →
    rows.Perm ((snap.selectExpr type).rows type) ∧ rows.Pairwise (·.flags ≤ ·.flags)
  frmt : ∀ rows, a.frmt = some rows → rows.Perm snap.selectFrmt.formats

/-- The row that answers `SQL_EXPR_COUNT_PG`. -/
def Database.exprCounts (db : Database) : List Bytes :=
  [.verb, .adjective, .concept, .object].map fun type => Numeral.text 10 (db.rows type).length

/-- The row that answers `SQL_FRMT_COUNT_PG`. -/
def Database.frmtCount (db : Database) : List Bytes :=
  [Numeral.text 10 db.formats.length]

/-! ### The code -/

/-- `struct yogigen` while it is loaded: an entry is `none` until it has been written. -/
structure Loading where
  count : ExprType → UInt16
  formatsCount : UInt16
  array : ExprType → List (Option Expression)
  formats : List (Option FormatString)

/-- `(uint16_t) atoi (text)`. -/
def atoiU16 (text : Bytes) : UInt16 :=
  UInt16.ofInt (Numeral.readInt text)

/-- `read_count_result_set`, on the fields of the only row. -/
def readCountResultSet (y : Loading) (fields : List Bytes) : Loading :=
  let count := atoiU16 (fields.getD 0 [])
  if 1 < fields.length then
    { y with
      count := fun
        | .verb => count
        | .adjective => atoiU16 (fields.getD 1 [])
        | .concept => atoiU16 (fields.getD 2 [])
        | .object => atoiU16 (fields.getD 3 []) }
  else { y with formatsCount := count }

/-- `fetch_counts`; a statement that fails has no answer. -/
def fetchCounts (expr frmt : Option (List Bytes)) (y : Loading) : Bool × Loading :=
  match expr with
  | none => (false, y)
  | some fields =>
      let y := readCountResultSet y fields
      match frmt with
      | none => (false, y)
      | some fields => (true, readCountResultSet y fields)

/-- The arrays that `YogiGen_init` allocates. -/
def Loading.allocate (y : Loading) : Loading :=
  { y with
    array := fun type => List.replicate (y.count type).toNat none
    formats := List.replicate y.formatsCount.toNat none }

/-- `YogiGen_init`, on a fresh object with any contents. -/
def yogiGenInit (expr frmt : Option (List Bytes)) (y : Loading) : Option Loading :=
  match fetchCounts expr frmt y with
  | (false, _) => none
  | (true, y) => some y.allocate

/-- `read_expr_result_set`. -/
def readExprResultSet (arr : List (Option Expression)) (rows : List ExpressionRow) :
    Except Fault (List (Option Expression)) :=
  fill .outOfBounds arr 0 ((rows.take (UInt16.ofNat rows.length).toNat).map readExpr)

/-- `read_frmt_result_set`. -/
def readFrmtResultSet (arr : List (Option FormatString)) (rows : List FormatRow) :
    Except Fault (List (Option FormatString)) :=
  fill .outOfBounds arr 0 ((rows.take (UInt16.ofNat rows.length).toNat).map readFrmt)

/-- The loop of `fetch_expressions` over the types that are left. -/
def fetchTypes (a : ExprType → Option (List ExpressionRow)) :
    List ExprType → Loading → Except Fault (Bool × Loading)
  | [], y => .ok (true, y)
  | type :: types, y =>
      match a type with
      | none => .ok (false, y)
      | some rows =>
          match readExprResultSet (y.array type) rows with
          | .error e => .error e
          | .ok arr => fetchTypes a types { y with array := Function.update y.array type arr }

/-- `fetch_expressions`. -/
def fetchExpressions (a : Answers) (y : Loading) : Except Fault (Bool × Loading) :=
  fetchTypes a.expr [.verb, .adjective, .concept, .object] y

/-- `fetch_formats`. -/
def fetchFormats (a : Answers) (y : Loading) : Except Fault (Bool × Loading) :=
  match a.frmt with
  | none => .ok (false, y)
  | some rows =>
      match readFrmtResultSet y.formats rows with
      | .error e => .error e
      | .ok arr => .ok (true, { y with formats := arr })

/-- `YogiGen_fetch_all`. -/
def yogiGenFetchAll (a : Answers) (y : Loading) : Except Fault (Bool × Loading) :=
  match fetchExpressions a y with
  | .error e => .error e
  | .ok (false, y) => .ok (false, y)
  | .ok (true, y) => fetchFormats a y

/-! ### What is allocated -/

/-- Counts have sixteen bits. -/
theorem toNat_ofNat_mod (n : ℕ) : (UInt16.ofNat n).toNat = n % 65536 :=
  UInt16.toNat_ofNat'

/-- A count that went through text. -/
theorem toNat_atoiU16_text (n : ℕ) : (atoiU16 (Numeral.text 10 n)).toNat = n % 65536 := by
  rw [atoiU16, Numeral.readInt_text, UInt16.ofInt, UInt16.toNat_ofNat']
  omega

/-- **What `YogiGen_init` allocates**: an array of uninitialised entries for each count. -/
theorem yogiGenInit_eq (countExpr countFrmt : Database) (fresh : Loading) :
    ∃ y, yogiGenInit (some countExpr.exprCounts) (some countFrmt.frmtCount) fresh = some y ∧
      (∀ type, (y.count type).toNat = (countExpr.rows type).length % 65536) ∧
      y.formatsCount.toNat = countFrmt.formats.length % 65536 ∧
      (∀ type, y.array type = List.replicate (y.count type).toNat none) ∧
      y.formats = List.replicate y.formatsCount.toNat none := by
  refine ⟨_, rfl, fun type => ?_, toNat_atoiU16_text _, fun _ => rfl, rfl⟩
  cases type with
  | verb => exact toNat_atoiU16_text (countExpr.rows .verb).length
  | adjective => exact toNat_atoiU16_text (countExpr.rows .adjective).length
  | concept => exact toNat_atoiU16_text (countExpr.rows .concept).length
  | object => exact toNat_atoiU16_text (countExpr.rows .object).length

/-! ### What is written -/

/-- The rows of a result set that are read: as many as their number modulo 65536. -/
def readRows {α : Type} (rows : List α) : List α :=
  rows.take (UInt16.ofNat rows.length).toNat

/-- So many rows are read. -/
theorem length_readRows {α : Type} (rows : List α) :
    (readRows rows).length = rows.length % 65536 := by
  rw [readRows, List.length_take, toNat_ofNat_mod]
  omega

/-- **A result set of expressions** is written into its array, or outside of it. -/
theorem readExprResultSet_eq (arr : List (Option Expression)) (rows : List ExpressionRow) :
    readExprResultSet arr rows = if rows.length % 65536 ≤ arr.length then
      .ok (((readRows rows).map readExpr).map some ++ arr.drop (rows.length % 65536))
        else .error .outOfBounds := by
  have hlen : ((readRows rows).map readExpr).length = rows.length % 65536 := by
    rw [List.length_map, length_readRows]
  rw [← hlen]
  exact fill_zero ..

/-- The same for the formats. -/
theorem readFrmtResultSet_eq (arr : List (Option FormatString)) (rows : List FormatRow) :
    readFrmtResultSet arr rows = if rows.length % 65536 ≤ arr.length then
      .ok (((readRows rows).map readFrmt).map some ++ arr.drop (rows.length % 65536))
        else .error .outOfBounds := by
  have hlen : ((readRows rows).map readFrmt).length = rows.length % 65536 := by
    rw [List.length_map, length_readRows]
  rw [← hlen]
  exact fill_zero ..

/-- The loop of `fetch_expressions` stays within arrays that have room. -/
theorem fetchTypes_ok {a : ExprType → Option (List ExpressionRow)} {types : List ExprType}
    {y : Loading} (hnodup : types.Nodup)
    (hroom : ∀ type ∈ types, ∀ rows, a type = some rows →
      rows.length % 65536 ≤ (y.array type).length) : ∃ r, fetchTypes a types y = .ok r := by
  induction types generalizing y with
  | nil => exact ⟨_, rfl⟩
  | cons type types ih =>
      obtain ⟨hnot, hnodup⟩ := List.nodup_cons.mp hnodup
      obtain ⟨hhere, hrest⟩ := List.forall_mem_cons.mp hroom
      rw [fetchTypes]
      cases ha : a type with
      | none => exact ⟨_, rfl⟩
      | some rows =>
          dsimp only
          rw [readExprResultSet_eq, if_pos (hhere rows ha)]
          refine ih hnodup fun type' htype' rows' hrows' => ?_
          have hne : type' ≠ type := fun heq => hnot (heq ▸ htype')
          dsimp only
          rw [Function.update_of_ne hne]
          exact hrest type' htype' rows' hrows'

/-- What a successful run of the loop leaves: the rows of each type at the start of its
array, which had room for them, and everything else as it was. -/
structure Fetched (a : ExprType → Option (List ExpressionRow)) (types : List ExprType)
    (y y' : Loading) : Prop where
  count : y'.count = y.count
  formatsCount : y'.formatsCount = y.formatsCount
  formats : y'.formats = y.formats
  other : ∀ type ∉ types, y'.array type = y.array type
  array : ∀ type ∈ types, ∃ rows, a type = some rows ∧
    rows.length % 65536 ≤ (y.array type).length ∧
    y'.array type = ((readRows rows).map readExpr).map some ++
      (y.array type).drop (rows.length % 65536)

/-- **The loop of `fetch_expressions`** fills arrays up to the first statement that fails. -/
theorem fetchTypes_cases {a : ExprType → Option (List ExpressionRow)} {types : List ExprType}
    {y : Loading} {r : Bool × Loading} (hnodup : types.Nodup) (h : fetchTypes a types y = .ok r) :
    r.1 = types.all (fun type => (a type).isSome) ∧
      Fetched a (types.takeWhile fun type => (a type).isSome) y r.2 := by
  induction types generalizing y with
  | nil =>
      obtain rfl := Except.ok.inj h
      exact ⟨rfl, rfl, rfl, rfl, fun _ _ => rfl, fun _ hmem => absurd hmem (List.not_mem_nil)⟩
  | cons type types ih =>
      obtain ⟨hnot, hnodup⟩ := List.nodup_cons.mp hnodup
      rw [fetchTypes] at h
      cases ha : a type with
      | none =>
          simp only [ha] at h
          obtain rfl := Except.ok.inj h
          rw [List.all_cons, List.takeWhile_cons, ha]
          exact ⟨rfl, rfl, rfl, rfl, fun _ _ => rfl, fun _ hmem => absurd hmem (List.not_mem_nil)⟩
      | some rows =>
          simp only [ha, readExprResultSet_eq] at h
          split_ifs at h with hroom
          obtain ⟨hall, hcount, hfcount, hformats, hother, harray⟩ := ih hnodup h
          have hrest : type ∉ types.takeWhile fun type => (a type).isSome :=
            fun hmem => hnot (List.takeWhile_subset _ hmem)
          rw [List.all_cons, List.takeWhile_cons, ha, Option.isSome_some, Bool.true_and, if_pos rfl]
          refine ⟨hall, hcount, hfcount, hformats, fun type' htype' => ?_, fun type' htype' => ?_⟩
          · obtain ⟨hne, htype'⟩ := not_or.mp (mt List.mem_cons.mpr htype')
            rw [hother type' htype']
            exact Function.update_of_ne hne ..
          · rcases List.mem_cons.mp htype' with rfl | htype'
            · refine ⟨rows, ha, hroom, ?_⟩
              rw [hother type' hrest]
              exact Function.update_self ..
            · have hne : type' ≠ type := fun heq => hrest (heq ▸ htype')
              have hthere := harray type' htype'
              dsimp only at hthere
              rwa [Function.update_of_ne hne] at hthere

/-- If all statements succeed, all are made. -/
theorem takeWhile_of_all {types : List ExprType} {p : ExprType → Bool}
    (h : types.all p = true) : types.takeWhile p = types :=
  List.takeWhile_eq_self_iff.mpr (List.all_eq_true.mp h)

/-- The loop when it succeeds. -/
theorem fetched_of_fetchTypes {a : ExprType → Option (List ExpressionRow)}
    {types : List ExprType} {y y' : Loading} (hnodup : types.Nodup)
    (h : fetchTypes a types y = .ok (true, y')) : Fetched a types y y' := by
  obtain ⟨hall, hfetched⟩ := fetchTypes_cases hnodup h
  rwa [takeWhile_of_all hall.symm] at hfetched

/-- If all statements answer, the loop does not stop before its end. -/
theorem fetchTypes_true {a : ExprType → Option (List ExpressionRow)} {types : List ExprType}
    {y : Loading} {r : Bool × Loading} (hnodup : types.Nodup) (hall : ∀ type, (a type).isSome)
    (h : fetchTypes a types y = .ok r) : r.1 = true := by
  rw [(fetchTypes_cases hnodup h).1, List.all_eq_true]
  exact fun type _ => hall type

/-- What a successful `YogiGen_fetch_all` leaves. -/
structure FetchedAll (a : Answers) (y y' : Loading) : Prop where
  count : y'.count = y.count
  formatsCount : y'.formatsCount = y.formatsCount
  array : ∀ type, ∃ rows, a.expr type = some rows ∧
    rows.length % 65536 ≤ (y.array type).length ∧
    y'.array type = ((readRows rows).map readExpr).map some ++
      (y.array type).drop (rows.length % 65536)
  formats : ∃ rows, a.frmt = some rows ∧ rows.length % 65536 ≤ y.formats.length ∧
    y'.formats = ((readRows rows).map readFrmt).map some ++ y.formats.drop (rows.length % 65536)

/-- The types are different ones. -/
theorem nodup_types : [ExprType.verb, .adjective, .concept, .object].Nodup := by
  decide

/-- And there are no others. -/
theorem mem_types (type : ExprType) : type ∈ [ExprType.verb, .adjective, .concept, .object] := by
  cases type with
  | verb | adjective | concept | object => decide

/-- **`YogiGen_fetch_all`**, when it succeeds. -/
theorem fetchedAll_of_ok {a : Answers} {y y' : Loading}
    (h : yogiGenFetchAll a y = .ok (true, y')) : FetchedAll a y y' := by
  rw [yogiGenFetchAll, fetchExpressions] at h
  cases hexpr : fetchTypes a.expr [.verb, .adjective, .concept, .object] y with
  | error e => simp [hexpr] at h
  | ok r =>
      obtain ⟨_ | _, y₁⟩ := r
      · simp [hexpr] at h
      · simp only [hexpr] at h
        obtain ⟨hcount, hfcount, hformats, -, harray⟩ := fetched_of_fetchTypes nodup_types hexpr
        rw [fetchFormats] at h
        cases ha : a.frmt with
        | none => simp [ha] at h
        | some rows =>
            simp only [ha, readFrmtResultSet_eq] at h
            split_ifs at h with hroom
            obtain ⟨-, rfl⟩ := Prod.mk.inj (Except.ok.inj h)
            rw [hformats] at hroom
            refine ⟨hcount, hfcount, fun type => harray type (mem_types type), rows, ha, hroom, ?_⟩
            rw [hformats]

/-- `YogiGen_fetch_all` stays within arrays that have room. -/
theorem yogiGenFetchAll_ok {a : Answers} {y : Loading}
    (hexpr : ∀ type rows, a.expr type = some rows →
      rows.length % 65536 ≤ (y.array type).length)
    (hfrmt : ∀ rows, a.frmt = some rows → rows.length % 65536 ≤ y.formats.length) :
    ∃ r, yogiGenFetchAll a y = .ok r := by
  obtain ⟨⟨_ | _, y₁⟩, hr⟩ := fetchTypes_ok nodup_types fun type _ => hexpr type
  · exact ⟨_, by rw [yogiGenFetchAll, fetchExpressions, hr]⟩
  · have hformats := (fetched_of_fetchTypes nodup_types hr).formats
    rw [yogiGenFetchAll, fetchExpressions, hr]
    dsimp only
    rw [fetchFormats]
    cases ha : a.frmt with
    | none => exact ⟨_, rfl⟩
    | some rows =>
        dsimp only
        rw [readFrmtResultSet_eq, hformats, if_pos (hfrmt rows ha)]
        exact ⟨_, rfl⟩

/-- If all statements answer, `YogiGen_fetch_all` succeeds or leaves its arrays. -/
theorem yogiGenFetchAll_true {a : Answers} {y : Loading} {r : Bool × Loading}
    (hexpr : ∀ type, (a.expr type).isSome) (hfrmt : a.frmt.isSome)
    (h : yogiGenFetchAll a y = .ok r) : r.1 = true := by
  obtain ⟨rows, ha⟩ := Option.isSome_iff_exists.mp hfrmt
  rw [yogiGenFetchAll, fetchExpressions] at h
  cases hr : fetchTypes a.expr [.verb, .adjective, .concept, .object] y with
  | error e => simp [hr] at h
  | ok r₁ =>
      have htrue := fetchTypes_true nodup_types hexpr hr
      obtain ⟨_ | _, y₁⟩ := r₁
      · exact absurd htrue (by simp)
      · simp only [hr, fetchFormats, ha, readFrmtResultSet_eq] at h
        split_ifs at h
        obtain rfl := Except.ok.inj h
        rfl

/-! ### Snapshots -/

/-- Every database answers all the statements. -/
theorem exists_answers (snap : Snapshots) :
    ∃ a : Answers, a.Of snap ∧ (∀ type, (a.expr type).isSome) ∧ a.frmt.isSome := by
  refine ⟨⟨fun type => some (((snap.selectExpr type).rows type).mergeSort fun r r' =>
    decide (r.flags ≤ r'.flags)), some snap.selectFrmt.formats⟩, ⟨?_, ?_⟩, fun _ => rfl, rfl⟩
  · intro type rows hrows
    obtain rfl := Option.some.inj hrows
    refine ⟨List.mergeSort_perm _ _, ?_⟩
    refine (List.pairwise_mergeSort (fun r r' r'' h h' => ?_) (fun r r' => ?_) _).imp
      of_decide_eq_true
    · exact decide_eq_true (Int32.le_trans (of_decide_eq_true h) (of_decide_eq_true h'))
    · rw [Bool.or_eq_true, decide_eq_true_eq, decide_eq_true_eq]
      exact Int32.le_total _ _
  · intro rows hrows
    obtain rfl := Option.some.inj hrows
    exact .refl _

/-- The arrays are as long as their counts, and every entry has been read from a row, which
is one of the right type for expressions. -/
def Initialised (y : Loading) (snap : Snapshots) : Prop :=
  (∀ type, (y.array type).length = (y.count type).toNat ∧
    ∀ entry ∈ y.array type, ∃ row ∈ (snap.selectExpr type).rows type,
      entry = some (readExpr row)) ∧
    y.formats.length = y.formatsCount.toNat ∧
    ∀ entry ∈ y.formats, ∃ row ∈ snap.selectFrmt.formats, entry = some (readFrmt row)

/-- Loading stays within the arrays that `YogiGen_init` allocated, and when it succeeds,
the entries below the counts are initialised. -/
structure LoadsSafely (snap : Snapshots) : Prop where
  inside : ∀ fresh y a, a.Of snap →
    yogiGenInit (some snap.countExpr.exprCounts) (some snap.countFrmt.frmtCount) fresh = some y →
      ∃ r, yogiGenFetchAll a y = .ok r
  initialised : ∀ fresh y y' a, a.Of snap →
    yogiGenInit (some snap.countExpr.exprCounts) (some snap.countFrmt.frmtCount) fresh = some y →
      yogiGenFetchAll a y = .ok (true, y') → Initialised y' snap

/-- An array that was allocated for `n` entries is initialised by a result set if and only
if `n` rows of it are read. -/
theorem forall_written_iff {α β : Type} (read : α → β) {rows source : List α}
    (hrows : rows.Perm source) {n : ℕ} (hroom : rows.length % 65536 ≤ n) :
    (∀ entry ∈ ((readRows rows).map read).map some ++
        (List.replicate n none).drop (rows.length % 65536),
          ∃ row ∈ source, entry = some (read row)) ↔ source.length % 65536 = n := by
  rw [List.drop_replicate, ← hrows.length_eq]
  constructor
  · intro hall
    by_contra hne
    obtain ⟨row, -, hrow⟩ := hall none (List.mem_append_right _
      (List.mem_replicate.mpr ⟨by omega, rfl⟩))
    exact absurd hrow (by simp)
  · rintro rfl entry hentry
    rw [Nat.sub_self, List.replicate_zero, List.append_nil, List.map_map] at hentry
    obtain ⟨row, hrow, rfl⟩ := List.mem_map.mp hentry
    exact ⟨row, hrows.mem_iff.mp (List.mem_of_mem_take hrow), rfl⟩

/-- An array keeps the length it was allocated with. -/
theorem length_written {α β : Type} (read : α → β) {rows : List α} {n : ℕ}
    (hroom : rows.length % 65536 ≤ n) :
    (((readRows rows).map read).map some ++
      (List.replicate n none).drop (rows.length % 65536)).length = n := by
  simp only [List.length_append, List.length_map, length_readRows, List.length_drop,
    List.length_replicate]
  omega

/-- **When loading is safe**: the rows that are selected are as many as were counted,
modulo 65536, for every type and for the formats. -/
theorem loadsSafely_iff (snap : Snapshots) :
    LoadsSafely snap ↔
      (∀ type, ((snap.selectExpr type).rows type).length % 65536 =
        (snap.countExpr.rows type).length % 65536) ∧
      snap.selectFrmt.formats.length % 65536 = snap.countFrmt.formats.length % 65536 := by
  constructor
  · rintro ⟨hinside, hinit⟩
    obtain ⟨y, hy, hcount, hfcount, harray, hformats⟩ :=
      yogiGenInit_eq snap.countExpr snap.countFrmt ⟨fun _ => 0, 0, fun _ => [], []⟩
    obtain ⟨a, ha, hexpr, hfrmt⟩ := exists_answers snap
    obtain ⟨⟨b, y'⟩, hr⟩ := hinside _ y a ha hy
    obtain rfl : b = true := yogiGenFetchAll_true hexpr hfrmt hr
    have hfetched := fetchedAll_of_ok hr
    obtain ⟨hinitExpr, -, hinitFrmt⟩ := hinit _ y y' a ha hy hr
    refine ⟨fun type => ?_, ?_⟩
    · obtain ⟨rows, hrows, hroom, hwritten⟩ := hfetched.array type
      have hentries := (hinitExpr type).2
      rw [hwritten, harray] at hentries
      rw [harray, List.length_replicate] at hroom
      rw [← hcount]
      exact (forall_written_iff readExpr (ha.expr type rows hrows).1 hroom).mp hentries
    · obtain ⟨rows, hrows, hroom, hwritten⟩ := hfetched.formats
      rw [hwritten, hformats] at hinitFrmt
      rw [hformats, List.length_replicate] at hroom
      rw [← hfcount]
      exact (forall_written_iff readFrmt (ha.frmt rows hrows) hroom).mp hinitFrmt
  · rintro ⟨hexpr, hfrmt⟩
    have hinit : ∀ fresh y, yogiGenInit (some snap.countExpr.exprCounts)
        (some snap.countFrmt.frmtCount) fresh = some y →
        (∀ type, (y.count type).toNat = ((snap.selectExpr type).rows type).length % 65536 ∧
          y.array type = List.replicate (y.count type).toNat none) ∧
        y.formatsCount.toNat = snap.selectFrmt.formats.length % 65536 ∧
        y.formats = List.replicate y.formatsCount.toNat none := by
      intro fresh y hy
      obtain ⟨y₁, hy₁, hcount, hfcount, harray, hformats⟩ :=
        yogiGenInit_eq snap.countExpr snap.countFrmt fresh
      obtain rfl := Option.some.inj (hy.symm.trans hy₁)
      exact ⟨fun type => ⟨(hcount type).trans (hexpr type).symm, harray type⟩,
        hfcount.trans hfrmt.symm, hformats⟩
    refine ⟨fun fresh y a ha hy => ?_, fun fresh y y' a ha hy hr => ?_⟩
    · obtain ⟨hcount, hfcount, hformats⟩ := hinit fresh y hy
      refine yogiGenFetchAll_ok (fun type rows hrows => ?_) fun rows hrows => ?_
      · rw [(hcount type).2, List.length_replicate, (hcount type).1,
          (ha.expr type rows hrows).1.length_eq]
      · rw [hformats, List.length_replicate, hfcount, (ha.frmt rows hrows).length_eq]
    · obtain ⟨hcount, hfcount, hformats⟩ := hinit fresh y hy
      have hfetched := fetchedAll_of_ok hr
      refine ⟨fun type => ?_, ?_⟩
      · obtain ⟨rows, hrows, hroom, hwritten⟩ := hfetched.array type
        rw [(hcount type).2] at hwritten hroom
        rw [List.length_replicate] at hroom
        rw [hfetched.count, hwritten]
        exact ⟨length_written readExpr hroom,
          (forall_written_iff readExpr (ha.expr type rows hrows).1 hroom).mpr
            (hcount type).1.symm⟩
      · obtain ⟨rows, hrows, hroom, hwritten⟩ := hfetched.formats
        rw [hformats] at hwritten hroom
        rw [List.length_replicate] at hroom
        rw [hfetched.formatsCount, hwritten]
        exact ⟨length_written readFrmt hroom,
          (forall_written_iff readFrmt (ha.frmt rows hrows) hroom).mpr hfcount.symm⟩

/-- The entries are those of the rows that are read. -/
theorem entries_ofRows_map {α β : Type} (read : α → β) (rows : List α) :
    (Table.ofRows (rows.map read)).entries = (readRows rows).map read := by
  change (rows.map read).take ((rows.map read).length % 65536) = (readRows rows).map read
  rw [readRows, toNat_ofNat_mod, List.length_map, List.map_take]

/-- **The loaded state.** If nothing changes meanwhile, a load that succeeds leaves the
tables of a state that the database can be loaded into, every entry of them initialised. -/
theorem loads_of_fetchAll {db : Database} {a : Answers} (ha : a.Of ⟨db, db, fun _ => db, db⟩)
    {fresh y y' : Loading}
    (hinit : yogiGenInit (some db.exprCounts) (some db.frmtCount) fresh = some y)
    (h : yogiGenFetchAll a y = .ok (true, y')) (conn : Connection) :
    ∃ yogen : YogiGen, Loads db yogen ∧ yogen.conn = conn ∧
      (∀ type, y'.array type = (yogen.table type).entries.map some) ∧
      y'.formats = yogen.formats.entries.map some := by
  obtain ⟨y₁, hy₁, hcount, hfcount, harray, hformats⟩ := yogiGenInit_eq db db fresh
  obtain rfl := Option.some.inj (hinit.symm.trans hy₁)
  have hfetched := fetchedAll_of_ok h
  choose rows hrows _ hwritten using hfetched.array
  obtain ⟨frows, hfrows, _, hfwritten⟩ := hfetched.formats
  refine ⟨⟨.ofRows ((rows .verb).map readExpr), .ofRows ((rows .adjective).map readExpr),
    .ofRows ((rows .concept).map readExpr), .ofRows ((rows .object).map readExpr),
    .ofRows (frows.map readFrmt), conn⟩, ⟨fun type => ?_, ?_⟩, rfl, fun type => ?_, ?_⟩
  · refine ⟨rows type, (ha.expr type _ (hrows type)).1, (ha.expr type _ (hrows type)).2, ?_⟩
    cases type with
    | verb | adjective | concept | object => rfl
  · exact ⟨frows, ha.frmt frows hfrows, rfl⟩
  · have hlen := (ha.expr type _ (hrows type)).1.length_eq
    rw [hwritten, harray, hcount, ← hlen, List.drop_replicate, Nat.sub_self,
      List.replicate_zero, List.append_nil, ← entries_ofRows_map]
    cases type with
    | verb | adjective | concept | object => rfl
  · have hlen := (ha.frmt frows hfrows).length_eq
    rw [hfwritten, hformats, hfcount, ← hlen, List.drop_replicate, Nat.sub_self,
      List.replicate_zero, List.append_nil, ← entries_ofRows_map]

/-- A verb that another session inserts or deletes. -/
def verbRow : ExpressionRow :=
  ⟨Printf.ascii "be", Printf.ascii "is", 0, 0⟩

/-- The tables are empty when they are counted, and a verb has been inserted when they are
selected; or the other way round. -/
def changed (inserted : Bool) : Snapshots :=
  let counted : Database := ⟨if inserted then [] else [verbRow], []⟩
  let selected : Database := ⟨if inserted then [verbRow] else [], []⟩
  ⟨counted, counted, fun _ => selected, selected⟩

/-- The rows as the database lists them. -/
def Snapshots.answers (snap : Snapshots) : Answers where
  expr type := some ((snap.selectExpr type).rows type)
  frmt := some snap.selectFrmt.formats

/-- These are answers of the changed database. -/
theorem answers_changed_of (inserted : Bool) :
    (changed inserted).answers.Of (changed inserted) where
  expr type rows hrows := by
    obtain rfl := Option.some.inj hrows
    refine ⟨.refl _, ?_⟩
    clear hrows
    revert inserted
    cases type with
    | verb | adjective | concept | object => decide
  frmt rows hrows := by
    obtain rfl := Option.some.inj hrows
    exact .refl _

/-- Without a verb when they are counted, the verb is written outside the array; without
one when they are selected, the load succeeds with an entry that is not initialised. -/
theorem load_not_safe :
    (∃ fresh y a, a.Of (changed true) ∧
      yogiGenInit (some (changed true).countExpr.exprCounts)
        (some (changed true).countFrmt.frmtCount) fresh = some y ∧
      yogiGenFetchAll a y = .error .outOfBounds) ∧
    ∃ fresh y y' a, a.Of (changed false) ∧
      yogiGenInit (some (changed false).countExpr.exprCounts)
        (some (changed false).countFrmt.frmtCount) fresh = some y ∧
      yogiGenFetchAll a y = .ok (true, y') ∧ ¬ Initialised y' (changed false) := by
  constructor
  · exact ⟨⟨fun _ => 0, 0, fun _ => [], []⟩, _, _, answers_changed_of true, rfl, rfl⟩
  · refine ⟨⟨fun _ => 0, 0, fun _ => [], []⟩, _, _, _, answers_changed_of false, rfl, rfl, ?_⟩
    rintro ⟨hverbs, -⟩
    obtain ⟨row, -, hrow⟩ := (hverbs .verb).2 none (List.mem_singleton.mpr rfl)
    exact absurd hrow (by simp)

end Yogigen
