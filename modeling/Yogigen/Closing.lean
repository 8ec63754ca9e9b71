import Yogigen.Loading

/-!
# Closing What Has Been Initialised

`YogiGen_close` walks the fields of the object and the entries of its arrays, up to the
counts in the object. `YogiGen_init` passes the object to it when a step has failed, and then
the later fields have not been assigned; after a failure of `YogiGen_fetch_all` the fields
are all assigned, but some of the arrays have not been filled.

## Main results

* `fetchAll_cases`: what `YogiGen_fetch_all` has filled when it returns.
* `init_cases`: the object that `YogiGen_init` closes, or returns.
* `init_loading`: the object it returns is the one that loading starts from.
* `closesRight_ofLoading_iff`: an initialised object is closed right if its arrays are filled.
* `closesRight_iff`: when `YogiGen_close` frees what has been set, once, and reads nothing else.
-/

namespace Yogigen

/-! ### The object -/

/-- A pointer field: not assigned, NULL, or a pointer to something. -/
inductive Field (α : Type)
  | unset
  | null
  | to (a : α)

/-- `struct yogigen` with fields that need not have been assigned. An entry of an array is
`none` until it has been written. -/
structure Fields where
  conn : Field Connection
  formatsCount : Option UInt16
  formats : Field (List (Option FormatString))
  count : ExprType → Option UInt16
  array : ExprType → Field (List (Option Expression))

/-- What is read although it has not been set, or lies outside an array. -/
inductive Misread
  | unset
  | outOfBounds
  deriving DecidableEq

/-- Read a pointer field. -/
def Field.read {α : Type} : Field α → Except Misread (Option α)
  | .unset => .error .unset
  | .null => .ok none
  | .to a => .ok (some a)

/-- Read a count. -/
def readCount : Option UInt16 → Except Misread UInt16
  | none => .error .unset
  | some n => .ok n

namespace Fields

/-- The object that `malloc` returns. -/
def fresh : Fields where
  conn := .unset
  formatsCount := none
  formats := .unset
  count _ := none
  array _ := .unset

/-- An object all of whose fields have been assigned. -/
def ofLoading (conn : Connection) (y : Loading) : Fields where
  conn := .to conn
  formatsCount := some y.formatsCount
  formats := .to y.formats
  count type := some (y.count type)
  array type := .to (y.array type)

end Fields

/-- The fields determine the connection and the tables. -/
theorem Fields.ofLoading_inj {conn conn' : Connection} {y y' : Loading}
    (h : Fields.ofLoading conn y = .ofLoading conn' y') : conn = conn' ∧ y = y' := by
  obtain ⟨count, formatsCount, array, formats⟩ := y
  obtain ⟨count', formatsCount', array', formats'⟩ := y'
  simp only [ofLoading, Fields.mk.injEq, Field.to.injEq, Option.some.injEq, funext_iff] at h
  obtain ⟨rfl, rfl, rfl, hcount, harray⟩ := h
  obtain rfl := funext hcount
  obtain rfl := funext harray
  exact ⟨rfl, rfl⟩

/-! ### Initialisation -/

/-- What the steps of `YogiGen_init` meet: whether `malloc` returns memory, the connection,
and the columns of the two count statements. -/
structure Steps where
  object : Bool
  conn : Option Connection
  exprCounts : Option (ExprType → Bytes)
  frmtCount : Option Bytes
  formats : Bool
  array : ExprType → Bool

namespace Fields

/-- `fetch_counts`. -/
def fetchCounts (steps : Steps) (y : Fields) : Bool × Fields :=
  match steps.exprCounts with
  | none => (false, y)
  | some columns =>
      let y := { y with count := fun type => some (atoiU16 (columns type)) }
      match steps.frmtCount with
      | none => (false, y)
      | some column => (true, { y with formatsCount := some (atoiU16 column) })

/-- The allocations of the arrays of some types, up to the first that fails. -/
def allocateArrays (alloc : ExprType → Bool) :
    List ExprType → Fields → Except Misread (Bool × Fields)
  | [], y => .ok (true, y)
  | type :: types, y => do
      let n ← readCount (y.count type)
      if alloc type then
        allocateArrays alloc types
          { y with array := Function.update y.array type (.to (List.replicate n.toNat none)) }
      else return (false, y)

/-- `YogiGen_init` up to its `return` or its error label, with the object there; `none` when
there is no object. -/
def yogiGenInit (steps : Steps) : Except Misread (Option (Bool × Fields)) :=
  if steps.object then
    match steps.conn with
    | none => return some (false, { fresh with conn := .null })
    | some conn =>
        match fetchCounts steps { fresh with conn := .to conn } with
        | (false, y) => return some (false, y)
        | (true, y) => do
            let n ← readCount y.formatsCount
            if steps.formats then do
              let r ← allocateArrays steps.array [.verb, .adjective, .concept, .object]
                { y with formats := .to (List.replicate n.toNat none) }
              return some r
            else return some (false, y)
  else return none

end Fields

/-- `close_nonblocking_conn`, on the connection record. -/
def Connection.closeNonblocking (conn : Connection) : Connection :=
  match conn.db with
  | none => conn
  | some _ => { conn.countDown with db := none }

/-- An object that is closed: by `YogiGen_init` when one of its steps has failed, or after
`YogiGen_fetch_all` has returned. -/
inductive Closed (steps : Steps) (a : Answers) : Fields → Prop
  | init {y : Fields} : Fields.yogiGenInit steps = .ok (some (false, y)) → Closed steps a y
  | fetched {conn : Connection} {y y' : Loading} {ret : Bool} :
      Fields.yogiGenInit steps = .ok (some (true, .ofLoading conn y)) →
      yogiGenFetchAll a y = .ok (ret, y') →
      Closed steps a (.ofLoading (if ret then conn.closeNonblocking else conn) y')

/-! ### Closing -/

/-- What `YogiGen_close` frees, by the field that points to it. -/
inductive Path
  | object
  | conn
  | session
  | connInfo
  | formats
  | formatStr (i : ℕ)
  | array (type : ExprType)
  | field1 (type : ExprType) (i : ℕ)
  | field2 (type : ExprType) (i : ℕ)
  deriving DecidableEq

/-- `close_conn`. -/
def closeConn (conn : Connection) : List Path :=
  (if conn.db.isSome then [.session] else []) ++ [.connInfo, .conn]

/-- The loop over the entries of an array from index `i`, with `n` left: what the strings of
an entry are. -/
def closeEntries {α : Type} (entries : List (Option α)) (strings : ℕ → List Path) :
    ℕ → ℕ → Except Misread (List Path)
  | _, 0 => .ok []
  | i, n + 1 =>
      match entries[i]? with
      | none => .error .outOfBounds
      | some none => .error .unset
      | some (some _) => do
          let rest ← closeEntries entries strings (i + 1) n
          return strings i ++ rest

/-- An array with its entries, if there is one. -/
def closeArray {α : Type} (field : Field (List (Option α))) (count : Option UInt16)
    (strings : ℕ → List Path) (self : Path) : Except Misread (List Path) := do
  let entries ← field.read
  match entries with
  | none => return []
  | some entries => do
      let n ← readCount count
      let freed ← closeEntries entries strings 0 n.toNat
      return freed ++ [self]

namespace Fields

/-- The arrays of some types. -/
def closeArrays (y : Fields) : List ExprType → Except Misread (List Path)
  | [] => .ok []
  | type :: types => do
      let freed ← closeArray (y.array type) (y.count type)
        (fun i => [.field1 type i, .field2 type i]) (.array type)
      let rest ← closeArrays y types
      return freed ++ rest

/-- `YogiGen_close`, on a pointer that is not NULL: what it frees, in order. -/
def yogiGenClose (y : Fields) : Except Misread (List Path) := do
  let conn ← y.conn.read
  let formats ← closeArray y.formats y.formatsCount (fun i => [.formatStr i]) .formats
  let arrays ← closeArrays y [.verb, .adjective, .concept, .object]
  return (conn.map closeConn).getD [] ++ (formats ++ (arrays ++ [.object]))

/-- What has been set in an object. -/
def IsSet (y : Fields) : Path → Prop
  | .object => True
  | .conn | .connInfo => ∃ conn, y.conn = .to conn
  | .session => ∃ conn, y.conn = .to conn ∧ conn.db ≠ none
  | .formats => ∃ entries, y.formats = .to entries
  | .formatStr i => ∃ entries f, y.formats = .to entries ∧ entries[i]? = some (some f)
  | .array type => ∃ entries, y.array type = .to entries
  | .field1 type i | .field2 type i =>
      ∃ entries e, y.array type = .to entries ∧ entries[i]? = some (some e)

/-- `YogiGen_close` reads nothing that has not been set, and frees what has been set, each
of it once. -/
def ClosesRight (y : Fields) : Prop :=
  ∃ freed, y.yogiGenClose = .ok freed ∧ freed.Nodup ∧ ∀ p, p ∈ freed ↔ y.IsSet p

end Fields

/-! ### What has been filled -/

/-- The types up to the first whose statement has failed. -/
def Answers.answered (a : Answers) : List ExprType :=
  [ExprType.verb, .adjective, .concept, .object].takeWhile fun type => (a.expr type).isSome

/-- The number of rows that are written into the array of a type. -/
def Answers.written (a : Answers) (type : ExprType) : ℕ :=
  if type ∈ a.answered then ((a.expr type).getD []).length % 65536 else 0

/-- The number of rows that are written into the array of the formats. -/
def Answers.writtenFormats (a : Answers) : ℕ :=
  if [ExprType.verb, .adjective, .concept, .object].all fun type => (a.expr type).isSome then
    (a.frmt.getD []).length % 65536
  else 0

/-- An array whose first entries have been written. -/
def Overwritten {α : Type} (old new : List (Option α)) (n : ℕ) : Prop :=
  ∃ values : List α, values.length = n ∧ n ≤ old.length ∧ new = values.map some ++ old.drop n

/-- Nothing has been written yet. -/
theorem Overwritten.self {α : Type} (old : List (Option α)) : Overwritten old old 0 :=
  ⟨[], rfl, Nat.zero_le _, rfl⟩

/-- An array that was not initialised is full when as many entries have been written. -/
theorem Overwritten.full_iff {α : Type} {new : List (Option α)} {m n : ℕ}
    (h : Overwritten (List.replicate m none) new n) :
    new.length = m ∧ (none ∉ new ↔ m = n) := by
  obtain ⟨values, rfl, hle, rfl⟩ := h
  rw [List.length_replicate] at hle
  rw [List.drop_replicate]
  constructor
  · rw [List.length_append, List.length_map, List.length_replicate]
    omega
  · simp only [List.mem_append, List.mem_map, reduceCtorEq, and_false, exists_false, false_or,
      List.mem_replicate, and_true, not_not]
    omega

/-- **What `YogiGen_fetch_all` has filled** when it returns, whether it has failed or not. -/
theorem fetchAll_cases {a : Answers} {y y' : Loading} {ret : Bool}
    (h : yogiGenFetchAll a y = .ok (ret, y')) :
    y'.count = y.count ∧ y'.formatsCount = y.formatsCount ∧
      (∀ type, Overwritten (y.array type) (y'.array type) (a.written type)) ∧
      Overwritten y.formats y'.formats a.writtenFormats := by
  rw [yogiGenFetchAll, fetchExpressions] at h
  cases hexpr : fetchTypes a.expr [.verb, .adjective, .concept, .object] y with
  | error e => simp [hexpr] at h
  | ok r =>
      obtain ⟨ret₁, y₁⟩ := r
      obtain ⟨hall, hcount, hfcount, hformats, hother, harray⟩ :=
        fetchTypes_cases nodup_types hexpr
      have hwritten : ∀ type, Overwritten (y.array type) (y₁.array type) (a.written type) := by
        intro type
        rw [Answers.written]
        split_ifs with htype
        · obtain ⟨rows, hrows, hroom, heq⟩ := harray type htype
          rw [hrows, Option.getD_some]
          refine ⟨(readRows rows).map readExpr, ?_, hroom, heq⟩
          rw [List.length_map, length_readRows]
        · exact hother type htype ▸ .self _
      rw [Answers.writtenFormats, ← hall]
      cases ret₁ with
      | false =>
          simp only [hexpr] at h
          obtain ⟨-, rfl⟩ := Prod.mk.inj (Except.ok.inj h)
          exact ⟨hcount, hfcount, hwritten, hformats ▸ .self _⟩
      | true =>
          simp only [hexpr, fetchFormats] at h
          cases ha : a.frmt with
          | none =>
              simp only [ha] at h
              obtain ⟨-, rfl⟩ := Prod.mk.inj (Except.ok.inj h)
              exact ⟨hcount, hfcount, hwritten, hformats ▸ .self _⟩
          | some rows =>
              simp only [ha, readFrmtResultSet_eq] at h
              split_ifs at h with hroom
              obtain ⟨-, rfl⟩ := Prod.mk.inj (Except.ok.inj h)
              dsimp only at hformats hroom ⊢
              rw [hformats] at hroom ⊢
              refine ⟨hcount, hfcount, hwritten, (readRows rows).map readFrmt, ?_, hroom, rfl⟩
              rw [List.length_map, length_readRows]
              rfl

/-! ### What `YogiGen_init` leaves -/

/-- Every step of `YogiGen_init` succeeds. -/
structure Steps.Succeed (steps : Steps) : Prop where
  object : steps.object = true
  conn : steps.conn.isSome = true
  exprCounts : steps.exprCounts.isSome = true
  frmtCount : steps.frmtCount.isSome = true
  formats : steps.formats = true
  array : ∀ type, steps.array type = true

/-- The count of a type, when it has been read. -/
def Steps.count (steps : Steps) (type : ExprType) : ℕ :=
  steps.exprCounts.elim 0 fun columns => (atoiU16 (columns type)).toNat

/-- The count of the formats, when it has been read. -/
def Steps.formatsCount (steps : Steps) : ℕ :=
  steps.frmtCount.elim 0 fun column => (atoiU16 column).toNat

/-- The counts are all set, or one of the statements has failed. -/
theorem fetchCounts_cases (steps : Steps) (y : Fields) :
    (∃ y', y.fetchCounts steps = (false, y') ∧ y'.array = y.array ∧ ¬ steps.Succeed) ∨
      ∃ columns column, steps.exprCounts = some columns ∧ steps.frmtCount = some column ∧
        y.fetchCounts steps = (true, { y with
          count := fun type => some (atoiU16 (columns type))
          formatsCount := some (atoiU16 column) }) := by
  rw [Fields.fetchCounts]
  cases hexpr : steps.exprCounts with
  | none => exact .inl ⟨y, rfl, rfl, fun hs => absurd hs.exprCounts (by simp [hexpr])⟩
  | some columns =>
      cases hfrmt : steps.frmtCount with
      | none => exact .inl ⟨_, rfl, rfl, fun hs => absurd hs.frmtCount (by simp [hfrmt])⟩
      | some column => exact .inr ⟨columns, column, rfl, rfl, rfl⟩

/-- A sequence that succeeds consists of two successes. -/
theorem ok_of_bind {α β : Type} {x : Except Misread α} {f : α → Except Misread β} {b : β}
    (h : (x >>= f) = .ok b) : ∃ a, x = .ok a ∧ f a = .ok b := by
  cases x with
  | error e => exact absurd h (by simp [bind, Except.bind])
  | ok a => exact ⟨a, rfl, h⟩

/-- The allocations set the arrays of all types, or leave one of them unset. -/
theorem allocateArrays_cases {alloc : ExprType → Bool} {count : ExprType → UInt16}
    {types : List ExprType} {y y' : Fields} {ret : Bool} (hnodup : types.Nodup)
    (hcount : ∀ type, y.count type = some (count type))
    (hunset : ∀ type ∈ types, y.array type = .unset)
    (h : Fields.allocateArrays alloc types y = .ok (ret, y')) :
    (ret = false ∧ ∃ type, alloc type = false ∧ y'.array type = .unset) ∨
      (ret = true ∧ (∀ type ∈ types, alloc type = true) ∧ y' = { y with
        array := fun type => if type ∈ types then
          .to (List.replicate (count type).toNat none) else y.array type }) := by
  induction types generalizing y with
  | nil =>
      obtain ⟨rfl, rfl⟩ := Prod.mk.inj (Except.ok.inj h)
      exact .inr ⟨rfl, fun _ hmem => absurd hmem List.not_mem_nil, by simp⟩
  | cons type types ih =>
      obtain ⟨hnot, hnodup⟩ := List.nodup_cons.mp hnodup
      rw [Fields.allocateArrays, hcount type] at h
      change (if alloc type = true then _ else _) = _ at h
      cases halloc : alloc type with
      | false =>
          rw [halloc, if_neg (by decide)] at h
          obtain ⟨rfl, rfl⟩ := Prod.mk.inj (Except.ok.inj h)
          exact .inl ⟨rfl, type, halloc, hunset type List.mem_cons_self⟩
      | true =>
          rw [halloc, if_pos rfl] at h
          have hrest : ∀ type' ∈ types, Function.update y.array type
              (.to (List.replicate (count type).toNat none)) type' = .unset := by
            intro type' hmem
            have hne : type' ≠ type := fun heq => hnot (heq ▸ hmem)
            rw [Function.update_of_ne hne]
            exact hunset type' (List.mem_cons_of_mem _ hmem)
          have hih := @ih { y with array := Function.update y.array type _ } hnodup hcount hrest h
          rcases hih with hfail | ⟨rfl, hall, rfl⟩
          · exact .inl hfail
          · refine .inr ⟨rfl, List.forall_mem_cons.mpr ⟨halloc, hall⟩, ?_⟩
            congr 1
            funext type'
            by_cases heq : type' = type
            · subst heq
              simp [hnot]
            · simp [heq]

/-- **The object that `YogiGen_init` leaves**: a pointer is unset after a failure, and after
a success the object is the one whose tables are loaded next. -/
theorem init_cases {steps : Steps} {y : Fields} {ret : Bool}
    (h : Fields.yogiGenInit steps = .ok (some (ret, y))) :
    (ret = false ∧ ¬ steps.Succeed ∧ ∃ type, y.array type = .unset) ∨
      (ret = true ∧ steps.Succeed ∧ ∃ conn loading, y = .ofLoading conn loading ∧
        (∀ type, (loading.count type).toNat = steps.count type) ∧
        loading.formatsCount.toNat = steps.formatsCount ∧
        (∀ type, loading.array type = List.replicate (loading.count type).toNat none) ∧
        loading.formats = List.replicate loading.formatsCount.toNat none) := by
  rw [Fields.yogiGenInit] at h
  cases hobject : steps.object with
  | false =>
      rw [hobject, if_neg (by decide)] at h
      exact absurd (Except.ok.inj h) (by simp)
  | true =>
      rw [hobject, if_pos rfl] at h
      cases hconn : steps.conn with
      | none =>
          rw [hconn] at h
          obtain ⟨rfl, rfl⟩ := Prod.mk.inj (Option.some.inj (Except.ok.inj h))
          refine .inl ⟨rfl, fun hs => ?_, .object, rfl⟩
          exact absurd hs.conn (by simp [hconn])
      | some conn =>
          rw [hconn] at h
          dsimp only at h
          rcases fetchCounts_cases steps { Fields.fresh with conn := .to conn } with
            ⟨y', hcounts, harray, hnot⟩ | ⟨columns, column, hexpr, hfrmt, hcounts⟩
          · rw [hcounts] at h
            obtain ⟨rfl, rfl⟩ := Prod.mk.inj (Option.some.inj (Except.ok.inj h))
            exact .inl ⟨rfl, hnot, .object, congrFun harray .object⟩
          · rw [hcounts] at h
            change (if steps.formats = true then _ else _) = _ at h
            cases hformats : steps.formats with
            | false =>
                rw [hformats, if_neg (by decide)] at h
                obtain ⟨rfl, rfl⟩ := Prod.mk.inj (Option.some.inj (Except.ok.inj h))
                exact .inl ⟨rfl, fun hs => absurd hs.formats (by simp [hformats]), .object, rfl⟩
            | true =>
                rw [hformats, if_pos rfl] at h
                obtain ⟨r, hr, hret⟩ := ok_of_bind h
                obtain ⟨rfl⟩ := Option.some.inj (Except.ok.inj hret)
                rcases allocateArrays_cases nodup_types (fun _ => rfl) (fun _ _ => rfl) hr with
                  ⟨rfl, type, halloc, hunset⟩ | ⟨rfl, halloc, rfl⟩
                · refine .inl ⟨rfl, fun hs => ?_, type, hunset⟩
                  exact absurd ((hs.array type).symm.trans halloc) (by decide)
                · have hs : steps.Succeed := ⟨hobject, by simp [hconn], by simp [hexpr],
                    by simp [hfrmt], hformats, fun type => halloc type (mem_types type)⟩
                  refine .inr ⟨rfl, hs, conn, .allocate ⟨fun type => atoiU16 (columns type),
                    atoiU16 column, fun _ => [], []⟩, ?_, fun type => ?_, ?_, fun _ => rfl, rfl⟩
                  · simp only [mem_types, if_true]
                    rfl
                  · rw [Steps.count, hexpr]
                    rfl
                  · rw [Steps.formatsCount, hfrmt]
                    rfl

/-- The initialised object has the tables that loading starts from. -/
theorem init_loading {steps : Steps} {conn : Connection} {loading : Loading}
    (h : Fields.yogiGenInit steps = .ok (some (true, .ofLoading conn loading)))
    (initial : Loading) : ∃ columns column, steps.exprCounts = some columns ∧
      steps.frmtCount = some column ∧
      yogiGenInit (some ([ExprType.verb, .adjective, .concept, .object].map columns))
        (some [column]) initial = some loading := by
  rcases init_cases h with
    ⟨hfalse, -⟩ | ⟨-, hs, conn', loading', heq, hcount, hfcount, harray, hfmt⟩
  · exact absurd hfalse (by simp)
  · obtain ⟨-, rfl⟩ := Fields.ofLoading_inj heq
    obtain ⟨columns, hexpr⟩ := Option.isSome_iff_exists.mp hs.exprCounts
    obtain ⟨column, hfrmt⟩ := Option.isSome_iff_exists.mp hs.frmtCount
    refine ⟨columns, column, hexpr, hfrmt, ?_⟩
    obtain ⟨count, formatsCount, array, formats⟩ := loading
    simp only [Steps.count, hexpr, Steps.formatsCount, hfrmt, Option.elim_some] at hcount hfcount
    obtain rfl : count = fun type => atoiU16 (columns type) :=
      funext fun type => UInt16.toNat_inj.mp (hcount type)
    obtain rfl := UInt16.toNat_inj.mp hfcount
    dsimp only at harray hfmt
    obtain rfl := funext harray
    subst hfmt
    have hcolumns : (readCountResultSet initial
        ([ExprType.verb, .adjective, .concept, .object].map columns)).count =
          fun type => atoiU16 (columns type) := by
      funext type
      cases type with
      | verb | adjective | concept | object => rfl
    have hinit : yogiGenInit (some ([ExprType.verb, .adjective, .concept, .object].map columns))
        (some [column]) initial = some (Loading.allocate ⟨(readCountResultSet initial
          ([ExprType.verb, .adjective, .concept, .object].map columns)).count,
            atoiU16 column, initial.array, initial.formats⟩) := rfl
    rw [hinit, hcolumns]
    rfl

/-! ### What `YogiGen_close` frees -/

/-- An object with an unset pointer is never closed right. -/
theorem not_closesRight_of_unset {y : Fields} {type : ExprType} (h : y.array type = .unset) :
    ¬ y.ClosesRight := by
  rintro ⟨freed, hclose, -⟩
  have hall : ∀ types freed, y.closeArrays types = .ok freed → type ∉ types := by
    intro types
    induction types with
    | nil => exact fun _ _ => List.not_mem_nil
    | cons type' types ih =>
        intro freed hfreed hmem
        obtain ⟨_, harray, hrest⟩ := ok_of_bind hfreed
        obtain ⟨_, hrest, -⟩ := ok_of_bind hrest
        rcases List.mem_cons.mp hmem with rfl | hmem
        · rw [h] at harray
          exact absurd harray (by simp [closeArray, Field.read, bind, Except.bind])
        · exact ih _ hrest hmem
  obtain ⟨_, -, hclose⟩ := ok_of_bind hclose
  obtain ⟨_, -, hclose⟩ := ok_of_bind hclose
  obtain ⟨_, harrays, -⟩ := ok_of_bind hclose
  exact hall _ _ harrays (mem_types type)

section

variable {α : Type} (entries : List (Option α)) (strings : ℕ → List Path)

/-- The loop over the entries ends if they have all been written. -/
theorem closeEntries_eq (n : ℕ) : ∀ i, i + n = entries.length →
    (none ∉ entries.drop i →
      closeEntries entries strings i n = .ok ((List.range' i n).flatMap strings)) ∧
    (none ∈ entries.drop i → closeEntries entries strings i n = .error .unset) := by
  induction n with
  | zero =>
      intro i hi
      rw [List.drop_of_length_le (by omega)]
      exact ⟨fun _ => rfl, fun hmem => absurd hmem List.not_mem_nil⟩
  | succ n ih =>
      intro i hi
      have hlt : i < entries.length := by omega
      obtain ⟨hfull, hunset⟩ := ih (i + 1) (by omega)
      rw [closeEntries, List.drop_eq_getElem_cons hlt, List.getElem?_eq_getElem hlt]
      cases hentry : entries[i] with
      | none => exact ⟨fun hnot => absurd List.mem_cons_self hnot, fun _ => rfl⟩
      | some value =>
          simp only [List.mem_cons, reduceCtorEq, false_or]
          constructor
          · intro hnot
            rw [hfull hnot]
            rfl
          · intro hmem
            rw [hunset hmem]
            rfl

/-- What closing a full array frees. -/
def arrayPaths (n : ℕ) (self : Path) : List Path :=
  (List.range n).flatMap strings ++ [self]

/-- An array that is filled is freed with its strings; one that is not is misread. -/
theorem closeArray_eq {count : UInt16} (hlen : entries.length = count.toNat) (self : Path) :
    (none ∉ entries → closeArray (.to entries) (some count) strings self =
      .ok (arrayPaths strings entries.length self)) ∧
    (none ∈ entries → closeArray (.to entries) (some count) strings self = .error .unset) := by
  obtain ⟨hfull, hunset⟩ := closeEntries_eq entries strings count.toNat 0 (by omega)
  rw [List.drop_zero] at hfull hunset
  constructor
  · intro hnot
    simp only [closeArray, Field.read, readCount, bind, Except.bind, hfull hnot]
    rw [← List.range_eq_range', hlen]
    rfl
  · intro hmem
    simp only [closeArray, Field.read, readCount, bind, Except.bind, hunset hmem]

/-- The paths of an array: those of its entries, and its own. -/
theorem mem_arrayPaths_iff {n : ℕ} {self p : Path} :
    p ∈ arrayPaths strings n self ↔ (∃ i < n, p ∈ strings i) ∨ p = self := by
  simp [arrayPaths]

/-- No path of an array comes twice. -/
theorem nodup_arrayPaths {n : ℕ} {self : Path} (hnodup : ∀ i, (strings i).Nodup)
    (hne : ∀ i j, ∀ p ∈ strings i, p ∈ strings j → i = j) (hself : ∀ i, self ∉ strings i) :
    (arrayPaths strings n self).Nodup := by
  rw [arrayPaths, List.nodup_append, List.nodup_flatMap]
  refine ⟨⟨fun i _ => hnodup i, ?_⟩, List.nodup_singleton self, ?_⟩
  · refine List.Pairwise.imp ?_ List.nodup_range
    exact fun hij p hi hj => hij (hne _ _ p hi hj)
  · rintro p hp q hq rfl
    obtain ⟨i, -, hi⟩ := List.mem_flatMap.mp hp
    exact hself i (List.mem_singleton.mp hq ▸ hi)

end

/-- The strings of an expression. -/
def exprStrings (type : ExprType) (i : ℕ) : List Path :=
  [.field1 type i, .field2 type i]

/-- The arrays of types whose entries have all been written. -/
theorem closeArrays_eq {conn : Connection} {y : Loading}
    (hlen : ∀ type, (y.array type).length = (y.count type).toNat) (types : List ExprType) :
    ((∀ type ∈ types, none ∉ y.array type) →
      (Fields.ofLoading conn y).closeArrays types = .ok (types.flatMap fun type =>
        arrayPaths (exprStrings type) (y.array type).length (.array type))) ∧
    ((∃ type ∈ types, none ∈ y.array type) →
      (Fields.ofLoading conn y).closeArrays types = .error .unset) := by
  induction types with
  | nil => exact ⟨fun _ => rfl, fun ⟨_, hmem, _⟩ => absurd hmem List.not_mem_nil⟩
  | cons type types ih =>
      obtain ⟨hfull, hunset⟩ :=
        closeArray_eq (y.array type) (exprStrings type) (hlen type) (.array type)
      have hstep : (Fields.ofLoading conn y).closeArrays (type :: types) = (do
          let freed ← closeArray (.to (y.array type)) (some (y.count type)) (exprStrings type)
            (.array type)
          let rest ← (Fields.ofLoading conn y).closeArrays types
          return freed ++ rest) := rfl
      constructor
      · intro hall
        obtain ⟨hhere, hrest⟩ := List.forall_mem_cons.mp hall
        simp only [hstep, hfull hhere, ih.1 hrest, bind, Except.bind]
        rfl
      · rintro ⟨type', hmem, hnone⟩
        by_cases hhere : none ∈ y.array type
        · simp only [hstep, hunset hhere, bind, Except.bind]
        · have hrest : type' ∈ types := by
            rcases List.mem_cons.mp hmem with rfl | hmem
            · exact absurd hnone hhere
            · exact hmem
          simp only [hstep, hfull hhere, ih.2 ⟨type', hrest, hnone⟩, bind, Except.bind]

/-- What closing an initialised object frees. -/
def closedPaths (conn : Connection) (y : Loading) : List Path :=
  closeConn conn ++ (arrayPaths (fun i => [.formatStr i]) y.formats.length .formats ++
    ([ExprType.verb, .adjective, .concept, .object].flatMap (fun type =>
      arrayPaths (exprStrings type) (y.array type).length (.array type)) ++ [.object]))

/-- **Closing an initialised object** ends if all the entries have been written. -/
theorem yogiGenClose_eq {conn : Connection} {y : Loading}
    (hlen : ∀ type, (y.array type).length = (y.count type).toNat)
    (hformats : y.formats.length = y.formatsCount.toNat) :
    ((∀ type, none ∉ y.array type) ∧ none ∉ y.formats →
      (Fields.ofLoading conn y).yogiGenClose = .ok (closedPaths conn y)) ∧
    (¬ ((∀ type, none ∉ y.array type) ∧ none ∉ y.formats) →
      (Fields.ofLoading conn y).yogiGenClose = .error .unset) := by
  obtain ⟨hfull, hunset⟩ :=
    closeArray_eq y.formats (fun i => [.formatStr i]) hformats .formats
  obtain ⟨hfulls, hunsets⟩ :=
    @closeArrays_eq conn y hlen [.verb, .adjective, .concept, .object]
  have hstep : (Fields.ofLoading conn y).yogiGenClose = (do
      let formats ← closeArray (.to y.formats) (some y.formatsCount)
        (fun i => [.formatStr i]) .formats
      let arrays ← (Fields.ofLoading conn y).closeArrays [.verb, .adjective, .concept, .object]
      return closeConn conn ++ (formats ++ (arrays ++ [.object]))) := rfl
  constructor
  · rintro ⟨harrays, hnone⟩
    simp only [hstep, hfull hnone, hfulls fun type _ => harrays type, bind, Except.bind]
    rfl
  · intro hnot
    by_cases hnone : none ∈ y.formats
    · simp only [hstep, hunset hnone, bind, Except.bind]
    · obtain ⟨type, htype⟩ := not_forall.mp fun hall => hnot ⟨hall, hnone⟩
      simp only [hstep, hfull hnone, hunsets ⟨type, mem_types type, not_not.mp htype⟩, bind,
        Except.bind]

/-- In a full array the entries that have been written are those of the array. -/
theorem written_iff {α : Type} {entries : List (Option α)} (h : none ∉ entries) (i : ℕ) :
    (∃ value, entries[i]? = some (some value)) ↔ i < entries.length := by
  constructor
  · rintro ⟨value, hi⟩
    exact (List.getElem?_eq_some_iff.mp hi).1
  · intro hi
    obtain ⟨value, hvalue⟩ := Option.ne_none_iff_exists'.mp
      fun hnone => h (hnone ▸ List.getElem_mem hi)
    exact ⟨value, by rw [List.getElem?_eq_getElem hi, hvalue]⟩

/-- What comes from some type. -/
theorem mem_flatMap_types {f : ExprType → List Path} {p : Path} :
    p ∈ [ExprType.verb, .adjective, .concept, .object].flatMap f ↔ ∃ type, p ∈ f type := by
  simp only [List.mem_flatMap, mem_types, true_and]

/-- What is freed is what has been set. -/
theorem mem_closedPaths_iff {conn : Connection} {y : Loading}
    (hfilled : (∀ type, none ∉ y.array type) ∧ none ∉ y.formats) (p : Path) :
    p ∈ closedPaths conn y ↔ (Fields.ofLoading conn y).IsSet p := by
  have hto : ∀ {α : Type} {a b : α}, Field.to a = Field.to b ↔ a = b := by
    intro α a b
    exact ⟨Field.to.inj, congrArg _⟩
  simp only [closedPaths, closeConn, exprStrings, List.mem_append, mem_flatMap_types,
    mem_arrayPaths_iff]
  cases p with
  | object => simp [Fields.IsSet]
  | conn | connInfo => simp [Fields.IsSet, Fields.ofLoading]
  | session =>
      cases hdb : conn.db with
      | none | some db => simp [Fields.IsSet, Fields.ofLoading, hdb]
  | formats => simp [Fields.IsSet, Fields.ofLoading]
  | formatStr i => simp [Fields.IsSet, Fields.ofLoading, hto, written_iff hfilled.2]
  | array type => simp [Fields.IsSet, Fields.ofLoading]
  | field1 type i | field2 type i =>
      simp [Fields.IsSet, Fields.ofLoading, hto, written_iff (hfilled.1 type)]

/-- Nothing is freed twice. -/
theorem nodup_closedPaths (conn : Connection) (y : Loading) : (closedPaths conn y).Nodup := by
  have harray : ∀ type, (arrayPaths (exprStrings type) (y.array type).length (.array type)).Nodup :=
    fun type => nodup_arrayPaths _ (by simp [exprStrings]) (by simp [exprStrings])
      (by simp [exprStrings])
  have hformats : (arrayPaths (fun i => [.formatStr i]) y.formats.length .formats).Nodup :=
    nodup_arrayPaths _ (by simp) (by simp) (by simp)
  have hconn : (closeConn conn).Nodup := by
    rw [closeConn]
    split_ifs
    · decide
    · decide
  have htypes : ([ExprType.verb, .adjective, .concept, .object].flatMap fun type =>
      arrayPaths (exprStrings type) (y.array type).length (.array type)).Nodup := by
    refine List.nodup_flatMap.mpr ⟨fun type _ => harray type, ?_⟩
    refine List.Pairwise.imp ?_ nodup_types
    intro type type' hne p hp hp'
    rw [mem_arrayPaths_iff] at hp hp'
    cases p <;> simp_all [exprStrings]
  simp only [closedPaths, List.nodup_append]
  refine ⟨hconn, ⟨hformats, ⟨htypes, List.nodup_singleton _, ?_⟩, ?_⟩, ?_⟩
  · rintro p hp _ hq rfl
    obtain rfl := List.mem_singleton.mp hq
    simp [mem_arrayPaths_iff, exprStrings] at hp
  · rintro p hp _ hq rfl
    rw [mem_arrayPaths_iff] at hp
    simp only [List.mem_append, mem_flatMap_types, mem_arrayPaths_iff] at hq
    cases p <;> simp_all [exprStrings]
  · rintro p hp _ hq rfl
    simp only [List.mem_append, mem_flatMap_types, mem_arrayPaths_iff] at hq
    rw [closeConn] at hp
    cases p <;> simp_all [exprStrings]

/-- **Closing an initialised object** is right if its arrays are filled. -/
theorem closesRight_ofLoading_iff {conn : Connection} {y : Loading}
    (hlen : ∀ type, (y.array type).length = (y.count type).toNat)
    (hformats : y.formats.length = y.formatsCount.toNat) :
    (Fields.ofLoading conn y).ClosesRight ↔
      (∀ type, none ∉ y.array type) ∧ none ∉ y.formats := by
  obtain ⟨hok, herror⟩ := @yogiGenClose_eq conn y hlen hformats
  constructor
  · rintro ⟨freed, hclose, -⟩
    by_contra hnot
    exact absurd ((herror hnot).symm.trans hclose) (by simp)
  · intro hfilled
    exact ⟨_, hok hfilled, nodup_closedPaths conn y, mem_closedPaths_iff hfilled⟩

/-- **When an object is closed right**: every step of `YogiGen_init` has succeeded, and the
count of each table is the number of rows that `YogiGen_fetch_all` has written into its
array, which is none when it did not come that far. -/
theorem closesRight_iff {steps : Steps} {a : Answers} {y : Fields} (h : Closed steps a y) :
    y.ClosesRight ↔ steps.Succeed ∧ (∀ type, steps.count type = a.written type) ∧
      steps.formatsCount = a.writtenFormats := by
  cases h with
  | init hinit =>
      rcases init_cases hinit with ⟨-, hnot, type, hunset⟩ | ⟨htrue, -⟩
      · exact iff_of_false (not_closesRight_of_unset hunset) fun hall => hnot hall.1
      · exact absurd htrue (by simp)
  | @fetched conn ld ld' ret hinit hfetch =>
      rcases init_cases hinit with ⟨hfalse, -⟩ | ⟨-, hs, conn₁, ld₁, heq, hrest⟩
      · exact absurd hfalse (by simp)
      · obtain ⟨-, rfl⟩ := Fields.ofLoading_inj heq
        obtain ⟨hcounts, hfcount, harrays, hformats⟩ := hrest
        obtain ⟨hcount', hfcount', hwritten, hfwritten⟩ := fetchAll_cases hfetch
        have hfull : ∀ type, (ld'.array type).length = (ld.count type).toNat ∧
            (none ∉ ld'.array type ↔ (ld.count type).toNat = a.written type) := fun type =>
          (harrays type ▸ hwritten type).full_iff
        have hffull := (hformats ▸ hfwritten).full_iff
        rw [closesRight_ofLoading_iff (fun type => by rw [hcount', (hfull type).1])
          (by rw [hfcount', hffull.1]), hffull.2, hfcount, and_iff_right hs]
        refine and_congr_left fun _ => forall_congr' fun type => ?_
        rw [(hfull type).2, hcounts]

/-- An initialisation that meets these tables, over this connection. -/
def Database.steps (db : Database) (conn : Option Connection) : Steps where
  object := true
  conn := conn
  exprCounts := some fun type => Numeral.text 10 (db.rows type).length
  frmtCount := some (Numeral.text 10 db.formats.length)
  formats := true
  array _ := true

/-- An initialisation that meets one verb. -/
def oneVerbSteps (conn : Option Connection) : Steps :=
  Database.steps ⟨[verbRow], []⟩ conn

/-- A connection with an open session. -/
def openConnection : Connection :=
  (World.init []).conn.countUp

/-- The initialised object: its only entry is that of the verb, which is not written. -/
theorem init_oneVerb : ∃ conn loading,
    Fields.yogiGenInit (oneVerbSteps (some openConnection)) =
      .ok (some (true, .ofLoading conn loading)) ∧
    (∀ type, (loading.array type).length = (loading.count type).toNat) ∧
    loading.array .verb = [none] ∧ loading.formats = [] ∧ loading.formatsCount.toNat = 0 := by
  obtain ⟨y, hinit⟩ : ∃ y, Fields.yogiGenInit (oneVerbSteps (some openConnection)) =
      .ok (some (true, y)) := ⟨_, rfl⟩
  rcases init_cases hinit with
    ⟨hfalse, -⟩ | ⟨-, -, conn, loading, rfl, hcount, hfcount, harray, hformats⟩
  · exact absurd hfalse (by simp)
  · have hverb : (oneVerbSteps (some openConnection)).count .verb = 1 := by decide +kernel
    have hzero : (oneVerbSteps (some openConnection)).formatsCount = 0 := by decide +kernel
    refine ⟨conn, loading, hinit, fun type => ?_, ?_, ?_, hfcount.trans hzero⟩
    · rw [harray, List.length_replicate]
    · rw [harray, hcount, hverb]
      rfl
    · rw [hformats, hfcount, hzero]
      rfl

/-- Tables with two verbs, no concept, and two formats. -/
def owlDb : Database where
  expressions := [verbRow, ⟨Printf.ascii "owl", Printf.ascii "owls", 3, 1⟩,
    ⟨Printf.ascii "calm", Printf.ascii "calmly", 1, 0⟩,
    ⟨Printf.ascii "walk", Printf.ascii "walks", 0, 3⟩]
  formats := [⟨Printf.ascii "Be.", 0, 0⟩, ⟨Printf.ascii "See a %s.", 3, 1⟩]

/-- All rows are counted and written, in each class, and the formats. -/
theorem closes_right_loaded :
    ∃ y, Closed (owlDb.steps (some openConnection)) ⟨fun type => some (owlDb.rows type),
      some owlDb.formats⟩ y ∧ y.ClosesRight := by
  obtain ⟨y, hinit⟩ : ∃ y, Fields.yogiGenInit (owlDb.steps (some openConnection)) =
      .ok (some (true, y)) := ⟨_, rfl⟩
  rcases init_cases hinit with
    ⟨hfalse, -⟩ | ⟨-, -, conn, loading, rfl, hcount, hfcount, harray, hformats⟩
  · exact absurd hfalse (by simp)
  obtain ⟨⟨ret, loaded⟩, hfetch⟩ : ∃ r, yogiGenFetchAll ⟨fun type => some (owlDb.rows type),
      some owlDb.formats⟩ loading = .ok r := by
    refine yogiGenFetchAll_ok (fun type rows hrows => ?_) fun rows hrows => ?_
    · obtain rfl := Option.some.inj hrows
      rw [harray, List.length_replicate, hcount]
      cases type with
      | verb | adjective | concept | object => decide +kernel
    · obtain rfl := Option.some.inj hrows
      rw [hformats, List.length_replicate, hfcount]
      decide +kernel
  have hclosed := Closed.fetched hinit hfetch
  refine ⟨_, hclosed, (closesRight_iff hclosed).mpr ⟨⟨rfl, rfl, rfl, rfl, rfl, fun _ => rfl⟩, ?_⟩⟩
  refine ⟨fun type => ?_, by decide +kernel⟩
  cases type with
  | verb | adjective | concept | object => decide +kernel

/-- Without a connection the pointers to the arrays have not been assigned; and when the
verbs cannot be selected, the entry of the verb has not been written. -/
theorem close_misreads :
    (∃ y, Closed (oneVerbSteps none) ⟨fun _ => none, none⟩ y ∧
      y.yogiGenClose = .error .unset) ∧
    ∃ y, Closed (oneVerbSteps (some openConnection)) ⟨fun _ => none, none⟩ y ∧
      y.yogiGenClose = .error .unset := by
  refine ⟨⟨_, .init rfl, rfl⟩, ?_⟩
  obtain ⟨conn, loading, hinit, hlen, hverb, hformats, hzero⟩ := init_oneVerb
  refine ⟨_, .fetched hinit rfl, (yogiGenClose_eq hlen ?_).2 fun hfilled => ?_⟩
  · rw [hformats, hzero]
    rfl
  · exact hfilled.1 .verb (hverb ▸ List.mem_singleton_self _)

end Yogigen
