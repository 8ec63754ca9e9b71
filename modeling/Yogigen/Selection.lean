import Yogigen.Format
import Yogigen.Supply

/-!
# Choosing Expressions

`random_formats`, `random_expression_id` and `process_formats`, as readers on a supply of
`getrandom` results (`none` for a failure). A modulus by zero, an index outside an array
and a use of released memory are faults; `UINT16_MAX` and NULL are results.

A slot is a type and an index within it: the first position of a slot draws an
expression, later ones repeat it.
-/

open Supply Supply.Reader

namespace Yogigen

/-- What the language leaves undefined. -/
inductive Fault
  | moduloZero
  | outOfBounds
  | useAfterFree
  deriving DecidableEq

/-- Programs over random draws. -/
abbrev Gen := Reader (Option UInt16) Fault

/-- `UINT16_MAX`, the index reserved for errors. -/
def errorIdx : UInt16 := 0xFFFF

/-! ### Formats -/

/-- `get_formats`. -/
def getFormats (y : YogiGen) (idx : UInt16) : Option FormatString :=
  if idx < y.formats.count then y.formats.entries[idx.toNat]? else none

/-- `random_formats`. -/
def randomFormats (y : YogiGen) : Gen (Option FormatString) := do
  let rnd ← next
  match rnd with
  | none => return none
  | some rnd =>
      if y.formats.count = 0 then fail .moduloZero
      else return getFormats y (rnd % y.formats.count)

/-! ### Expressions -/

/-- `get_expression`. -/
def getExpression (y : YogiGen) (idx : UInt16) (type : ExprType) : Option Expression :=
  if idx < (y.table type).count then (y.table type).entries[idx.toNat]? else none

/-- A used id of the type equals the drawn one. Unassigned ids are `-1`. -/
def clashes (usedIds : Fin 4 → Int16) (resId : UInt16) : Bool :=
  decide (∃ k, 0 ≤ usedIds k ∧ (usedIds k).toInt = resId.toNat)

/-- The `FSTR_UNIQUE` loop up to the next draw; a draw starts the comparison afresh. -/
def uniqueBody (limit : UInt16) (usedIds : Fin 4 → Int16) (resId : UInt16) :
    Gen (UInt16 ⊕ UInt16) :=
  if clashes usedIds resId then do
    let rnd ← next
    match rnd with
    | none => return .inr errorIdx
    | some rnd => return .inl (rnd % limit)
  else return .inr resId

/-- The forward scan: the first verb from the given position on that needs a postposition
everywhere but before an object. `none` is a read past the end. -/
def forwardScan : List Expression → UInt16 → Option UInt16
  | [], _ => none
  | e :: es, i => if e.flags < vflagNpostpObjOk then forwardScan es (i + 1) else some i

/-- The backward scan: the last verb up to an index that does not. `none` is a read outside
the verbs; from index zero the next one is 65535. -/
def backwardScan (verbs : List Expression) : ℕ → Option UInt16
  | 0 =>
      match verbs[0]? with
      | some e => if vflagNpostpAllOk < e.flags then none else some 0
      | none => none
  | i + 1 =>
      match verbs[i + 1]? with
      | some e => if vflagNpostpAllOk < e.flags then backwardScan verbs i else some (.ofNat (i + 1))
      | none => none

/-- What the post-position flags make of a draw. -/
def postposId (flag : FstrFlag) (limit posX posY rnd : UInt16) : UInt16 :=
  if flag = .postposObj then
    let limit := limit - posY
    let limit := if limit = 0 then limit + 1 else limit
    rnd % limit + posY
  else
    let span := posY - posX
    let span := if span = 0 then span + 1 else span
    rnd % span + posX

/-- The post-position branch of `random_expression_id`. Both scans read the verbs,
whatever the type is, but the second one starts at the limit of the type. -/
def randomPostpos (y : YogiGen) (limit : UInt16) (flag : FstrFlag) : Gen UInt16 :=
  match forwardScan (y.verbs.entries.drop 1) 1 with
  | none => fail .outOfBounds
  | some posX =>
      match backwardScan y.verbs.entries (limit.toNat - 1) with
      | none => fail .outOfBounds
      | some i => do
          let rnd ← next
          match rnd with
          | none => return errorIdx
          | some rnd => return postposId flag limit posX (i + 1) rnd

/-- The flag check and handling of `random_expression_id`, for an id that has been drawn. -/
def handleFlag (y : YogiGen) (limit : UInt16) (flag : FstrFlag) (usedIds : Fin 4 → Int16)
    (resId : UInt16) : Gen UInt16 :=
  match flag with
  | .noFlags => return resId
  | .unique => loop (uniqueBody limit usedIds) resId
  | .postposCept | .postposAll | .postposObj => randomPostpos y limit flag
  | .indefArt | .flag6 | .flag7 => return errorIdx

/-- `random_expression_id`. -/
def randomExpressionId (y : YogiGen) (type : ExprType) (flag : FstrFlag)
    (usedIds : Fin 4 → Int16) : Gen UInt16 := do
  let limit := (y.table type).count
  let rnd ← next
  match rnd with
  | none => return errorIdx
  | some rnd =>
      if limit = 0 then fail .moduloZero else handleFlag y limit flag usedIds (rnd % limit)

/-! ### Substitution data -/

/-- `struct substitution_data`. -/
structure SubstitutionData where
  str : Bytes
  count : Int8
  typewiseIdx : ExprType → Fin 4 → Int16
  types : Fin 8 → ExprType
  modes : Fin 8 → Bool
  flags : Fin 8 → FstrFlag
  ins : Fin 8 → Int16

namespace SubstitutionData

/-- `s_data_build`. -/
def build : SubstitutionData where
  str := []
  count := 0
  typewiseIdx _ _ := -1
  types _ := .verb
  modes _ := false
  flags _ := .noFlags
  ins _ := -1

/-- The slot of a descriptor. -/
def slot (s : SubstitutionData) (d : Descriptor) : Int16 :=
  s.typewiseIdx d.type d.typeIdx

/-- Position `i` gets the type and mode of its descriptor and an expression. -/
def place (s : SubstitutionData) (i : Fin 8) (d : Descriptor) (exprI : Int16) :
    SubstitutionData :=
  { s with
    types := Function.update s.types i d.type
    modes := Function.update s.modes i d.mode
    ins := Function.update s.ins i exprI }

/-- The first position of a slot: the slot is assigned, and an article is noted. -/
def assign (s : SubstitutionData) (i : Fin 8) (d : Descriptor) (exprI : UInt16) :
    SubstitutionData :=
  { s.place i d exprI.toInt16 with
    typewiseIdx := Function.update s.typewiseIdx d.type
      (Function.update (s.typewiseIdx d.type) d.typeIdx exprI.toInt16)
    flags := if d.flag = .indefArt then Function.update s.flags i .indefArt else s.flags }

/-- The format the data belongs to. -/
def withFormat (s : SubstitutionData) (f : FormatString) : SubstitutionData :=
  { s with
    str := f.str
    count := f.count.toInt8 }

end SubstitutionData

/-! ### Processing a format -/

/-- How `process_formats` asks for the expression of an unassigned slot; `none` is the
sentinel for a reserved flag. -/
def chooseExpression (y : YogiGen) (d : Descriptor) (s : SubstitutionData) :
    Gen (Option UInt16) :=
  match d.flag with
  | .noFlags | .indefArt => do
      let exprI ← randomExpressionId y d.type .noFlags fun _ => -1
      return some exprI
  | .unique => do
      let exprI ← randomExpressionId y d.type .unique (s.typewiseIdx d.type)
      return some exprI
  | .postposCept | .postposAll | .postposObj => do
      let exprI ← randomExpressionId y d.type d.flag fun _ => -1
      return some exprI
  | .flag6 | .flag7 => return none

/-- One iteration of the loop of `process_formats`. -/
def processStep (y : YogiGen) (data : UInt64) (i : Fin 8) (s : SubstitutionData) :
    Gen (Option SubstitutionData) :=
  let d := decodeByte (byteOf data i)
  if s.slot d = -1 then do
    let chosen ← chooseExpression y d s
    match chosen with
    | none => return none
    | some exprI => if exprI = errorIdx then return none else return some (s.assign i d exprI)
  else return some (s.place i d (s.slot d))

/-- The loop of `process_formats` from position `i`, with `n` positions left. The data word
and the arrays have eight entries. -/
def processLoop (y : YogiGen) (data : UInt64) :
    ℕ → ℕ → SubstitutionData → Gen (Option SubstitutionData)
  | 0, _, s => return some s
  | n + 1, i, s =>
      if hi : i < 8 then do
        let step ← processStep y data ⟨i, hi⟩ s
        match step with
        | none => return none
        | some s => processLoop y data n (i + 1) s
      else fail .outOfBounds

/-- `process_formats`. -/
def processFormats (y : YogiGen) (f : FormatString) : Gen (Option SubstitutionData) := do
  let s ← processLoop y f.data f.count.toNat 0 .build
  match s with
  | none => return none
  | some s => return some (s.withFormat f)

end Yogigen
