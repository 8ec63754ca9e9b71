import Yogigen.Owned
import Yogigen.Pages

/-!
# The Strings of the Request Handlers

`permalink_request_handler` and `getbyid_request_handler`, with the functions of
`yogigen.c` they call, on a store of the strings they create. A string that is never NULL in
the code still goes by a pointer, since the code tests it at its error labels; the value
behind a handle is the text that the string has as a C string. Of the database the code sees
what its two concurrent functions return, and waiting touches no string.

`YogiGen_get_by_id` hands its own argument back when there is no row, and both this function
and the permalink handler go on using a string after they have destroyed it when the
database has failed.

## Main results

* `insertIntoDb_run`, `getById_run`: what the functions of `yogigen.c` do with strings.
* `permalinkRequestHandler_run`, `getbyidRequestHandler_run`: the runs of the handlers.
* `handlers_tidy_iff`: when the handlers destroy every string once and misuse none.
-/

open Printf Owned Owned.Prog

namespace Yogigen

/-! ### Requests and answers -/

/-- The part of `struct mg_request_info` that the handlers read. -/
structure Request where
  method : Bytes
  queryString : Option Bytes
  deriving DecidableEq

/-- What a handler returns, and the page it sends with it. -/
structure Response where
  status : ℕ
  page : Bytes
  deriving DecidableEq

/-- The comparison of `mg_strncasecmp`, for strings that end with their terminator. -/
def mgStrncasecmp : Bytes → Bytes → ℕ → ℤ
  | _, _, 0 => 0
  | s₁, s₂, len + 1 =>
      let diff := ((tolower (s₁.headD 0)).toNat : ℤ) - (tolower (s₂.headD 0)).toNat
      if diff = 0 ∧ s₁.headD 0 ≠ 0 then mgStrncasecmp s₁.tail s₂.tail len else diff

/-- The check that both handlers start with. -/
def isGet (r : Request) : Bool :=
  mgStrncasecmp r.method (ascii "GET") 3 = 0

/-- What one round of `YogiGen_insert_into_db` meets: the bytes of `getrandom`, if it does
not fail, and what `postgres_insert_concurrent` returns. -/
structure Attempt where
  rnd : Option UInt64
  ret : ℤ
  deriving DecidableEq

/-! ### String operations on pointers -/

/-- `bfromcstr`. -/
def newString : Option Bytes → Prog Bytes Pointer
  | none => return none
  | some text => do
      let h ← create (bfromcstr text)
      return some h

/-- `bstrchr`, which finds nothing in NULL. -/
def findByte (p : Pointer) (c : UInt8) : Prog Bytes ℤ :=
  match p with
  | none => return -1
  | some h => do
      let text ← get (some h)
      return bstrchr text c

/-- `bdelete`, which leaves NULL alone. -/
def deleteBytes (p : Pointer) (pos len : ℤ) : Prog Bytes Unit :=
  match p with
  | none => return ()
  | some h => do
      let text ← get (some h)
      put (some h) (bdelete text pos len)

/-- `bstrcpy`, which copies NULL to NULL. -/
def copyString : Pointer → Prog Bytes Pointer
  | none => return none
  | some h => do
      let text ← get (some h)
      let copy ← create text
      return some copy

/-! ### The functions of `yogigen.c` -/

/-- The rounds of `YogiGen_insert_into_db`, and its error label. -/
def insertRounds (query genStr : Pointer) : List Attempt → Prog Bytes UInt64
  | [] => wait
  | attempt :: attempts =>
      match attempt.rnd with
      | none => do
          destroyIf query
          return errorId
      | some rndId =>
          if rndId ≠ errorId then do
            let phrase ← get genStr
            put query (insertQuery rndId phrase)
            let _ ← get query
            if attempt.ret = 0 then do
              destroyIf query
              return errorId
            else if attempt.ret = -1 then insertRounds query genStr attempts
            else do
              destroy query
              return rndId
          else insertRounds query genStr attempts

/-- `YogiGen_insert_into_db`. -/
def insertIntoDb (genStr : Pointer) (attempts : List Attempt) : Prog Bytes UInt64 := do
  let query ← newString (some genSqlInsertTemplate)
  insertRounds query genStr attempts

/-- `YogiGen_get_by_id`, when `postgres_select_concurrent` delivers these rows, or NULL. -/
def getById (idStr : Pointer) (res : Option (List Bytes)) : Prog Bytes Pointer := do
  let query ← newString (some genSqlUpdateReturnTemplate)
  let id ← get idStr
  put query (updateQuery id)
  let _ ← get query
  destroy query
  match res with
  | none => do
      destroyIf query
      return none
  | some [] => do
      let _ ← get idStr
      return idStr
  | some (value :: _) => newString (some value)

/-! ### The handlers -/

/-- `permalink_request_handler`. -/
def permalinkRequestHandler (b : Build) (r : Request) (attempts : List Attempt) :
    Prog Bytes Response :=
  if isGet r then do
    let query ← newString r.queryString
    let pos ← findByte query 61
    deleteBytes query 0 (pos + 1)
    let queryDec ← copyString query
    -- the length of the copy decides the capacity of the decode buffer
    let copy ← get queryDec
    let src ← get query
    put queryDec (cstr (mgUrlDecode src (queryDecMlen copy.length - 1)))
    destroy query
    let insId ← insertIntoDb queryDec attempts
    if insId ≠ errorId then do
      destroy queryDec
      return ⟨200, permalink b insId⟩
    else do
      destroyIf queryDec
      -- the message says what could not be stored
      let _ ← get queryDec
      return ⟨500, []⟩
  else return ⟨405, []⟩

/-- The error label of `getbyid_request_handler` after the method has been checked. -/
def getbyidError (query : Pointer) : Prog Bytes Response := do
  destroyIf query
  return ⟨500, []⟩

/-- The page of `getbyid_request_handler`: its own query as a result means that there is no
row. -/
def getbyidText (query : Pointer) (retString : ℕ) : Prog Bytes Bytes :=
  if some retString = query then do
    let _ ← get query
    return format getbyidTemplate
      [.str (ascii "Sorry, there is nothing in the database matching this link!"),
        .str (ascii "Maybe you could try getting a new one instead?")]
  else do
    let phrase ← get (some retString)
    return format getbyidTemplate [.str phrase, .str (ascii "Get a new one")]

/-- `getbyid_request_handler`; the validation loop is watched for a number of rounds. -/
def getbyidRequestHandler (fuel : ℕ) (r : Request) (res : Option (List Bytes)) :
    Prog Bytes Response :=
  if isGet r then do
    let query ← newString r.queryString
    let text ← get query
    match validate fuel text with
    | none => wait
    | some false => do
        let _ ← get query
        getbyidError query
    | some true => do
        let retString ← getById query res
        match retString with
        | none => getbyidError query
        | some h => do
            let page ← getbyidText query h
            destroy query
            destroyIf (some h)
            return ⟨200, page⟩
  else return ⟨405, []⟩

/-! ### The functions of `yogigen.c` on strings -/

/-- What the rounds amount to: the id they return, once there is one. -/
def rolledId : List Attempt → Option UInt64
  | [] => none
  | attempt :: attempts =>
      match attempt.rnd with
      | none => some errorId
      | some rndId =>
          if rndId ≠ errorId then
            if attempt.ret = 0 then some errorId
            else if attempt.ret = -1 then rolledId attempts
            else some rndId
          else rolledId attempts

/-- The outcome of a program that has a value at last. -/
def outcomeOf {β : Type} (value : Option β) (s : Store Bytes) : Outcome Bytes β :=
  match value with
  | none => .running
  | some b => .done b s

section

variable {s cells : Store Bytes} {i : ℕ} {text : Bytes}

/-- **The rounds** leave the phrase alone, and destroy their query once. -/
theorem insertRounds_run (htext : cells[i]? = some (some text)) (attempts : List Attempt) :
    ∀ {sql : Bytes}, (insertRounds (some (s.length + cells.length)) (some (s.length + i))
      attempts).run (s ++ (cells ++ [some sql])) =
        outcomeOf (rolledId attempts) (s ++ (cells ++ [none])) := by
  have hdestroy : ∀ sql, (destroy (some (s.length + cells.length))).run
      (s ++ (cells ++ [some sql])) = .done () (s ++ (cells ++ [none])) := by
    intro sql
    rw [destroy_append (getElem?_last cells _), set_last]
  have hsend : ∀ sql rndId (f : Prog Bytes UInt64), (do
      let phrase ← get (some (s.length + i))
      put (some (s.length + cells.length)) (insertQuery rndId phrase)
      let _ ← get (some (s.length + cells.length))
      f).run (s ++ (cells ++ [some sql])) =
        f.run (s ++ (cells ++ [some (insertQuery rndId text)])) := by
    intro sql rndId f
    rw [run_bind_done (get_append (getElem?_of_cells htext _)),
      run_bind_done (put_append (getElem?_last cells _) _), set_last,
      run_bind_done (get_append (getElem?_last cells _))]
  induction attempts with
  | nil => exact fun {sql} => rfl
  | cons attempt attempts ih =>
      intro sql
      obtain ⟨rnd, ret⟩ := attempt
      cases rnd with
      | none => exact run_bind_done (hdestroy sql) _
      | some rndId =>
          rw [insertRounds, rolledId]
          dsimp only
          by_cases herr : rndId ≠ errorId
          · rw [if_pos herr, if_pos herr, hsend]
            split_ifs with hzero hagain
            · exact run_bind_done (hdestroy _) _
            · exact ih
            · exact run_bind_done (hdestroy _) _
          · rw [if_neg herr, if_neg herr]
            exact ih

/-- **`YogiGen_insert_into_db`** destroys the string it creates. -/
theorem insertIntoDb_run (htext : cells[i]? = some (some text)) (attempts : List Attempt) :
    (insertIntoDb (some (s.length + i)) attempts).run (s ++ cells) =
      outcomeOf (rolledId attempts) (s ++ (cells ++ [none])) := by
  have hquery : (newString (some genSqlInsertTemplate)).run (s ++ cells) =
      .done (some (s.length + cells.length))
        (s ++ (cells ++ [some (bfromcstr genSqlInsertTemplate)])) :=
    run_bind_done (create_append _ s cells) _
  rw [insertIntoDb, run_bind_done hquery]
  exact insertRounds_run htext attempts

/-- **`YogiGen_get_by_id`** destroys the string it creates, and once more when the database
has failed. Without a row its result is its argument, and else a new string. -/
theorem getById_run (htext : cells[i]? = some (some text)) :
    (getById (some (s.length + i)) none).run (s ++ cells) = .misuse .destroyed ∧
      (getById (some (s.length + i)) (some [])).run (s ++ cells) =
        .done (some (s.length + i)) (s ++ (cells ++ [none])) ∧
      ∀ value rows, (getById (some (s.length + i)) (some (value :: rows))).run (s ++ cells) =
        .done (some (s.length + (cells.length + 1)))
          (s ++ (cells ++ [none, some (bfromcstr value)])) := by
  have hquery : (newString (some genSqlUpdateReturnTemplate)).run (s ++ cells) =
      .done (some (s.length + cells.length))
        (s ++ (cells ++ [some (bfromcstr genSqlUpdateReturnTemplate)])) :=
    run_bind_done (create_append _ s cells) _
  have hsent : ∀ f : Pointer → Prog Bytes Pointer, (do
      let query ← newString (some genSqlUpdateReturnTemplate)
      let id ← get (some (s.length + i))
      put query (updateQuery id)
      let _ ← get query
      destroy query
      f query).run (s ++ cells) =
        (f (some (s.length + cells.length))).run (s ++ (cells ++ [none])) := by
    intro f
    rw [run_bind_done hquery, run_bind_done (get_append (getElem?_of_cells htext _)),
      run_bind_done (put_append (getElem?_last cells _) _), set_last,
      run_bind_done (get_append (getElem?_last cells _)),
      run_bind_done (destroy_append (getElem?_last cells _)), set_last]
  refine ⟨?_, ?_, fun value rows => ?_⟩
  · refine (hsent fun query => do
      destroyIf query
      return none).trans ?_
    exact run_bind_misuse (destroy_destroyed (getElem?_last cells _)) _
  · refine (hsent fun _ => do
      let _ ← get (some (s.length + i))
      return some (s.length + i)).trans ?_
    exact run_bind_done (get_append (getElem?_of_cells htext _)) _
  · refine (hsent fun _ => newString (some value)).trans ?_
    refine (run_bind_done (create_append _ s (cells ++ [none])) _).trans ?_
    rw [List.length_append, List.append_assoc]
    rfl

end

/-! ### The permalink handler -/

/-- A permalink request up to the end of its decoding: the query is destroyed, and the
phrase is in the decode buffer. -/
theorem decoded_run {text : Bytes} (s : Store Bytes) (f : Pointer → Prog Bytes Response) :
    (do
      let query ← newString (some text)
      let pos ← findByte query 61
      deleteBytes query 0 (pos + 1)
      let queryDec ← copyString query
      let copy ← get queryDec
      let src ← get query
      put queryDec (cstr (mgUrlDecode src (queryDecMlen copy.length - 1)))
      destroy query
      f queryDec).run s =
        (f (some (s.length + 1))).run (s ++ [none, some (permalinkPhrase text)]) := by
  have hquery : (newString (some text)).run (s ++ []) =
      .done (some (s.length + 0)) (s ++ [some (bfromcstr text)]) :=
    run_bind_done (create_append _ s []) _
  have hpos : ∀ bytes, (findByte (some (s.length + 0)) 61).run (s ++ [some bytes]) =
      .done (bstrchr bytes 61) (s ++ [some bytes]) :=
    fun bytes => run_bind_done (get_append rfl) _
  have hcut : ∀ bytes pos len, (deleteBytes (some (s.length + 0)) pos len).run
      (s ++ [some bytes]) = .done () (s ++ [some (bdelete bytes pos len)]) := fun bytes pos len =>
    (run_bind_done (get_append rfl) _).trans (put_append rfl _)
  have hcopy : ∀ bytes, (copyString (some (s.length + 0))).run (s ++ [some bytes]) =
      .done (some (s.length + 1)) (s ++ [some bytes, some bytes]) := fun bytes =>
    (run_bind_done (get_append rfl) _).trans (run_bind_done (create_append _ s [some bytes]) _)
  rw [← List.append_nil s, run_bind_done hquery, run_bind_done (hpos _), run_bind_done (hcut _ _ _),
    run_bind_done (hcopy _), run_bind_done (get_append rfl), run_bind_done (get_append rfl),
    run_bind_done (put_append rfl _), run_bind_done (destroy_append rfl)]
  simp only [List.append_nil]
  rfl

/-- A program goes on with the value that another one has at last. -/
theorem next_outcomeOf {β γ : Type} (value : Option β) (s : Store Bytes)
    (f : β → Prog Bytes γ) :
    (outcomeOf value s).next f = value.elim .running fun b => (f b).run s := by
  cases value with
  | none => rfl
  | some b => rfl

/-- **A permalink request** without a query string reads through NULL; when its phrase is
not stored it reads what it has destroyed. -/
theorem permalinkRequestHandler_run (b : Build) {r : Request} (hget : isGet r = true)
    (attempts : List Attempt) (s : Store Bytes) :
    (r.queryString = none → (permalinkRequestHandler b r attempts).run s = .misuse .null) ∧
      ∀ text, r.queryString = some text →
        (rolledId attempts = none →
          (permalinkRequestHandler b r attempts).run s = .running) ∧
        (rolledId attempts = some errorId →
          (permalinkRequestHandler b r attempts).run s = .misuse .destroyed) ∧
        ∀ id, id ≠ errorId → rolledId attempts = some id →
          (permalinkRequestHandler b r attempts).run s =
            .done ⟨200, permalink b id⟩ (s ++ List.replicate 3 none) := by
  rw [permalinkRequestHandler, if_pos hget]
  refine ⟨fun hnone => ?_, fun text htext => ?_⟩
  · rw [hnone]
    rfl
  · have hinsert := @insertIntoDb_run s [none, some (permalinkPhrase text)] 1 _ rfl attempts
    rw [htext, decoded_run, run_bind, hinsert, next_outcomeOf]
    refine ⟨fun hid => ?_, fun hid => ?_, fun id hne hid => ?_⟩
    · rw [hid]
      rfl
    · rw [hid]
      simp only [Option.elim_some, ne_eq, not_true_eq_false, if_false, destroyIf_some]
      refine (run_bind_done (destroy_append rfl) _).trans ?_
      exact run_bind_misuse (get_destroyed rfl) _
    · rw [hid]
      simp only [Option.elim_some, if_pos hne]
      exact run_bind_done (destroy_append rfl) _

/-! ### The handler of stored phrases -/

/-- **A request for a stored phrase** without a query string reads through NULL. When the
database fails, and also when it has no row, a string is destroyed twice. -/
theorem getbyidRequestHandler_run {r : Request} (hget : isGet r = true) (fuel : ℕ)
    (res : Option (List Bytes)) (s : Store Bytes) :
    (r.queryString = none → (getbyidRequestHandler fuel r res).run s = .misuse .null) ∧
      ∀ text, r.queryString = some text →
        (validate fuel (bfromcstr text) = none →
          (getbyidRequestHandler fuel r res).run s = .running) ∧
        (validate fuel (bfromcstr text) = some false →
          (getbyidRequestHandler fuel r res).run s =
            .done ⟨500, []⟩ (s ++ List.replicate 1 none)) ∧
        (validate fuel (bfromcstr text) = some true → (res = none ∨ res = some []) →
          (getbyidRequestHandler fuel r res).run s = .misuse .destroyed) ∧
        ∀ value rows, validate fuel (bfromcstr text) = some true → res = some (value :: rows) →
          (getbyidRequestHandler fuel r res).run s =
            .done ⟨200, getbyidPage (value :: rows)⟩ (s ++ List.replicate 3 none) := by
  rw [getbyidRequestHandler, if_pos hget]
  refine ⟨fun hnone => ?_, fun text htext => ?_⟩
  · rw [hnone]
    rfl
  · have hquery : (newString (some text)).run (s ++ []) =
        .done (some (s.length + 0)) (s ++ [some (bfromcstr text)]) :=
      run_bind_done (create_append _ s []) _
    have hget := @getById_run s [some (bfromcstr text)] 0 _ rfl
    rw [List.append_nil] at hquery
    rw [htext, run_bind_done hquery, run_bind_done (get_append rfl)]
    refine ⟨fun hv => ?_, fun hv => ?_, fun hv hres => ?_, fun value rows hv hres => ?_⟩
    · rw [hv]
      rfl
    · rw [hv]
      refine (run_bind_done (get_append rfl) _).trans ?_
      exact run_bind_done (destroy_append rfl) _
    · rw [hv]
      rcases hres with rfl | rfl
      · exact run_bind_misuse hget.1 _
      · -- the result is the query itself, which is destroyed under both names
        have hpage : (getbyidText (some (s.length + 0)) (s.length + 0)).run
            (s ++ ([some (bfromcstr text)] ++ [none])) =
              .done (getbyidPage []) (s ++ ([some (bfromcstr text)] ++ [none])) := by
          rw [getbyidText, if_pos rfl]
          exact run_bind_done (get_append rfl) _
        refine (run_bind_done hget.2.1 _).trans ?_
        refine (run_bind_done hpage _).trans ?_
        refine (run_bind_done (destroy_append rfl) _).trans ?_
        exact run_bind_misuse (destroy_destroyed rfl) _
    · have hpage : (getbyidText (some (s.length + 0)) (s.length + 2)).run
          (s ++ ([some (bfromcstr text)] ++ [none, some (bfromcstr value)])) =
            .done (getbyidPage (value :: rows))
              (s ++ ([some (bfromcstr text)] ++ [none, some (bfromcstr value)])) := by
        rw [getbyidText, if_neg (by simp)]
        exact run_bind_done (get_append rfl) _
      rw [hv, hres]
      refine (run_bind_done (hget.2.2 value rows) _).trans ?_
      refine (run_bind_done hpage _).trans ?_
      refine (run_bind_done (destroy_append rfl) _).trans ?_
      exact run_bind_done (destroy_append rfl) _

/-! ### When the handlers are tidy -/

/-- A round that is followed by another one. -/
def Attempt.Again (a : Attempt) : Prop :=
  ∃ id, a.rnd = some id ∧ (id = errorId ∨ a.ret = -1)

/-- A round in which `getrandom` or the database fails. -/
def Attempt.Fails (a : Attempt) : Prop :=
  a.rnd = none ∨ ∃ id, a.rnd = some id ∧ id ≠ errorId ∧ a.ret = 0

/-- Rounds that lead to a failure. -/
inductive InsertFails : List Attempt → Prop
  | now {a : Attempt} {attempts : List Attempt} : a.Fails → InsertFails (a :: attempts)
  | later {a : Attempt} {attempts : List Attempt} : a.Again → InsertFails attempts →
      InsertFails (a :: attempts)

/-- The attempts end without an id exactly if an insertion has failed. -/
theorem rolledId_error_iff (attempts : List Attempt) :
    rolledId attempts = some errorId ↔ InsertFails attempts := by
  induction attempts with
  | nil => exact iff_of_false (by simp [rolledId]) fun h => nomatch h
  | cons a attempts ih =>
      obtain ⟨rnd, ret⟩ := a
      cases rnd with
      | none => exact iff_of_true rfl (.now (.inl rfl))
      | some id =>
          rw [rolledId]
          dsimp only
          split_ifs with hid hzero hagain
          · exact iff_of_true rfl (.now (.inr ⟨id, rfl, hid, hzero⟩))
          · rw [ih]
            refine ⟨.later ⟨id, rfl, .inr hagain⟩, fun h => ?_⟩
            cases h with
            | now hfails =>
                rcases hfails with hnone | ⟨_, -, -, hret⟩
                · exact absurd hnone (by simp)
                · exact absurd hret hzero
            | later _ hrest => exact hrest
          · refine iff_of_false (fun h => hid (Option.some.inj h)) fun h => ?_
            cases h with
            | now hfails =>
                rcases hfails with hnone | ⟨_, -, -, hret⟩
                · exact absurd hnone (by simp)
                · exact absurd hret hzero
            | later hlater _ =>
                obtain ⟨_, heq, herr | hret⟩ := hlater
                · exact hid ((Option.some.inj heq).trans herr)
                · exact hagain hret
          · rw [ih]
            refine ⟨.later ⟨id, rfl, .inl (not_not.mp hid)⟩, fun h => ?_⟩
            cases h with
            | now hfails =>
                rcases hfails with hnone | ⟨_, heq, hne, -⟩
                · exact absurd hnone (by simp)
                · obtain rfl := Option.some.inj heq
                  exact absurd hne hid
            | later _ hrest => exact hrest

/-- A permalink request that is tidy. -/
theorem permalinkRequestHandler_tidy_iff (b : Build) (r : Request) (attempts : List Attempt) :
    (permalinkRequestHandler b r attempts).Tidy ↔
      isGet r = false ∨ (r.queryString ≠ none ∧ ¬ InsertFails attempts) := by
  cases hget : isGet r with
  | false =>
      refine iff_of_true (fun s => .inr ⟨⟨405, []⟩, 0, ?_⟩) (.inl rfl)
      rw [permalinkRequestHandler, hget, List.replicate_zero, List.append_nil]
      rfl
  | true =>
      have hrun := permalinkRequestHandler_run b hget attempts
      rw [← rolledId_error_iff]
      constructor
      · intro htidy
        refine .inr ⟨fun hnone => ?_, fun herr => ?_⟩
        · exact not_tidy_of_misuse ((hrun []).1 hnone) htidy
        · cases htext : r.queryString with
          | none => exact not_tidy_of_misuse ((hrun []).1 htext) htidy
          | some text => exact not_tidy_of_misuse (((hrun []).2 text htext).2.1 herr) htidy
      · rintro (hfalse | ⟨hquery, herr⟩) s
        · exact absurd hfalse (by simp)
        · obtain ⟨text, htext⟩ := Option.ne_none_iff_exists'.mp hquery
          obtain ⟨hrunning, -, hdone⟩ := (hrun s).2 text htext
          cases hid : rolledId attempts with
          | none => exact .inl (hrunning hid)
          | some id =>
              have hne : id ≠ errorId := fun heq => herr (heq ▸ hid)
              exact .inr ⟨_, 3, hdone id hne hid⟩

/-- A request for a stored phrase that is tidy, however long its validation is watched. -/
theorem getbyidRequestHandler_tidy_iff (r : Request) (res : Option (List Bytes)) :
    (∀ fuel, (getbyidRequestHandler fuel r res).Tidy) ↔
      isGet r = false ∨ ∃ text, r.queryString = some text ∧
        ((bfromcstr text).length ≤ 255 ∧ (∀ c ∈ bfromcstr text, isxdigit c = true) →
          ∃ value rows, res = some (value :: rows)) := by
  cases hget : isGet r with
  | false =>
      refine iff_of_true (fun fuel s => .inr ⟨⟨405, []⟩, 0, ?_⟩) (.inl rfl)
      rw [getbyidRequestHandler, hget, List.replicate_zero, List.append_nil]
      rfl
  | true =>
      constructor
      · intro htidy
        right
        cases htext : r.queryString with
        | none =>
            have hrun := (getbyidRequestHandler_run hget 0 res []).1 htext
            exact absurd (htidy 0) (not_tidy_of_misuse hrun)
        | some text =>
            refine ⟨text, rfl, fun hvalid => ?_⟩
            obtain ⟨fuel, hfuel⟩ := (validate_eq_true_iff _).mpr hvalid
            have hrun := ((getbyidRequestHandler_run hget fuel res []).2 text htext).2.2.1 hfuel
            rcases res with _ | _ | ⟨value, rows⟩
            · exact absurd (htidy fuel) (not_tidy_of_misuse (hrun (.inl rfl)))
            · exact absurd (htidy fuel) (not_tidy_of_misuse (hrun (.inr rfl)))
            · exact ⟨value, rows, rfl⟩
      · rintro (hfalse | ⟨text, htext, hrows⟩) fuel s
        · exact absurd hfalse (by simp)
        · obtain ⟨hrunning, hrejected, -, hdone⟩ :=
            (getbyidRequestHandler_run hget fuel res s).2 text htext
          cases hv : validate fuel (bfromcstr text) with
          | none => exact .inl (hrunning hv)
          | some answer =>
              cases answer with
              | false => exact .inr ⟨_, 1, hrejected hv⟩
              | true =>
                  obtain ⟨value, rows, rfl⟩ := hrows ((validate_eq_true_iff _).mp ⟨fuel, hv⟩)
                  exact .inr ⟨_, 3, hdone value rows hv rfl⟩

/-- **When the handlers are tidy.** They destroy each string they create once, and read and
destroy nothing else, exactly on requests with another method and on those that have a query
string and, for a permalink, rounds that do not fail, or, for a stored phrase, a row as soon
as the query string is valid. -/
theorem handlers_tidy_iff (b : Build) (r : Request) :
    (∀ attempts, (permalinkRequestHandler b r attempts).Tidy ↔
      isGet r = false ∨ (r.queryString ≠ none ∧ ¬ InsertFails attempts)) ∧
    ∀ res, (∀ fuel, (getbyidRequestHandler fuel r res).Tidy) ↔
      isGet r = false ∨ ∃ text, r.queryString = some text ∧
        ((bfromcstr text).length ≤ 255 ∧ (∀ c ∈ bfromcstr text, isxdigit c = true) →
          ∃ value rows, res = some (value :: rows)) :=
  ⟨permalinkRequestHandler_tidy_iff b r, getbyidRequestHandler_tidy_iff r⟩

/-- The link of an id that is not stored, or the same link while the database is away; a
request without a query string; and a phrase that the database does not store. -/
theorem handlers_misuse :
    (getbyidRequestHandler 2 ⟨ascii "GET", some (ascii "7")⟩ (some [])).run [] =
        .misuse .destroyed ∧
      (getbyidRequestHandler 2 ⟨ascii "GET", some (ascii "7")⟩ none).run [] =
        .misuse .destroyed ∧
      (getbyidRequestHandler 2 ⟨ascii "GET", none⟩ none).run [] = .misuse .null ∧
      (permalinkRequestHandler ⟨false, false⟩ ⟨ascii "GET", none⟩ []).run [] = .misuse .null ∧
      (permalinkRequestHandler ⟨false, false⟩ ⟨ascii "GET", some (ascii "linkfor=Om")⟩
        [⟨some 7, 0⟩]).run [] = .misuse .destroyed := by
  decide +kernel

end Yogigen
