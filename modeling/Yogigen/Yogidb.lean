import Yogigen.Bstring
import Yogigen.Supply

/-!
# The Database Client (`yogidb.c`)

The functions of `yogidb.c` that handler threads call, embedded statement by statement.
Everything they learn from outside is the outcome of a libpq, `poll` or `select` call,
so each is a `Supply.Reader` on a supply of C `int` outcomes: pointers are `0` for NULL
and nonzero otherwise, status calls give the enumeration value, `poll` and `select`
their return value. The outcomes are consumed in the order of the calls, those whose
value the code throws away included.

A `World` is the shared `Connection` together with a log of what happened to the objects
libpq hands out: acquired, released, and, where the code looks at a variable that was
never set, the read of that variable. The log never influences a computation.

`goto error` is an early `return` of the error label's work, which is a definition of
its own where a function has one (`selectError`, `insertError`).

`postgres_select_concurrent` is embedded for any `Client`, which says what each of its
calls does: one that is given the outcomes, or one that talks to a connection.
-/

open Supply Supply.Reader

namespace Yogigen

/-- An object handed out by libpq. -/
abbrev Handle := ℕ

/-! ### The shared connection record -/

/-- `MAX_CONN_NUMBER`. -/
def maxConnNumber : UInt8 := 20

/-- `struct connection`. -/
structure Connection where
  db : Option Handle
  connInfo : Bytes
  connCount : UInt8
  maxConn : UInt8
  curMax : UInt8
  deriving DecidableEq

/-- `if (++conn->conn_count > conn->cur_max) conn->cur_max = conn->conn_count`. -/
def Connection.countUp (c : Connection) : Connection :=
  { c with
    connCount := c.connCount + 1
    curMax := if c.connCount + 1 > c.curMax then c.connCount + 1 else c.curMax }

/-- `conn->conn_count--`. -/
def Connection.countDown (c : Connection) : Connection :=
  { c with connCount := c.connCount - 1 }

/-! ### The log of libpq objects -/

/-- The kinds of objects libpq hands out. -/
inductive Resource
  | conn
  | result
  | notify
  deriving DecidableEq

/-- What can happen to an object or to a variable that should hold one. -/
inductive Event
  | acquire (r : Resource) (h : Handle)
  | release (r : Resource) (h : Handle)
  | readUnset (r : Resource)
  | releaseWild (r : Resource)
  deriving DecidableEq

/-- The connection record and the history of the objects obtained so far. -/
structure World where
  conn : Connection
  nextHandle : Handle
  log : List Event
  deriving DecidableEq

/-- Programs over libpq outcomes. They have no errors of their own. -/
abbrev Pq := Reader ℤ Empty

namespace World

/-- Another event is logged. -/
def record (w : World) (e : Event) : World :=
  { w with log := w.log ++ [e] }

/-- The world after libpq handed out a new object, whose handle is `w.nextHandle`. -/
def acquire (w : World) (r : Resource) : World :=
  { w with nextHandle := w.nextHandle + 1, log := w.log ++ [.acquire r w.nextHandle] }

/-- A connection is counted. -/
def countUp (w : World) : World :=
  { w with conn := w.conn.countUp }

/-- `PQfinish(db); conn->conn_count--`. -/
def finish (w : World) (h : Handle) : World :=
  { w with conn := w.conn.countDown, log := w.log ++ [.release .conn h] }

/-- `if (res) PQclear(res)`. -/
def clear (w : World) : Option Handle → World
  | none => w
  | some h => w.record (.release .result h)

end World

/-! ### libpq calls -/

/-- A libpq call that returns a new object or NULL, made by `call`. -/
def pointerCallOn {m : Type → Type} [Monad m] (call : m ℤ) (r : Resource) (w : World) :
    m (Option Handle × World) := do
  let p ← call
  if p = 0 then return (none, w) else return (some w.nextHandle, w.acquire r)

/-- A libpq call that returns a new object or NULL. -/
def pointerCall : Resource → World → Pq (Option Handle × World) :=
  pointerCallOn next

/-- `CONNECTION_BAD`. -/
def connectionBad : ℤ := 1
/-- `PGRES_POLLING_FAILED`. -/
def pollingFailed : ℤ := 0
/-- `PGRES_POLLING_WRITING`. -/
def pollingWriting : ℤ := 2
/-- `PGRES_POLLING_OK`. -/
def pollingOk : ℤ := 3
/-- `PGRES_COMMAND_OK`. -/
def commandOk : ℤ := 1
/-- `PGRES_TUPLES_OK`. -/
def tuplesOk : ℤ := 2
/-- `PGRES_FATAL_ERROR`, which is also the status of a NULL result. -/
def fatalError : ℤ := 7

/-- `PQresultStatus`, which asks `call` for the status of a result that is there. -/
def resultStatusOn {m : Type → Type} [Monad m] (call : m ℤ) : Option Handle → m ℤ
  | none => return fatalError
  | some _ => call

/-- `PQresultStatus`. -/
def resultStatus : Option Handle → Pq ℤ :=
  resultStatusOn next

/-! ### Opening a connection -/

/-- One iteration of the polling loop of `pg_open_nonblocking_conn`; `false` is a jump to
the error label. The return value of `poll` is not stored, so the checks after it test
the polling status of the previous iteration. -/
def openBody (ret : ℤ) : Pq (ℤ ⊕ Bool) := do
  let _ ← next
  if ret = -1 then return .inr false
  else if ret = 0 then return .inr false
  else do
    let ret ← next
    if ret = pollingFailed then return .inr false
    else if ret = pollingOk then return .inr true
    else return .inl ret

/-- `pg_open_nonblocking_conn`. The error label finishes any PGconn and decrements the
counter, also when the increment was not reached. -/
def pgOpenNonblockingConn (w : World) : Pq (Option Handle × World) := do
  let (db, w) ← pointerCall .conn w
  match db with
  | none => return (none, w)
  | some h => do
      let status ← next
      if status = connectionBad then return (none, w.finish h)
      else do
        let w := w.countUp
        let ok ← loop openBody pollingWriting
        if ok = false then return (none, w.finish h)
        else do
          let nonblocking ← next
          if nonblocking = 0 then do
            let ret ← next
            if ret = -1 then return (none, w.finish h) else return (some h, w)
          else return (some h, w)

/-! ### Selecting -/

/-- The calls `postgres_select_concurrent` makes on an open connection, the look at
`revents` among them. -/
inductive SelectCall
  | sendQuery
  | poll
  | revents
  | consumeInput
  | isBusy
  | getResult
  | resultStatus
  deriving DecidableEq

/-- How the calls of a program in `m` are carried out, and how its loops are run. -/
structure Client (m : Type → Type) where
  call : SelectCall → m ℤ
  iterate {σ α : Type} : (σ → m (σ ⊕ α)) → σ → m α

/-- The client that is given the outcomes of its calls, in their order. -/
def Client.given : Client Pq where
  call _ := next
  iterate := loop

section On

variable {m : Type → Type} [Monad m] (client : Client m)

/-- `while (ret) { sleep(1); ret = PQisBusy(db); }`. -/
def busyBodyOn (_ : Unit) : m (Unit ⊕ Unit) := do
  let ret ← client.call .isBusy
  if ret = 0 then return .inr () else return .inl ()

/-- One iteration of the attempts loop of `postgres_select_concurrent` with `i` attempts
left; `none` is a jump to the error label, `some i` leaves the loop. -/
def selectBodyOn (i : UInt8) : m (UInt8 ⊕ Option UInt8) := do
  let ret ← client.call .poll
  let i := i - 1
  if ret = -1 then return .inr none
  else if ret = 0 then
    -- a timeout: the loop condition is `i`
    if i = 0 then return .inr (some i) else return .inl i
  else do
    let revents ← client.call .revents
    if revents = 0 then return .inr none
    else do
      let ret ← client.call .consumeInput
      if ret = 0 then return .inr none
      else do
        let _ ← client.iterate (busyBodyOn client) ()
        return .inr (some i)

/-- The error label of `postgres_select_concurrent` once the connection is open. -/
def selectError (w : World) (db : Handle) (res : Option Handle) : World :=
  (w.clear res).finish db

/-- `postgres_select_concurrent` once the query was sent. -/
def receiveOn (w : World) (db : Handle) : m (Option Handle × World) := do
  let left ← client.iterate (selectBodyOn client) 3
  match left with
  | none => return (none, selectError w db none)
  | some i =>
      if i = 0 then return (none, selectError w db none)
      else do
        let (res, w) ← pointerCallOn (client.call .getResult) .result w
        let status ← resultStatusOn (client.call .resultStatus) res
        if status = tuplesOk then return (res, w.finish db)
        else return (none, selectError w db res)

/-- `postgres_select_concurrent` after `opened`, its attempt to open a connection. -/
def postgresSelectConcurrentOn (opened : m (Option Handle × World)) :
    m (Option Handle × World) := do
  let (db, w) ← opened
  match db with
  | none => return (none, w)
  | some db => do
      let ret ← client.call .sendQuery
      if ret = 0 then return (none, selectError w db none) else receiveOn client w db

end On

/-- `busyBodyOn` on given outcomes. -/
def busyBody : Unit → Pq (Unit ⊕ Unit) :=
  busyBodyOn .given

/-- `selectBodyOn` on given outcomes. -/
def selectBody : UInt8 → Pq (UInt8 ⊕ Option UInt8) :=
  selectBodyOn .given

/-- `postgres_select_concurrent`, on given outcomes. -/
def postgresSelectConcurrent (w : World) : Pq (Option Handle × World) :=
  postgresSelectConcurrentOn .given (pgOpenNonblockingConn w)

/-! ### Inserting -/

/-- A local pointer variable: not yet assigned, NULL, or holding an object. -/
inductive Var
  | unset
  | null
  | held (h : Handle)
  deriving DecidableEq

/-- One iteration of the wait loop of `postgres_insert_concurrent`, with what `notify`
holds; a jump to the error label leaves with that value. -/
def waitBody (w : World) (notify : Var) : Pq (Var ⊕ (Var ⊕ Handle × World)) := do
  let sock ← next
  if sock < 0 then return .inr (.inl notify)
  else do
    let ret ← next
    if ret < 0 then return .inr (.inl notify)
    else do
      let _ ← next
      let (n, w) ← pointerCall .notify w
      match n with
      | none => return .inl .null
      | some h => return .inr (.inr (h, w))

/-- `if (notify) PQfreemem(notify)`. A variable that was never set holds whatever was in
its place before, which the next outcome decides. -/
def freeNotify (w : World) : Var → Pq World
  | .unset => do
      let garbage ← next
      if garbage = 0 then return w.record (.readUnset .notify)
      else return (w.record (.readUnset .notify)).record (.releaseWild .notify)
  | .null => return w
  | .held h => return w.record (.release .notify h)

/-- The error label of `postgres_insert_concurrent`. -/
def insertError (w : World) (db res : Option Handle) (notify : Var) : Pq (ℤ × World) := do
  let w ← freeNotify (w.clear res) notify
  match db with
  | none => return (0, w)
  | some h => return (0, w.finish h)

/-- What the first notification makes of `strcmp(notify->extra, "err")`. -/
def notifyCode (cmp : ℤ) : ℤ :=
  if cmp = 0 then -1 else cmp

/-- `postgres_insert_concurrent`. The result of `LISTEN` stays in `res` after it has been
cleared. -/
def postgresInsertConcurrent (w : World) : Pq (ℤ × World) := do
  let (db, w) ← pgOpenNonblockingConn w
  match db with
  | none => insertError w none none .unset
  | some db => do
      let (res, w) ← pointerCall .result w
      let status ← resultStatus res
      if status ≠ commandOk then insertError w (some db) res .unset
      else do
        let w := w.clear res
        let ret ← next
        if ret = 0 then insertError w (some db) res .unset
        else do
          let left ← loop (waitBody w) .unset
          match left with
          | .inl notify => insertError w (some db) res notify
          | .inr (h, w) => do
              let cmp ← next
              return (notifyCode cmp, (w.record (.release .notify h)).finish db)

/-! ### The loading connection -/

/-- The connection record `open_conn` fills in before it connects. -/
def World.init (connInfo : Bytes) : World where
  conn :=
    { db := none, connInfo := connInfo, connCount := 0, maxConn := maxConnNumber, curMax := 0 }
  nextHandle := 0
  log := []

/-- `open_conn`: `none` when it returns NULL. -/
def openConn (connInfo : Bytes) : Pq (Option World) := do
  let (db, w) ← pgOpenNonblockingConn (World.init connInfo)
  match db with
  | none => return none
  | some h => return some { w with conn := { w.conn with db := some h } }

/-- `close_nonblocking_conn`. -/
def closeNonblockingConn (w : World) : World :=
  match w.conn.db with
  | none => w
  | some h => { w.finish h with conn := { (w.finish h).conn with db := none } }

end Yogigen
