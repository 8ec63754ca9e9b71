import Yogigen.Links
import Yogigen.Notifier
import Yogigen.Outcomes

/-!
# What the Server Sends

`postgres_insert_concurrent` and `postgres_select_concurrent` send a statement and wait for
what comes back. Here the outcomes of their calls are those of a server that answers: the
messages of a reply reach the socket in arrivals, each of which makes it readable once, and
`select` blocks for ever after the last of them; or the bytes of a reply reach a connection
in segments, any number of which may arrive before any of the calls, and each call finds
and leaves the connection in some state.

An `INSERT` that commits is answered by its result and, through the rules on `Generated`,
by the notifications `ok` and `err`. One that aborts is answered by an error message and by
no notification, and `postgres_insert_concurrent` looks at nothing else. A select takes in
what has arrived once, and then asks whether that was all of it until it is.

## Main results

* `insert_reports_iff`: the outcome of an `INSERT` is reported if and only if it commits.
* `select_receives_iff`: a result is received if and only if all of it had arrived when
  `PQconsumeInput` was called and its status is `PGRES_TUPLES_OK`.
-/

open Supply Supply.Reader Printf

namespace Yogigen

/-! ### The reply to an `INSERT` -/

/-- What becomes of an `INSERT`. -/
inductive Verdict
  | committed
  | duplicate
  | failed
  deriving DecidableEq

/-- The verdict on the statement that stores a phrase under an id, given the statements
PostgreSQL refuses for another reason than the key. -/
def verdict (sqlError : Generated → Bytes → Bool) (g : Generated) (id : UInt64)
    (phrase : Bytes) : Verdict :=
  if sqlError g (insertQuery id phrase) then .failed
  else if (g.insert id.toInt64 phrase).isSome then .committed
  else .duplicate

/-- What PostgreSQL sends to a session. -/
inductive Message
  | result
  | error
  | notification (payload : Bytes)
  deriving DecidableEq

/-- What the session of an `INSERT` is sent, the only one there is. -/
def reply : Verdict → List Message
  | .committed => .result :: notifyRules.map .notification
  | .duplicate => [.error]
  | .failed => [.error]

/-- What `PQnotifies` finds in messages. -/
def notes (messages : List Message) : List Bytes :=
  messages.filterMap fun
    | .notification payload => some payload
    | _ => none

/-- The outcomes of the calls in the wait loop, and of the comparison after it, while
messages arrive: `select` returns once for each arrival, `PQnotifies` finds the first
notification among what has arrived. After the last arrival `select` does not return. -/
inductive Waits : List (List Message) → List ℤ → Prop
  | blocked {sock : ℤ} (hsock : 0 ≤ sock) : Waits [] [sock]
  | quiet {sock ret : ℤ} (consumed : ℤ) {arrival : List Message}
      {arrivals : List (List Message)} {outcomes : List ℤ} (hsock : 0 ≤ sock) (hret : 0 ≤ ret)
      (hnote : notes arrival = []) (h : Waits arrivals outcomes) :
      Waits (arrival :: arrivals) (sock :: ret :: consumed :: 0 :: outcomes)
  | notified {sock ret : ℤ} (consumed : ℤ) {object cmp : ℤ} {arrival : List Message}
      (arrivals : List (List Message)) {note : Bytes} {rest : List Bytes} (hsock : 0 ≤ sock)
      (hret : 0 ≤ ret) (hnote : notes arrival = note :: rest) (hobject : object ≠ 0)
      (hcmp : cmp.sign = strcmp note (ascii "err")) :
      Waits (arrival :: arrivals) [sock, ret, consumed, object, cmp]

/-- The outcomes of a `postgres_insert_concurrent` whose calls do not fail on the client's
side. -/
def Session (arrivals : List (List Message)) (outcomes : List ℤ) : Prop :=
  ∃ opening object sent wait, outcomes = opening ++ object :: commandOk :: sent :: wait ∧
    Opens opening ∧ object ≠ 0 ∧ sent ≠ 0 ∧ Waits arrivals wait

/-- What `postgres_insert_concurrent` is to return. -/
def Reports : Verdict → ℤ → Prop
  | .committed, ret => 0 < ret
  | .duplicate, ret => ret = -1
  | .failed, ret => ret = 0

/-- An insertion is committed when its statement can be executed and the key is new. -/
theorem verdict_eq_committed_iff {sqlError : Generated → Bytes → Bool} {g : Generated}
    {id : UInt64} {phrase : Bytes} :
    verdict sqlError g id phrase = .committed ↔
      sqlError g (insertQuery id phrase) = false ∧ id.toInt64 ∉ g.rows.map Prod.fst := by
  rw [verdict, Generated.insert]
  split_ifs with herr hmem hsome
  all_goals simp_all

/-- Nothing is notified unless it is. -/
theorem notes_reply_eq_nil {v : Verdict} (h : v ≠ .committed) : notes (reply v) = [] := by
  cases v with
  | committed => exact absurd rfl h
  | duplicate => rfl
  | failed => rfl

/-- The notifications of one arrival after another. -/
theorem notes_flatten_cons (arrival : List Message) (arrivals : List (List Message)) :
    notes (arrival :: arrivals).flatten = notes arrival ++ notes arrivals.flatten := by
  simp [notes]

/-- The result of `strcmp` is its own sign. -/
theorem sign_strcmp (a b : Bytes) : (strcmp a b).sign = strcmp a b := by
  induction a generalizing b with
  | nil => cases b <;> rfl
  | cons x a ih =>
      cases b with
      | nil => rfl
      | cons y b =>
          rw [strcmp]
          split_ifs
          · exact ih b
          · rfl
          · rfl

/-- Whatever the arrivals, there are outcomes. -/
theorem exists_session (arrivals : List (List Message)) :
    ∃ outcomes, Session arrivals outcomes := by
  have hwaits : ∃ wait, Waits arrivals wait := by
    induction arrivals with
    | nil => exact ⟨[0], .blocked le_rfl⟩
    | cons arrival arrivals ih =>
        cases hnote : notes arrival with
        | nil =>
            obtain ⟨outcomes, h⟩ := ih
            exact ⟨_, .quiet 1 (le_refl 0) (le_refl 0) hnote h⟩
        | cons note rest =>
            exact ⟨[0, 0, 1, 1, strcmp note (ascii "err")],
              .notified 1 arrivals le_rfl le_rfl hnote (by decide) (sign_strcmp ..)⟩
  obtain ⟨wait, hwait⟩ := hwaits
  exact ⟨[1, 0, 1, 3, 1] ++ 1 :: commandOk :: 1 :: wait, [1, 0, 1, 3, 1], 1, 1, wait, rfl,
    opens_at_once,
    by decide, by decide, hwait⟩

/-- The first notification ends the wait loop, in whichever arrival it comes. -/
theorem Waits.wakes {arrivals : List (List Message)} {wait : List ℤ} {note : Bytes}
    {rest : List Bytes} (h : Waits arrivals wait) (hnotes : notes arrivals.flatten = note :: rest) :
    ∃ wakeups cmp, wait = wakeups ++ [cmp] ∧ Wakes wakeups ∧
      cmp.sign = strcmp note (ascii "err") := by
  induction h with
  | blocked hsock => exact absurd hnotes (by simp [notes])
  | @quiet sock ret consumed arrival arrivals outcomes hsock hret hnote h ih =>
      rw [notes_flatten_cons, hnote] at hnotes
      obtain ⟨wakeups, cmp, rfl, hwakes, hcmp⟩ := ih hnotes
      exact ⟨sock :: ret :: consumed :: 0 :: wakeups, cmp, rfl,
        .again consumed hsock hret hwakes, hcmp⟩
  | @notified sock ret consumed object cmp arrival arrivals note' rest' hsock hret hnote hobject
      hcmp =>
      rw [notes_flatten_cons, hnote] at hnotes
      obtain ⟨rfl, -⟩ := List.cons.inj hnotes
      exact ⟨[sock, ret, consumed, object], cmp, rfl,
        .notified consumed hsock hret hobject, hcmp⟩

/-- Without a notification the wait loop ends in a `select` that does not return. -/
theorem Waits.starved {arrivals : List (List Message)} {wait : List ℤ} (w : World)
    (h : Waits arrivals wait) (hnotes : notes arrivals.flatten = []) :
    ∀ {notify : Var}, (loop (waitBody w) notify).run wait = .starved := by
  induction h with
  | @blocked sock hsock =>
      intro notify
      refine run_loop_starved ?_
      rw [waitBody, run_bind, run_next_cons]
      dsimp only
      rw [if_neg (by omega)]
      rfl
  | @quiet sock ret consumed arrival arrivals outcomes hsock hret hnote h ih =>
      intro notify
      rw [notes_flatten_cons, hnote] at hnotes
      have hbody := yields_waitBody w notify consumed 0 hsock hret
      exact (run_loop_again hbody (by simp) outcomes).trans (ih hnotes)
  | @notified sock ret consumed object cmp arrival arrivals note rest hsock hret hnote hobject
      hcmp =>
      rw [notes_flatten_cons, hnote] at hnotes
      exact absurd hnotes (by simp)

/-- In a session with a notification the outcomes are those of an insertion without a failing call.
-/
theorem Session.uninterrupted {arrivals : List (List Message)} {outcomes : List ℤ} {note : Bytes}
    {rest : List Bytes} (h : Session arrivals outcomes)
    (hnotes : notes arrivals.flatten = note :: rest) :
    ∃ cmp, Uninterrupted outcomes cmp ∧ cmp.sign = strcmp note (ascii "err") := by
  obtain ⟨opening, object, sent, wait, rfl, hopen, hobject, hsent, hwait⟩ := h
  obtain ⟨wakeups, cmp, rfl, hwakes, hcmp⟩ := hwait.wakes hnotes
  exact ⟨cmp, ⟨opening, object, sent, wakeups, rfl, hopen, hobject, hsent, hwakes⟩, hcmp⟩

/-- A session that is not notified never gets out of its wait loop. -/
theorem Session.starved {arrivals : List (List Message)} {outcomes : List ℤ}
    (h : Session arrivals outcomes) (hnotes : notes arrivals.flatten = []) (w : World) :
    (postgresInsertConcurrent w).run outcomes = .starved := by
  obtain ⟨opening, object, sent, wait, rfl, hopen, hobject, hsent, hwait⟩ := h
  have hopened : (pgOpenNonblockingConn w).Yields opening
      (some w.nextHandle, (w.acquire .conn).countUp) :=
    pgOpen_some_iff.mpr ⟨hopen, rfl, rfl⟩
  rw [postgresInsertConcurrent, hopened.run_bind]
  simp only [pointerCall, pointerCallOn, resultStatus, resultStatusOn, run_bind,
    run_next_cons, if_neg hobject, run_pure,
    if_neg (not_not_intro (rfl : commandOk = commandOk)), if_neg hsent, hwait.starved _ hnotes]

/-- **The outcome of the `INSERT`.** Whatever the table, the id, the phrase and the way the
messages arrive, with no failure on the client's side `postgres_insert_concurrent` reports
the outcome of its own `INSERT` if and only if it commits, that is, if the statement has no
error and the id is not a key already; otherwise it never returns. -/
theorem insert_reports_iff {sqlError : Generated → Bytes → Bool} {g : Generated} {id : UInt64}
    {phrase : Bytes} {arrivals : List (List Message)}
    (harrivals : arrivals.flatten = reply (verdict sqlError g id phrase)) :
    (∃ outcomes, Session arrivals outcomes) ∧
    ∀ outcomes, Session arrivals outcomes → ∀ w : World,
      ((∃ ret w', (postgresInsertConcurrent w).Yields outcomes (ret, w') ∧
          Reports (verdict sqlError g id phrase) ret) ↔
        sqlError g (insertQuery id phrase) = false ∧ id.toInt64 ∉ g.rows.map Prod.fst) ∧
      (¬ (sqlError g (insertQuery id phrase) = false ∧ id.toInt64 ∉ g.rows.map Prod.fst) →
        (postgresInsertConcurrent w).run outcomes = .starved) := by
  refine ⟨exists_session arrivals, fun outcomes hsession w => ?_⟩
  rw [← verdict_eq_committed_iff]
  have habort : verdict sqlError g id phrase ≠ .committed →
      (postgresInsertConcurrent w).run outcomes = .starved := by
    intro hv
    refine hsession.starved ?_ w
    rw [harrivals, notes_reply_eq_nil hv]
  refine ⟨⟨fun h => ?_, fun hv => ?_⟩, habort⟩
  · by_contra hv
    obtain ⟨ret, w', hy, -⟩ := h
    exact absurd (hy.run.symm.trans (habort hv)) (by simp)
  · have hnotes : notes arrivals.flatten = ascii "ok" :: [ascii "err"] := by
      rw [harrivals, hv]
      rfl
    obtain ⟨cmp, hun, hcmp⟩ := hsession.uninterrupted hnotes
    have hpos : 0 < cmp := Int.sign_eq_one_iff_pos.mp (hcmp.trans (by decide))
    refine ⟨_, _, hun.yields w, ?_⟩
    rw [hv, Reports, notifyCode, if_neg (by omega)]
    exact hpos

/-- A new id in an empty table; the notifications arrive after the result. -/
theorem insert_reports_iff_committed :
    ∃ outcomes ret w',
      Session [[.result], notifyRules.map .notification] outcomes ∧
      (postgresInsertConcurrent (World.init [])).Yields outcomes (ret, w') ∧
      Reports (verdict (fun _ _ => false) ⟨[], List.nodup_nil⟩ 7 (ascii "be calm")) ret := by
  obtain ⟨⟨outcomes, hsession⟩, hall⟩ :=
    @insert_reports_iff (fun _ _ => false) ⟨[], List.nodup_nil⟩ 7 (ascii "be calm")
      [[.result], notifyRules.map .notification] (by decide)
  obtain ⟨ret, w', hy, hret⟩ :=
    (hall outcomes hsession (World.init [])).1.mpr ⟨rfl, by decide⟩
  exact ⟨outcomes, ret, w', hsession, hy, hret⟩

/-- An id that is in the table: the error message makes the socket readable once, and the
function waits for ever. -/
theorem insert_waits_duplicate :
    verdict (fun _ _ => false) ⟨[(7, [])], List.nodup_singleton _⟩ 7 (ascii "be calm") =
        .duplicate ∧
      Session [[.error]] [1, 0, 1, 3, 1, 1, 1, 1, 5, 1, 1, 0, 5] ∧
      (postgresInsertConcurrent (World.init [])).run [1, 0, 1, 3, 1, 1, 1, 1, 5, 1, 1, 0, 5] =
        .starved ∧
      ¬ ∃ ret w', (postgresInsertConcurrent (World.init [])).Yields
          [1, 0, 1, 3, 1, 1, 1, 1, 5, 1, 1, 0, 5] (ret, w') ∧
        Reports .duplicate ret := by
  have hsession : Session [[.error]] [1, 0, 1, 3, 1, 1, 1, 1, 5, 1, 1, 0, 5] :=
    ⟨[1, 0, 1, 3, 1], 1, 1, [5, 1, 1, 0, 5], rfl,
      opens_at_once,
      by decide, by decide, .quiet 1 (by decide) (by decide) rfl (.blocked (by decide))⟩
  have hstarved := hsession.starved rfl (World.init [])
  refine ⟨by decide, hsession, hstarved, ?_⟩
  rintro ⟨ret, w', hy, -⟩
  exact absurd (hy.run.symm.trans hstarved) (by simp)

/-! ### The reply to a select -/

/-- The receiving end of a connection: the segments that have arrived and the bytes libpq
has taken in. -/
structure Inbound where
  arrived : List Bytes
  buffer : Bytes
  deriving DecidableEq

/-- What libpq sees in the bytes it has taken in: whether they hold a complete result, and
the status of that result. -/
structure Decoder where
  complete : Bytes → Bool
  status : Bytes → ℤ

namespace Inbound

/-- More segments arrive. -/
def arrive (c : Inbound) (segments : List Bytes) : Inbound :=
  { c with arrived := c.arrived ++ segments }

/-- The outcome of a call. The query can be sent, the socket is readable while there is
something on it, and `PQgetResult` is asked when libpq is not busy. -/
def answer (d : Decoder) (c : Inbound) : SelectCall → ℤ
  | .sendQuery => 1
  | .poll => if c.arrived = [] then 0 else 1
  | .revents => if c.arrived = [] then 0 else 1
  | .consumeInput => 1
  | .isBusy => if d.complete c.buffer then 0 else 1
  | .getResult => 1
  | .resultStatus => d.status c.buffer

/-- What a call does to the receiving end: `PQconsumeInput` takes in what has arrived. -/
def after (c : Inbound) : SelectCall → Inbound
  | .consumeInput => ⟨[], c.buffer ++ c.arrived.flatten⟩
  | _ => c

@[simp] theorem arrive_buffer (c : Inbound) (segments : List Bytes) :
    (c.arrive segments).buffer = c.buffer := rfl

end Inbound

/-- Programs that talk to a connection. Before each call they make, segments arrive. -/
abbrev Connected := StateT Inbound (Reader (List Bytes) Empty)

/-- The client of a connection. -/
def Client.connected (d : Decoder) : Client Connected where
  call call := fun c => do
    let segments ← next
    return ((c.arrive segments).answer d call, (c.arrive segments).after call)
  iterate body s := fun c => loop (fun p => do
    let r ← body p.1 p.2
    match r.1 with
    | .inl s => return .inl (s, r.2)
    | .inr a => return .inr (a, r.2)) (s, c)

/-- `postgres_select_concurrent` on a connection that was opened. -/
def selectConnected (d : Decoder) (w : World) : Connected (Option Handle × World) :=
  postgresSelectConcurrentOn (.connected d)
    (return (some w.nextHandle, (w.acquire .conn).countUp))

/-- A reply in segments: those that arrive before each call after `PQsendQuery`. The first
ones are there before the first poll times out, and all of them hold a complete result. -/
structure Arrivals (d : Decoder) where
  segments : ℕ → List Bytes
  first : segments 0 ≠ []
  whole : ∃ n, d.complete ((List.range n).flatMap segments).flatten = true ∧
    ∀ m, n ≤ m → segments m = []

namespace Arrivals

variable {d : Decoder} (a : Arrivals d)

/-- What arrives before each call from `PQsendQuery` on. -/
def stream : ℕ → List Bytes
  | 0 => []
  | n + 1 => a.segments n

/-- What has arrived when the third call after `PQsendQuery` is made. -/
def taken : Bytes :=
  (a.segments 0 ++ a.segments 1 ++ a.segments 2).flatten

end Arrivals

section Connected

variable {d : Decoder} {σ α β : Type}

/-- A call finds what has arrived before it, and acts on the connection. -/
theorem run_call_bind (call : SelectCall) (f : ℤ → Connected β) (c : Inbound)
    (segments : List Bytes) (rest : List (List Bytes)) :
    (((Client.connected d).call call >>= f) c).run (segments :: rest) =
      (f ((c.arrive segments).answer d call) ((c.arrive segments).after call)).run rest := rfl

/-- What follows a computation is run on the connection and the segments it leaves. -/
theorem run_connected_bind (x : Connected α) (f : α → Connected β) (c : Inbound)
    (ds : List (List Bytes)) :
    ((x >>= f) c).run ds =
      match (x c).run ds with
      | .done p rest => (f p.1 p.2).run rest
      | .starved => .starved
      | .fault e => .fault e := by
  have hbind : (x >>= f) c = (x c >>= fun p => f p.1 p.2) := rfl
  rw [hbind, run_bind]
  cases (x c).run ds <;> rfl

/-- A loop whose first iteration leaves. -/
theorem run_iterate_exit {body : σ → Connected (σ ⊕ α)} {s : σ} {c c' : Inbound} {a : α}
    {ds rest : List (List Bytes)} (h : (body s c).run ds = .done (.inr a, c') rest) :
    ((Client.connected d).iterate body s c).run ds = .done (a, c') rest := by
  show loopRun _ (s, c) ds = _
  rw [loopRun, run_bind, h]
  rfl

/-- A loop whose first iteration goes round. -/
theorem run_iterate_again {body : σ → Connected (σ ⊕ α)} {s s' : σ} {c c' : Inbound}
    {ds rest : List (List Bytes)} (h : (body s c).run ds = .done (.inl s', c') rest)
    (hlt : rest.length < ds.length) :
    ((Client.connected d).iterate body s c).run ds =
      ((Client.connected d).iterate body s' c').run rest := by
  show loopRun _ (s, c) ds = loopRun _ (s', c') rest
  conv_lhs => rw [loopRun, run_bind, h]
  exact if_pos hlt

/-- A loop whose first iteration waits for ever. -/
theorem run_iterate_starved {body : σ → Connected (σ ⊕ α)} {s : σ} {c : Inbound}
    {ds : List (List Bytes)} (h : (body s c).run ds = .starved) :
    ((Client.connected d).iterate body s c).run ds = .starved := by
  show loopRun _ (s, c) ds = _
  rw [loopRun, run_bind, h]

/-- With a complete result taken in, `PQisBusy` says so at once. -/
theorem run_busy_complete {c : Inbound} (h : d.complete c.buffer = true)
    (segments : List Bytes) (rest : List (List Bytes)) :
    ((Client.connected d).iterate (busyBodyOn (.connected d)) () c).run (segments :: rest) =
      .done ((), c.arrive segments) rest := by
  refine run_iterate_exit ?_
  rw [busyBodyOn, run_call_bind, if_pos]
  · rfl
  · exact if_pos h

/-- Without one, `PQisBusy` answers nothing but yes, whatever arrives: it takes nothing in. -/
theorem run_busy_incomplete (ds : List (List Bytes)) :
    ∀ {c : Inbound}, d.complete c.buffer = false →
      ((Client.connected d).iterate (busyBodyOn (.connected d)) () c).run ds = .starved := by
  induction ds with
  | nil =>
      intro c h
      exact run_iterate_starved rfl
  | cons segments ds ih =>
      intro c h
      have hbody : (busyBodyOn (.connected d) () c).run (segments :: ds) =
          .done (.inl (), c.arrive segments) ds := by
        rw [busyBodyOn, run_call_bind, if_neg]
        · rfl
        · simp [Inbound.answer, h]
      rw [run_iterate_again hbody (by simp)]
      exact ih h

/-- A poll that finds something, and what it finds taken in: the iteration goes on as the
loop around `PQisBusy` does. -/
theorem run_selectBody (i : UInt8) {c : Inbound} {x : List Bytes}
    (hx : (c.arrive x).arrived ≠ []) (y z : List Bytes) (rest : List (List Bytes)) :
    (selectBodyOn (.connected d) i c).run (x :: y :: z :: rest) =
      (((Client.connected d).iterate (busyBodyOn (.connected d)) () >>= fun _ =>
        (return .inr (some (i - 1)) : Connected (UInt8 ⊕ Option UInt8)))
        (((c.arrive x).arrive y).arrive z |>.after .consumeInput)).run rest := by
  have hy : ((c.arrive x).arrive y).arrived ≠ [] := by
    simp only [Inbound.arrive, ne_eq, List.append_eq_nil_iff, not_and] at hx ⊢
    exact fun h => absurd h.2 (hx h.1)
  have hpoll : (c.arrive x).answer d .poll = 1 := if_neg hx
  have hrevents : ((c.arrive x).arrive y).answer d .revents = 1 := if_neg hy
  rw [selectBodyOn, run_call_bind, hpoll, if_neg (by decide), if_neg (by decide)]
  show (((Client.connected d).call .revents >>= _) (c.arrive x)).run _ = _
  rw [run_call_bind, hrevents, if_neg (by decide)]
  show (((Client.connected d).call .consumeInput >>= _) ((c.arrive x).arrive y)).run _ = _
  rw [run_call_bind]
  exact congrArg (fun x : Connected _ => (x _).run rest) (if_neg one_ne_zero)

end Connected

namespace Arrivals

variable {d : Decoder} (a : Arrivals d)

/-- The stream begins with what the first calls get. -/
theorem prefixOf_stream (n : ℕ) :
    prefixOf a.stream (n + 4) = [] :: a.segments 0 :: a.segments 1 :: a.segments 2 ::
      prefixOf (fun k => a.segments (k + 3)) n := by
  simp only [prefixOf_succ]
  rfl

/-- The one `PQconsumeInput` decides what libpq ever gets to see: the first iteration of the
attempts loop goes on as the loop around `PQisBusy` with what was taken in. -/
theorem run_selectBody_segments (rest : List (List Bytes)) :
    (selectBodyOn (.connected d) 3 ⟨[], []⟩).run
        (a.segments 0 :: a.segments 1 :: a.segments 2 :: rest) =
      (((Client.connected d).iterate (busyBodyOn (.connected d)) () >>= fun _ =>
        (return .inr (some 2) : Connected (UInt8 ⊕ Option UInt8))) ⟨[], a.taken⟩).run rest :=
  run_selectBody 3 (c := ⟨[], []⟩) a.first _ _ rest

/-- After `PQsendQuery` the select receives. -/
theorem run_selectConnected (w : World) (rest : List (List Bytes)) :
    (selectConnected d w ⟨[], []⟩).run ([] :: rest) =
      (receiveOn (.connected d) (w.acquire .conn).countUp w.nextHandle ⟨[], []⟩).run rest := rfl

/-- Without a complete result in time, the select waits for ever. -/
theorem not_returns (h : d.complete a.taken = false) (w : World) :
    ¬ (selectConnected d w ⟨[], []⟩).Returns a.stream := by
  rintro ⟨n, r, hy⟩
  have hloop : ((Client.connected d).iterate (selectBodyOn (.connected d)) 3 ⟨[], []⟩).run
      (a.segments 0 :: a.segments 1 :: a.segments 2 ::
        prefixOf (fun k => a.segments (k + 3)) n) = .starved := by
    refine run_iterate_starved ?_
    rw [run_selectBody_segments, run_connected_bind, run_busy_incomplete _ h]
  have hstarved : (selectConnected d w ⟨[], []⟩).run (prefixOf a.stream (n + 4)) = .starved := by
    rw [prefixOf_stream, run_selectConnected, receiveOn, run_connected_bind, hloop]
  rw [prefixOf_add, hy] at hstarved
  exact absurd hstarved (by simp)

/-- With a complete result in time, the select ends, and returns it if its status is
`PGRES_TUPLES_OK`. -/
theorem yields_of_complete (h : d.complete a.taken = true) (w : World) :
    ∃ c : Inbound, c.buffer = a.taken ∧
      (selectConnected d w ⟨[], []⟩).Yields (prefixOf a.stream 7)
        (if d.status a.taken = tuplesOk then (some (w.nextHandle + 1), w.selected)
          else (none, selectError ((w.acquire .conn).countUp.acquire .result) w.nextHandle
            (some (w.nextHandle + 1))), c) := by
  let c := (Inbound.mk [] a.taken).arrive (a.segments 3)
  have hloop : ((Client.connected d).iterate (selectBodyOn (.connected d)) 3 ⟨[], []⟩).run
      (a.segments 0 :: a.segments 1 :: a.segments 2 ::
        [a.segments 3, a.segments 4, a.segments 5]) =
      .done (some 2, c) [a.segments 4, a.segments 5] := by
    refine run_iterate_exit ?_
    rw [run_selectBody_segments, run_connected_bind, run_busy_complete h]
    rfl
  have hpre : prefixOf a.stream 7 = [] :: a.segments 0 :: a.segments 1 :: a.segments 2 ::
      [a.segments 3, a.segments 4, a.segments 5] := a.prefixOf_stream 3
  refine ⟨(c.arrive (a.segments 4)).arrive (a.segments 5), rfl, yields_iff_run.mpr ?_⟩
  have hresult : ((pointerCallOn ((Client.connected d).call .getResult) .result
      (w.acquire .conn).countUp : Connected _) c).run [a.segments 4, a.segments 5] =
      .done ((some (w.nextHandle + 1), (w.acquire .conn).countUp.acquire .result),
        c.arrive (a.segments 4)) [a.segments 5] := rfl
  have hstatus : ((resultStatusOn ((Client.connected d).call .resultStatus)
      (some (w.nextHandle + 1)) : Connected _) (c.arrive (a.segments 4))).run [a.segments 5] =
      .done (d.status a.taken, (c.arrive (a.segments 4)).arrive (a.segments 5)) [] := rfl
  rw [hpre, run_selectConnected, receiveOn, run_connected_bind, hloop]
  dsimp only
  rw [if_neg (by decide), run_connected_bind, hresult]
  dsimp only
  rw [run_connected_bind, hstatus]
  dsimp only
  split_ifs
  all_goals rfl

end Arrivals

/-- **Receiving a result.** However the reply to a query that was sent is split into
segments and whenever they arrive, the first of them before the first poll times out,
`postgres_select_concurrent` ends if and only if all of a result had arrived when
`PQconsumeInput` was called, and it returns the result if and only if besides its status is
`PGRES_TUPLES_OK`. -/
theorem select_receives_iff {d : Decoder} (a : Arrivals d) (w : World) :
    ((∃ n res w' c, (selectConnected d w ⟨[], []⟩).Yields (prefixOf a.stream n)
        ((some res, w'), c) ∧ Delivered w w' res ∧ d.complete c.buffer = true) ↔
      d.complete a.taken = true ∧ d.status a.taken = tuplesOk) ∧
    ((selectConnected d w ⟨[], []⟩).Returns a.stream ↔ d.complete a.taken = true) := by
  have hends : (selectConnected d w ⟨[], []⟩).Returns a.stream → d.complete a.taken = true :=
    fun hret => Bool.of_not_eq_false fun h => a.not_returns h w hret
  refine ⟨⟨?_, ?_⟩, hends, fun h => ?_⟩
  · rintro ⟨n, res, w', c, hy, -, -⟩
    have hcomplete := hends ⟨n, _, hy⟩
    obtain ⟨c', -, hy'⟩ := a.yields_of_complete hcomplete w
    refine ⟨hcomplete, ?_⟩
    by_contra hstatus
    rw [if_neg hstatus] at hy'
    exact absurd (Prod.mk.inj (Prod.mk.inj (hy.unique_prefixOf hy')).1).1 (by simp)
  · rintro ⟨hcomplete, hstatus⟩
    obtain ⟨c, hc, hy⟩ := a.yields_of_complete hcomplete w
    rw [if_pos hstatus] at hy
    exact ⟨7, _, _, c, hy, by simp [Delivered, World.selected, World.finish, World.acquire,
      World.countUp], by rw [hc, hcomplete]⟩
  · obtain ⟨c, -, hy⟩ := a.yields_of_complete h w
    exact ⟨7, _, hy⟩

/-- Replies of one letter for each message: `Z` is the last one, and `T` begins rows. -/
def letterDecoder : Decoder where
  complete bytes := decide (90 ∈ bytes)
  status bytes := if bytes.head? = some 84 then tuplesOk else fatalError

/-- A description of rows and a row in one segment, and the rest in a second one that arrives
before the poll returns. -/
theorem select_receives_iff_in_time :
    ∃ a : Arrivals letterDecoder, a.segments 0 = [ascii "TD", ascii "CZ"] ∧
      ∃ n res w' c, (selectConnected letterDecoder (World.init []) ⟨[], []⟩).Yields
        (prefixOf a.stream n) ((some res, w'), c) ∧ Delivered (World.init []) w' res := by
  let a : Arrivals letterDecoder :=
    { segments := fun n => if n = 0 then [ascii "TD", ascii "CZ"] else []
      first := by decide
      whole := ⟨1, by decide, fun m hm => if_neg (by omega)⟩ }
  obtain ⟨n, res, w', c, hy, hdelivered, -⟩ :=
    (select_receives_iff a (World.init [])).1.mpr ⟨by decide, by decide⟩
  exact ⟨a, rfl, n, res, w', c, hy, hdelivered⟩

/-- The second segment arrives after `PQconsumeInput` was called, and is never read. -/
theorem select_stuck_second_segment :
    ∃ a : Arrivals letterDecoder, a.segments 0 = [ascii "TD"] ∧ a.segments 3 = [ascii "CZ"] ∧
      ¬ (selectConnected letterDecoder (World.init []) ⟨[], []⟩).Returns a.stream := by
  let a : Arrivals letterDecoder :=
    { segments := fun n => if n = 0 then [ascii "TD"] else if n = 3 then [ascii "CZ"] else []
      first := by decide
      whole := ⟨4, by decide, fun m hm => by rw [if_neg (by omega), if_neg (by omega)]⟩ }
  exact ⟨a, rfl, rfl, a.not_returns (by decide) (World.init [])⟩

end Yogigen
