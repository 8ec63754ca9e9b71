import Yogigen.Accounting
import Yogigen.Links

/-!
# Inserting by Notification

A permalink request stores its phrase with `YogiGen_insert_into_db`: roll an id, open a
session, `LISTEN Notifier`, send the `INSERT`, and wait for the first notification on
the channel. The rules on `Generated` send `ok` and then `err` for every committed
`INSERT`, whoever sent it, to every session that has executed `LISTEN`; an aborted
`INSERT` sends nothing.

A `Board` is the server side (the texts sent and not yet executed, the table) with the
stage, the notifications in flight and the notifications received of every request. Any
number of requests take their steps in any order. The server executes what a text says: one
`INSERT` stores the key and the phrase that are read from it. A phrase with a single quote
may say anything else, and nothing is assumed of what such a text does.

The first notification says that some `INSERT` was committed, not that the request's own was:
a commit is `Exclusive` when it finds no other session listening whose own row is not stored
yet. A step is `Orderly` when it is no commit, or an exclusive one of a phrase without quotes.

## Main results

* `insert_ret`: `postgres_insert_concurrent` reports nothing but the comparison made with
  its first notification.
* `returned_stored`: while every step is orderly, a request that returns an id has stored its
  row.
* `returns_unstored`: a commit that is not exclusive lets a request return an id whose row
  is not stored.
* `commit_quoted`: the row of a phrase with quotes is not that of the phrase.
-/

open Supply Supply.Reader Transition Printf

namespace Yogigen

/-! ### What the insert function reports -/

/-- `strcmp`, as the sign of the first difference. -/
def strcmp : Bytes → Bytes → ℤ
  | [], [] => 0
  | [], _ :: _ => -1
  | _ :: _, [] => 1
  | a :: as, b :: bs => if a = b then strcmp as bs else if a < b then -1 else 1

/-- **Success is a notification.** When `postgres_insert_concurrent` does not return `0`,
it returns what the comparison of its first notification with `err` makes of it, which is
the last thing it asks for. -/
theorem insert_ret {w w' : World} {ret : ℤ} {used : List ℤ}
    (h : (postgresInsertConcurrent w).Yields used (ret, w')) (hret : ret ≠ 0) :
    ∃ cmp, used.getLast? = some cmp ∧ ret = notifyCode cmp := by
  obtain ⟨u, v, ⟨db, w₁⟩, rfl, -, h₁⟩ := yields_bind_iff.mp h
  cases db with
  | none => exact absurd (insertError_ret h₁) hret
  | some db =>
      obtain ⟨u, v, ⟨res, w₂⟩, rfl, -, h₂⟩ := yields_bind_iff.mp h₁
      obtain ⟨u, v, status, rfl, -, h₃⟩ := yields_bind_iff.mp h₂
      split_ifs at h₃ with hst
      · exact absurd (insertError_ret h₃) hret
      · obtain ⟨u, v, sent, rfl, -, h₄⟩ := yields_bind_iff.mp h₃
        split_ifs at h₄ with hsent
        · exact absurd (insertError_ret h₄) hret
        · obtain ⟨u, v, left, rfl, -, h₅⟩ := yields_bind_iff.mp h₄
          rcases left with notify | ⟨n, w₃⟩
          · exact absurd (insertError_ret h₅) hret
          · obtain ⟨u, v, cmp, rfl, hcmp, h₆⟩ := yields_bind_iff.mp h₅
            obtain ⟨rfl, ⟨⟩⟩ := yields_pure_iff.mp h₆
            obtain rfl := yields_next_iff.mp hcmp
            exact ⟨cmp, by simp, rfl⟩

/-! ### Requests, sessions and the table -/

/-- Where a request is in `YogiGen_insert_into_db`. -/
inductive Stage
  | rolling
  | opening (id : UInt64)
  | opened (id : UInt64)
  | listening (id : UInt64)
  | waiting (id : UInt64)
  | answered (id : UInt64) (ret : ℤ)
  | returned (id : UInt64)
  deriving DecidableEq

/-- The id being stored by a session that has executed `LISTEN` and is still open. -/
def Stage.session : Stage → Option UInt64
  | .listening id | .waiting id => some id
  | _ => none

/-- The stages in which a text with this id may be sent and not executed yet. -/
def Stage.HasSent (st : Stage) (id : UInt64) : Prop :=
  st = .waiting id ∨ (∃ id' ret, st = .answered id' ret) ∨ ∃ id', st = .returned id'

/-- The text of an `INSERT` that has been sent and not executed yet, by what it was made of. -/
structure Insert (R : Type) where
  request : R
  id : UInt64
  phrase : Bytes
  deriving DecidableEq

/-- What executing a text does: the table it leaves and the notifications it sends. -/
structure SqlEffect where
  table : Generated
  notes : List Bytes

/-- The requests, their sessions and the database. For each key of the table, `owner` is the
request whose text put the row there. -/
structure Board (R : Type) where
  phrase : R → Bytes
  stage : R → Stage
  inFlight : R → List Bytes
  inbox : R → List Bytes
  pending : List (Insert R)
  table : Generated
  owner : Int64 → Option R

/-- The steps: those of a request, and those of the server. A text that is one `INSERT` is
committed; of any other text the server executes what it says, here any effect at all. -/
inductive Turn (R : Type)
  | roll (r : R) (id : UInt64)
  | connect (r : R)
  | listen (r : R)
  | send (r : R)
  | read (r : R)
  | finish (r : R)
  | fail (r : R)
  | commit (n : Insert R)
  | execute (n : Insert R) (e : SqlEffect)
  | abort (n : Insert R)
  | deliver (r : R)

/-- What `notifyrule_1` and `notifyrule_2` send for one committed `INSERT`. -/
def notifyRules : List Bytes := [ascii "ok", ascii "err"]

/-- The text that is sent. -/
def Insert.text {R : Type} (n : Insert R) : Bytes :=
  insertQuery n.id n.phrase

/-- The effect of a text that is one `INSERT`, if its key is not in the table. -/
def Insert.effect {R : Type} (g : Generated) (n : Insert R) : Option SqlEffect :=
  (readInsert n.text).bind fun row => (g.insert row.1 row.2).map (⟨·, notifyRules⟩)

namespace Board

variable {R : Type}

/-- The request has stored its phrase under the id. -/
def Stores (s : Board R) (r : R) (id : UInt64) : Prop :=
  (id.toInt64, s.phrase r) ∈ s.table.rows ∧ s.owner id.toInt64 = some r

/-- Requests that have not begun, and a table none of them has touched. Phrases are C
strings. -/
structure Initial (s : Board R) : Prop where
  phrase : ∀ r, 0 ∉ s.phrase r
  stage : ∀ r, s.stage r = .rolling
  pending : s.pending = []
  owner : ∀ key, s.owner key = none

variable [DecidableEq R]

/-- The server executes a text: it notifies every session that listens, and the rows that it
finds changed are those of the request. -/
def executed (s : Board R) (n : Insert R) (e : SqlEffect) : Board R :=
  { s with
    pending := s.pending.erase n
    table := e.table
    owner := fun key =>
      if e.table.updateReturning key = s.table.updateReturning key then s.owner key
      else some n.request
    inFlight := fun r =>
      if (s.stage r).session.isSome then s.inFlight r ++ e.notes else s.inFlight r }

/-- A request goes to another stage. -/
def move (s : Board R) (r : R) (st : Stage) : Board R :=
  { s with stage := Function.update s.stage r st }

/-- The board after a step, if it can be taken. -/
def next (s : Board R) : Turn R → Option (Board R)
  | .roll r id =>
      match s.stage r with
      | .rolling => some (if id = errorId then s else s.move r (.opening id))
      | _ => none
  | .connect r =>
      match s.stage r with
      | .opening id => some (s.move r (.opened id))
      | _ => none
  | .listen r =>
      match s.stage r with
      | .opened id =>
          some { s.move r (.listening id) with
            inFlight := Function.update s.inFlight r []
            inbox := Function.update s.inbox r [] }
      | _ => none
  | .send r =>
      match s.stage r with
      | .listening id =>
          some { s.move r (.waiting id) with pending := s.pending ++ [⟨r, id, s.phrase r⟩] }
      | _ => none
  | .read r =>
      match s.stage r, s.inbox r with
      | .waiting id, note :: _ =>
          some (s.move r (.answered id (notifyCode (strcmp note (ascii "err")))))
      | _, _ => none
  | .finish r =>
      match s.stage r with
      | .answered id ret =>
          some (s.move r
            (if ret = 0 then .returned errorId else if ret = -1 then .rolling else .returned id))
      | _ => none
  | .fail r =>
      match s.stage r with
      | .answered _ _ => none
      | .returned _ => none
      | _ => some (s.move r (.returned errorId))
  | .commit n => if n ∈ s.pending then (n.effect s.table).map (s.executed n) else none
  | .execute n e =>
      if n ∈ s.pending ∧ readInsert n.text = none then some (s.executed n e) else none
  | .abort n =>
      if n ∈ s.pending then some { s with pending := s.pending.erase n } else none
  | .deliver r =>
      match s.inFlight r with
      | note :: rest =>
          some { s with
            inFlight := Function.update s.inFlight r rest
            inbox := Function.update s.inbox r (s.inbox r ++ [note]) }
      | [] => none

/-- A commit finds no session of another request listening whose own row is not stored. -/
def Exclusive (s : Board R) (n : Insert R) : Prop :=
  ∀ r, r ≠ n.request → ∀ id ∈ (s.stage r).session, s.Stores r id

/-- What is executed is a phrase without quotes, and finds no other session waiting for its
row. -/
def Orderly (s : Board R) : Turn R → Prop
  | .commit n => 39 ∉ n.phrase ∧ s.Exclusive n
  | .execute n _ => 39 ∉ n.phrase
  | _ => True

instance (s : Board R) (r : R) (id : UInt64) : Decidable (s.Stores r id) :=
  inferInstanceAs (Decidable (_ ∧ _))

instance [Fintype R] (s : Board R) (n : Insert R) : Decidable (s.Exclusive n) :=
  have (r : R) : Decidable (∀ id ∈ (s.stage r).session, s.Stores r id) :=
    Option.decidableForallMem ..
  inferInstanceAs (Decidable (∀ r, r ≠ n.request → _))

instance [Fintype R] (s : Board R) : (a : Turn R) → Decidable (s.Orderly a)
  | .commit n => inferInstanceAs (Decidable (39 ∉ n.phrase ∧ s.Exclusive n))
  | .execute n _ => inferInstanceAs (Decidable (39 ∉ n.phrase))
  | .roll .. | .connect _ | .listen _ | .send _ | .read _ | .finish _ | .fail _ | .abort _
  | .deliver _ => inferInstanceAs (Decidable True)

/-! ### What a step does -/

section Inversion

variable {s s' : Board R} {r : R}

/-- A request rolls an id; the reserved one is rolled again. -/
theorem next_roll {id : UInt64} (h : s.next (.roll r id) = some s') :
    s.stage r = .rolling ∧ (s' = s ∨ s' = s.move r (.opening id)) := by
  simp only [next] at h
  split at h
  · next hst =>
      obtain rfl := Option.some.inj h
      refine ⟨hst, ?_⟩
      split_ifs
      · exact .inl rfl
      · exact .inr rfl
  · cases h

/-- A request opens its session. -/
theorem next_connect (h : s.next (.connect r) = some s') :
    ∃ id, s.stage r = .opening id ∧ s' = s.move r (.opened id) := by
  simp only [next] at h
  split at h
  · next id hst => exact ⟨id, hst, (Option.some.inj h).symm⟩
  · cases h

/-- A session listens from now on. -/
theorem next_listen (h : s.next (.listen r) = some s') :
    ∃ id, s.stage r = .opened id ∧
      s' = { s.move r (.listening id) with
        inFlight := Function.update s.inFlight r []
        inbox := Function.update s.inbox r [] } := by
  simp only [next] at h
  split at h
  · next id hst => exact ⟨id, hst, (Option.some.inj h).symm⟩
  · cases h

/-- A listening request sends its text. -/
theorem next_send (h : s.next (.send r) = some s') :
    ∃ id, s.stage r = .listening id ∧
      s' = { s.move r (.waiting id) with pending := s.pending ++ [⟨r, id, s.phrase r⟩] } := by
  simp only [next] at h
  split at h
  · next id hst => exact ⟨id, hst, (Option.some.inj h).symm⟩
  · cases h

/-- A waiting request takes its first notification for its answer. -/
theorem next_read (h : s.next (.read r) = some s') :
    ∃ id note rest, s.stage r = .waiting id ∧ s.inbox r = note :: rest ∧
      s' = s.move r (.answered id (notifyCode (strcmp note (ascii "err")))) := by
  simp only [next] at h
  split at h
  · next id note rest hst hin => exact ⟨id, note, rest, hst, hin, (Option.some.inj h).symm⟩
  · cases h

/-- An answered request returns its id, the reserved one, or begins again. -/
theorem next_finish (h : s.next (.finish r) = some s') :
    ∃ id ret, s.stage r = .answered id ret ∧
      s' = s.move r
        (if ret = 0 then .returned errorId else if ret = -1 then .rolling else .returned id) := by
  simp only [next] at h
  split at h
  · next id ret hst => exact ⟨id, ret, hst, (Option.some.inj h).symm⟩
  · cases h

/-- A request that fails returns the reserved id. -/
theorem next_fail (h : s.next (.fail r) = some s') : s' = s.move r (.returned errorId) := by
  simp only [next] at h
  split at h
  · cases h
  · cases h
  · exact (Option.some.inj h).symm

/-- A commit has the effect of its text. -/
theorem next_commit {n : Insert R} (h : s.next (.commit n) = some s') :
    n ∈ s.pending ∧ ∃ e, n.effect s.table = some e ∧ s' = s.executed n e := by
  simp only [next] at h
  split_ifs at h with hn
  obtain ⟨e, he, rfl⟩ := Option.map_eq_some_iff.mp h
  exact ⟨hn, e, he, rfl⟩

/-- A text that is no `INSERT` has some effect. -/
theorem next_execute {n : Insert R} {e : SqlEffect} (h : s.next (.execute n e) = some s') :
    n ∈ s.pending ∧ readInsert n.text = none ∧ s' = s.executed n e := by
  simp only [next] at h
  split_ifs at h with hn
  exact ⟨hn.1, hn.2, (Option.some.inj h).symm⟩

/-- An aborted text has no effect. -/
theorem next_abort {n : Insert R} (h : s.next (.abort n) = some s') :
    s' = { s with pending := s.pending.erase n } := by
  simp only [next] at h
  split_ifs at h
  exact (Option.some.inj h).symm

/-- The first notification that is in flight arrives. -/
theorem next_deliver (h : s.next (.deliver r) = some s') :
    ∃ note rest, s.inFlight r = note :: rest ∧
      s' = { s with
        inFlight := Function.update s.inFlight r rest
        inbox := Function.update s.inbox r (s.inbox r ++ [note]) } := by
  simp only [next] at h
  split at h
  · next note rest hq => exact ⟨note, rest, hq, (Option.some.inj h).symm⟩
  · cases h

end Inversion

/-! ### The effect of an `INSERT` -/

omit [DecidableEq R] in
/-- **The effect of a phrase without quotes**: its row is new, under the id's two's
complement, and the rules notify. -/
theorem effect_quoteless {g : Generated} {n : Insert R} {e : SqlEffect} (h0 : 0 ∉ n.phrase)
    (hquote : 39 ∉ n.phrase) (h : n.effect g = some e) :
    n.id.toInt64 ∉ g.rows.map Prod.fst ∧
      e.table.rows = g.rows ++ [(n.id.toInt64, n.phrase)] ∧ e.notes = notifyRules := by
  rw [Insert.effect, Insert.text, readInsert_insertQuery n.id h0 hquote] at h
  obtain ⟨g', hinsert, rfl⟩ := Option.map_eq_some_iff.mp h
  obtain ⟨hfresh, hrows⟩ := Generated.insert_eq_some hinsert
  exact ⟨hfresh, hrows, rfl⟩

/-- **What is stored after an `INSERT`**: what was stored, and the row of its request. -/
theorem executed_stores_iff {s : Board R} {n : Insert R} {e : SqlEffect}
    (hfresh : n.id.toInt64 ∉ s.table.rows.map Prod.fst)
    (hrows : e.table.rows = s.table.rows ++ [(n.id.toInt64, n.phrase)]) (r : R) (id : UInt64) :
    (s.executed n e).Stores r id ↔
      s.Stores r id ∨ (id = n.id ∧ s.phrase r = n.phrase ∧ r = n.request) := by
  have hselect := Generated.updateReturning_of_rows hrows id.toInt64
  by_cases hid : n.id = id
  · subst hid
    have hold : ¬ s.Stores r n.id := fun h => hfresh (List.mem_map_of_mem (f := Prod.fst) h.1)
    have howner : (s.executed n e).owner n.id.toInt64 = some n.request := by
      rw [Generated.updateReturning_of_notMem hfresh, if_pos rfl, List.nil_append] at hselect
      simp only [executed, hselect, Generated.updateReturning_of_notMem hfresh]
      exact if_neg (List.cons_ne_nil _ _)
    have hmem : (n.id.toInt64, s.phrase r) ∈ e.table.rows ↔ s.phrase r = n.phrase := by
      rw [hrows, List.mem_append, or_iff_right fun h =>
        hfresh (List.mem_map_of_mem (f := Prod.fst) h), List.mem_singleton]
      exact ⟨fun h => (Prod.mk.inj h).2, fun h => by rw [h]⟩
    rw [or_iff_right hold, Stores, howner, Option.some_inj]
    exact ⟨fun h => ⟨rfl, hmem.mp h.1, h.2.symm⟩, fun h => ⟨hmem.mpr h.2.1, h.2.2.symm⟩⟩
  · have hkey : n.id.toInt64 ≠ id.toInt64 := fun h => hid (toInt64_injective h)
    have howner : (s.executed n e).owner id.toInt64 = s.owner id.toInt64 := by
      rw [if_neg hkey, List.append_nil] at hselect
      exact if_pos hselect
    have hmem : (id.toInt64, s.phrase r) ∈ e.table.rows ↔
        (id.toInt64, s.phrase r) ∈ s.table.rows := by
      rw [hrows, List.mem_append, or_iff_left]
      exact fun h => hkey (Prod.mk.inj (List.mem_singleton.mp h)).1.symm
    rw [or_iff_left fun h => hid h.1.symm, Stores, howner]
    exact and_congr_left' hmem

/-! ### The invariant -/

/-- What holds while steps are orderly. -/
structure Sound (s : Board R) : Prop where
  text : ∀ r, 0 ∉ s.phrase r
  /-- The first notification of a session is `ok`. -/
  first : ∀ r, (s.stage r).session.isSome → ∀ note ∈ (s.inbox r ++ s.inFlight r).head?,
    note = ascii "ok"
  /-- A session that has been notified has its row stored. -/
  notified : ∀ r, ∀ id ∈ (s.stage r).session, s.inbox r ++ s.inFlight r ≠ [] → s.Stores r id
  answered : ∀ r id ret, s.stage r = .answered id ret → 0 < ret ∧ s.Stores r id
  returned : ∀ r id, s.stage r = .returned id → id ≠ errorId → s.Stores r id
  /-- A request sends once. -/
  sent : ∀ n ∈ s.pending, n.phrase = s.phrase n.request ∧ (s.stage n.request).HasSent n.id

omit [DecidableEq R] in
/-- Nothing has happened yet. -/
theorem Initial.sound {s : Board R} (h : s.Initial) : s.Sound where
  text := h.phrase
  first r hr := by simp [h.stage r, Stage.session] at hr
  notified r id hid := by simp [h.stage r, Stage.session] at hid
  answered r id ret hr := by simp [h.stage r] at hr
  returned r id hr := by simp [h.stage r] at hr
  sent n hn := by simp [h.pending] at hn

/-- A request outside its session changes nothing but its own stage. -/
theorem Sound.move {s : Board R} {r : R} {st : Stage} (hs : s.Sound)
    (hsession : st.session = none)
    (hanswered : ∀ id ret, st = .answered id ret → 0 < ret ∧ s.Stores r id)
    (hreturned : ∀ id, st = .returned id → id ≠ errorId → s.Stores r id)
    (hsent : ∀ n ∈ s.pending, n.request = r → st.HasSent n.id) : (s.move r st).Sound where
  text := hs.text
  first r' := by
    by_cases hr : r' = r
    · simp [Board.move, hr, hsession]
    · simpa [Board.move, hr] using hs.first r'
  notified r' := by
    by_cases hr : r' = r
    · simp [Board.move, hr, hsession]
    · simpa [Board.Stores, Board.move, hr] using hs.notified r'
  answered r' := by
    by_cases hr : r' = r
    · subst hr
      simpa [Board.Stores, Board.move] using hanswered
    · simpa [Board.Stores, Board.move, hr] using hs.answered r'
  returned r' := by
    by_cases hr : r' = r
    · subst hr
      simpa [Board.Stores, Board.move] using hreturned
    · simpa [Board.Stores, Board.move, hr] using hs.returned r'
  sent n hn := by
    obtain ⟨hphrase, hstage⟩ := hs.sent n hn
    refine ⟨hphrase, ?_⟩
    by_cases hr : n.request = r
    · simpa [Board.move, hr] using hsent n hn hr
    · simpa [Board.move, hr] using hstage

omit [DecidableEq R] in
/-- What a request has sent it has sent from its stage. -/
theorem Sound.hasSent {s : Board R} (hs : s.Sound) {n : Insert R} (hn : n ∈ s.pending) {r : R}
    (hr : n.request = r) {st : Stage} (hst : s.stage r = st) : st.HasSent n.id := by
  subst hr hst
  exact (hs.sent n hn).2

/-- A request that has sent nothing goes to a stage without a session or an answer. -/
theorem Sound.move_unsent {s : Board R} {r : R} {st st' : Stage} (hs : s.Sound)
    (hst : s.stage r = st) (hunsent : ∀ id, ¬ st.HasSent id) (hsession : st'.session = none)
    (hanswered : ∀ id ret, st' ≠ .answered id ret) (hreturned : ∀ id, st' ≠ .returned id) :
    (s.move r st').Sound :=
  hs.move hsession (fun id ret h => absurd h (hanswered id ret))
    (fun id h => absurd h (hreturned id)) fun _ hn hr => absurd (hs.hasSent hn hr hst) (hunsent _)

/-- A session that begins has no notifications. -/
theorem Sound.listen {s : Board R} {r : R} {id : UInt64} (hs : s.Sound)
    (hr : s.stage r = .opened id) :
    Sound { s.move r (.listening id) with
      inFlight := Function.update s.inFlight r []
      inbox := Function.update s.inbox r [] } where
  text := hs.text
  first r' := by
    by_cases h : r' = r
    · simp [h]
    · simpa [Board.move, h] using hs.first r'
  notified r' := by
    by_cases h : r' = r
    · simp [h]
    · simpa [Board.Stores, Board.move, h] using hs.notified r'
  answered r' := by
    by_cases h : r' = r
    · simp [Board.move, h]
    · simpa [Board.Stores, Board.move, h] using hs.answered r'
  returned r' := by
    by_cases h : r' = r
    · simp [Board.move, h]
    · simpa [Board.Stores, Board.move, h] using hs.returned r'
  sent n hn := by
    obtain ⟨hphrase, hstage⟩ := hs.sent n hn
    refine ⟨hphrase, ?_⟩
    by_cases h : n.request = r
    · simp [h, hr, Stage.HasSent] at hstage
    · simpa [Board.move, h] using hstage

/-- What is sent is the text of the request. -/
theorem Sound.send {s : Board R} {r : R} {id : UInt64} (hs : s.Sound)
    (hr : s.stage r = .listening id) :
    Sound { s.move r (.waiting id) with pending := s.pending ++ [⟨r, id, s.phrase r⟩] } where
  text := hs.text
  first r' := by
    by_cases h : r' = r
    · simpa [Board.move, h, hr, Stage.session] using hs.first r
    · simpa [Board.move, h] using hs.first r'
  notified r' := by
    by_cases h : r' = r
    · simpa [Board.Stores, Board.move, h, hr, Stage.session] using hs.notified r
    · simpa [Board.Stores, Board.move, h] using hs.notified r'
  answered r' := by
    by_cases h : r' = r
    · simp [Board.move, h]
    · simpa [Board.Stores, Board.move, h] using hs.answered r'
  returned r' := by
    by_cases h : r' = r
    · simp [Board.move, h]
    · simpa [Board.Stores, Board.move, h] using hs.returned r'
  sent n hn := by
    rcases List.mem_append.mp hn with hold | hnew
    · obtain ⟨hphrase, hstage⟩ := hs.sent n hold
      refine ⟨hphrase, ?_⟩
      by_cases h : n.request = r
      · simp [h, hr, Stage.HasSent] at hstage
      · simpa [Board.move, h] using hstage
    · obtain rfl := List.mem_singleton.mp hnew
      exact ⟨rfl, .inl (by simp [Board.move])⟩

omit [DecidableEq R] in
/-- The phrase of a text that was sent is a C string. -/
theorem Sound.zero_notMem {s : Board R} (hs : s.Sound) {n : Insert R} (hn : n ∈ s.pending) :
    0 ∉ n.phrase := by
  rw [(hs.sent n hn).1]
  exact hs.text _

omit [DecidableEq R] in
/-- A session whose text is not executed yet is for the id of the text. -/
theorem Sound.session_eq {s : Board R} (hs : s.Sound) {n : Insert R} (hn : n ∈ s.pending)
    {id : UInt64} (hid : id ∈ (s.stage n.request).session) : id = n.id := by
  rcases (hs.sent n hn).2 with h | ⟨id', ret, h⟩ | ⟨id', h⟩
  · simpa [h, Stage.session, eq_comm] using hid
  · simp [h, Stage.session] at hid
  · simp [h, Stage.session] at hid

omit [DecidableEq R] in
/-- The text of a phrase without quotes is one `INSERT`. -/
theorem Sound.readInsert_ne_none {s : Board R} (hs : s.Sound) {n : Insert R}
    (hn : n ∈ s.pending) (hquote : 39 ∉ n.phrase) : readInsert n.text ≠ none := by
  rw [Insert.text, readInsert_insertQuery n.id (hs.zero_notMem hn) hquote]
  exact Option.some_ne_none _

/-- **Orderly commits notify only sessions whose row is stored.** -/
theorem Sound.commit {s : Board R} {n : Insert R} {e : SqlEffect} (hs : s.Sound)
    (hn : n ∈ s.pending) (hquote : 39 ∉ n.phrase) (hex : s.Exclusive n)
    (he : n.effect s.table = some e) : (s.executed n e).Sound := by
  obtain ⟨hfresh, hrows, hnotes⟩ := effect_quoteless (hs.zero_notMem hn) hquote he
  have hstores := executed_stores_iff hfresh hrows
  constructor
  case text => exact hs.text
  case first =>
    intro r hr note hnote
    have hr' : (s.stage r).session.isSome := hr
    simp only [executed, if_pos hr', ← List.append_assoc, hnotes] at hnote
    cases hq : s.inbox r ++ s.inFlight r with
    | nil => simpa [hq, notifyRules] using hnote.symm
    | cons note' rest =>
        obtain rfl : note' = note := by simpa [hq] using hnote
        exact hs.first r hr' note' (by simp [hq])
  case notified =>
    intro r id hid hne
    rw [hstores]
    by_cases hr : r = n.request
    · subst hr
      exact .inr ⟨hs.session_eq hn hid, (hs.sent n hn).1.symm, rfl⟩
    · exact .inl (hex r hr id hid)
  case answered =>
    intro r id ret hr
    exact ⟨(hs.answered r id ret hr).1, (hstores r id).mpr (.inl (hs.answered r id ret hr).2)⟩
  case returned => exact fun r id hr hid => (hstores r id).mpr (.inl (hs.returned r id hr hid))
  case sent => exact fun m hm => hs.sent m (List.mem_of_mem_erase hm)

/-- An aborted text is not executed any more. -/
theorem Sound.abort {s : Board R} (hs : s.Sound) (n : Insert R) :
    Sound { s with pending := s.pending.erase n } where
  text := hs.text
  first := hs.first
  notified := hs.notified
  answered := hs.answered
  returned := hs.returned
  sent m hm := hs.sent m (List.mem_of_mem_erase hm)

/-- Delivery keeps the order of the notifications. -/
theorem Sound.deliver {s : Board R} {r : R} {note : Bytes} {rest : List Bytes}
    (hs : s.Sound) (hq : s.inFlight r = note :: rest) :
    Sound { s with
      inFlight := Function.update s.inFlight r rest
      inbox := Function.update s.inbox r (s.inbox r ++ [note]) } where
  text := hs.text
  first r' := by
    by_cases h : r' = r
    · simpa [h, hq] using hs.first r
    · simpa [h] using hs.first r'
  notified r' := by
    by_cases h : r' = r
    · simpa [Board.Stores, h, hq] using hs.notified r
    · simpa [Board.Stores, h] using hs.notified r'
  answered := hs.answered
  returned := hs.returned
  sent := hs.sent

/-- The first notification of a session says that its row is stored. -/
theorem Sound.read {s : Board R} {r : R} {id : UInt64} {note : Bytes} {rest : List Bytes}
    (hs : s.Sound) (hr : s.stage r = .waiting id) (hin : s.inbox r = note :: rest) :
    (s.move r (.answered id (notifyCode (strcmp note (ascii "err"))))).Sound := by
  obtain rfl := hs.first r (by simp [hr, Stage.session]) note (by simp [hin])
  have hstored := hs.notified r id (by simp [hr, Stage.session]) (by simp [hin])
  refine hs.move rfl (fun id' ret heq => ?_) (by simp) (fun _ _ _ => .inr (.inl ⟨_, _, rfl⟩))
  obtain ⟨rfl, rfl⟩ := Stage.answered.inj heq
  exact ⟨by decide, hstored⟩

/-- An answered request returns its id. -/
theorem Sound.finish {s : Board R} {r : R} {id : UInt64} {ret : ℤ} (hs : s.Sound)
    (hr : s.stage r = .answered id ret) :
    (s.move r (if ret = 0 then .returned errorId else if ret = -1 then .rolling
      else .returned id)).Sound := by
  obtain ⟨hpos, hstored⟩ := hs.answered r id ret hr
  rw [if_neg (by omega : ¬ ret = 0), if_neg (by omega : ¬ ret = -1)]
  refine hs.move rfl (by simp) (fun id' heq _ => ?_) (fun _ _ _ => .inr (.inr ⟨_, rfl⟩))
  obtain rfl := Stage.returned.inj heq
  exact hstored

/-- A failure is reported by the reserved id. -/
theorem Sound.fail {s : Board R} (hs : s.Sound) (r : R) :
    (s.move r (.returned errorId)).Sound :=
  hs.move rfl (by simp) (fun id h hid => absurd (Stage.returned.inj h).symm hid)
    (fun _ _ _ => .inr (.inr ⟨_, rfl⟩))

/-- **An orderly step keeps the invariant.** -/
theorem Sound.step {s s' : Board R} {a : Turn R} (hs : s.Sound) (hord : s.Orderly a)
    (h : s.next a = some s') : s'.Sound := by
  cases a with
  | roll r id =>
      obtain ⟨hst, rfl | rfl⟩ := next_roll h
      · exact hs
      · exact hs.move_unsent hst (by simp [Stage.HasSent]) rfl (by simp) (by simp)
  | connect r =>
      obtain ⟨id, hst, rfl⟩ := next_connect h
      exact hs.move_unsent hst (by simp [Stage.HasSent]) rfl (by simp) (by simp)
  | listen r =>
      obtain ⟨id, hst, rfl⟩ := next_listen h
      exact hs.listen hst
  | send r =>
      obtain ⟨id, hst, rfl⟩ := next_send h
      exact hs.send hst
  | read r =>
      obtain ⟨id, note, rest, hst, hin, rfl⟩ := next_read h
      exact hs.read hst hin
  | finish r =>
      obtain ⟨id, ret, hst, rfl⟩ := next_finish h
      exact hs.finish hst
  | fail r =>
      obtain rfl := next_fail h
      exact hs.fail r
  | commit n =>
      obtain ⟨hn, e, he, rfl⟩ := next_commit h
      exact hs.commit hn hord.1 hord.2 he
  | execute n e =>
      obtain ⟨hn, hnone, -⟩ := next_execute h
      exact absurd hnone (hs.readInsert_ne_none hn hord)
  | abort n =>
      obtain rfl := next_abort h
      exact hs.abort n
  | deliver r =>
      obtain ⟨note, rest, hq, rfl⟩ := next_deliver h
      exact hs.deliver hq

/-! ### Runs -/

/-- **Stored when returned.** For any number of concurrent requests and any interleaving
of their steps with those of the server, if every commit is of a phrase without quotes and is
exclusive, then a request that has returned an id has stored its row under it. -/
theorem returned_stored {s : Board R} (hs : s.Initial) {trace : List (Turn R × Board R)}
    (hrun : Run (Enabled next) s trace) (hord : Guarded Orderly s trace) :
    ∀ p ∈ trace, ∀ r id, p.2.stage r = .returned id → id ≠ errorId → p.2.Stores r id := by
  intro p hp
  exact (hrun.invariant (fun _ _ _ hs hord h => hs.step hord h) hs.sound hord p hp).returned

/-- Two requests with an empty table. -/
def twoRequests : Board (Fin 2) where
  phrase r := if r = 0 then ascii "be calm" else ascii "be kind"
  stage _ := .rolling
  inFlight _ := []
  inbox _ := []
  pending := []
  table := ⟨[], List.nodup_nil⟩
  owner _ := none

/-- None of them has begun. -/
theorem initial_twoRequests : twoRequests.Initial :=
  ⟨by decide +kernel, fun _ => rfl, rfl, fun _ => rfl⟩

/-- One request after the other. -/
def twoTurns : List (Turn (Fin 2)) :=
  let request (r : Fin 2) (id : UInt64) : List (Turn (Fin 2)) :=
    [.roll r id, .connect r, .listen r, .send r, .commit ⟨r, id, twoRequests.phrase r⟩,
      .deliver r, .read r, .finish r]
  request 0 7 ++ request 1 8

/-- Their sessions do not overlap. -/
theorem exists_run_two :
    ∃ trace, Run (Enabled next) twoRequests trace ∧ Guarded Orderly twoRequests trace ∧
      ∃ p ∈ trace, p.2.stage 0 = .returned 7 ∧ p.2.stage 1 = .returned 8 :=
  ⟨(traceOf next twoRequests twoTurns).getD [], run_traceOf (by decide +kernel),
    by decide +kernel, by decide +kernel⟩

/-- Two requests whose sessions do not overlap. -/
theorem returned_stored_two :
    ∃ (s : Board (Fin 2)) (trace : List (Turn (Fin 2) × Board (Fin 2))),
      s.Initial ∧ Run (Enabled next) s trace ∧ Guarded Orderly s trace ∧
      ∃ p ∈ trace, p.2.stage 0 = .returned 7 ∧ p.2.stage 1 = .returned 8 ∧
        p.2.Stores 0 7 ∧ p.2.Stores 1 8 := by
  obtain ⟨trace, hrun, hord, p, hp, h0, h1⟩ := exists_run_two
  have h := returned_stored initial_twoRequests hrun hord p hp
  exact ⟨twoRequests, trace, initial_twoRequests, hrun, hord, p, hp, h0, h1,
    h 0 7 h0 (by decide), h 1 8 h1 (by decide)⟩

/-- A request is answered by the commit of another one and returns an id no row has. -/
theorem returned_not_stored :
    ∃ (s : Board (Fin 2)) (trace : List (Turn (Fin 2) × Board (Fin 2))),
      s.Initial ∧ Run (Enabled next) s trace ∧
      ∃ p ∈ trace, p.2.stage 0 = .returned 7 ∧ (7 : UInt64) ≠ errorId ∧
        ∀ row ∈ p.2.table.rows, row.1 ≠ (7 : UInt64).toInt64 := by
  let labels : List (Turn (Fin 2)) :=
    [.roll 0 7, .connect 0, .listen 0, .send 0, .roll 1 8, .connect 1, .listen 1, .send 1,
      .commit ⟨1, 8, twoRequests.phrase 1⟩, .deliver 0, .read 0, .finish 0]
  exact ⟨twoRequests, (traceOf next twoRequests labels).getD [], initial_twoRequests,
    run_traceOf (by decide +kernel), by decide +kernel⟩

/-- **A phrase with quotes is not stored.** When a text is one `INSERT`, but of a phrase with
a quote, then a row is stored under the id, but with another phrase. -/
theorem commit_quoted {s s' : Board R} {n : Insert R} (h0 : 0 ∉ n.phrase)
    (hquote : 39 ∈ n.phrase) (h : s.next (.commit n) = some s') :
    (n.id.toInt64, n.phrase) ∉ s'.table.rows ∧
      ∃ stored, stored ≠ n.phrase ∧ (n.id.toInt64, stored) ∈ s'.table.rows := by
  obtain ⟨-, e, he, rfl⟩ := next_commit h
  obtain ⟨⟨key, stored⟩, hread, he⟩ := Option.bind_eq_some_iff.mp he
  obtain ⟨g, hinsert, rfl⟩ := Option.map_eq_some_iff.mp he
  obtain rfl := ((insertsKey_iff n.id h0 key).mp (inserts_of_readInsert hread).1).2
  have hne := readInsert_ne n.id h0 hquote hread
  have hmem : (n.id.toInt64, stored) ∈ g.rows := by
    rw [(Generated.insert_eq_some hinsert).2]
    exact List.mem_append_right _ (List.mem_singleton.mpr rfl)
  refine ⟨fun hold => hne ?_, stored, hne, hmem⟩
  have hone := (Generated.updateReturning_of_mem hold).symm.trans
    (Generated.updateReturning_of_mem hmem)
  exact (List.singleton_inj.mp hone).symm

/-- What the comparison makes of an `ok`. -/
theorem notifyCode_ok : notifyCode (strcmp (ascii "ok") (ascii "err")) = 1 := by
  decide

/-- A waiting request whose next notification is an `ok` can return its id, whatever the
table holds. -/
theorem run_answer {s : Board R} {r : R} {id : UInt64} {rest : List Bytes}
    (hst : s.stage r = .waiting id) (hin : s.inbox r = [])
    (hq : s.inFlight r = ascii "ok" :: rest) :
    ∃ trace, Run (Enabled next) s trace ∧ (final s trace).stage r = .returned id ∧
      ∀ r' id', (final s trace).Stores r' id' ↔ s.Stores r' id' := by
  let s₁ : Board R :=
    { s with
      inFlight := Function.update s.inFlight r rest
      inbox := Function.update s.inbox r (s.inbox r ++ [ascii "ok"]) }
  let s₂ := s₁.move r (.answered id 1)
  let s₃ := s₂.move r (.returned id)
  have h₁ : s.next (.deliver r) = some s₁ := by
    simp only [next, hq, s₁]
  have h₂ : s₁.next (.read r) = some s₂ := by
    simp [next, s₁, s₂, hst, hin, notifyCode_ok]
  have h₃ : s₂.next (.finish r) = some s₃ := by
    simp [next, s₂, s₃, Board.move]
  refine ⟨[(.deliver r, s₁), (.read r, s₂), (.finish r, s₃)],
    .cons h₁ (.cons h₂ (.cons h₃ (.nil s₃))), ?_, fun _ _ => Iff.rfl⟩
  exact Function.update_self ..

/-- **Exclusive commits are needed.** After the commit of another request, a request whose
session listens and whose row is not stored can return its id without storing it. -/
theorem returns_unstored {s s' : Board R} {n : Insert R} (hs : s.Sound)
    (hquote : 39 ∉ n.phrase) (h : s.next (.commit n) = some s') {r : R} {id : UInt64}
    (hr : r ≠ n.request) (hid : id ∈ (s.stage r).session) (hmiss : ¬ s.Stores r id) :
    ∃ trace, Run (Enabled next) s' trace ∧ (final s' trace).stage r = .returned id ∧
      ¬ (final s' trace).Stores r id := by
  have hempty : s.inbox r ++ s.inFlight r = [] :=
    by_contra fun hne => hmiss (hs.notified r id hid hne)
  obtain ⟨hin, hfl⟩ := List.append_eq_nil_iff.mp hempty
  obtain ⟨hn, e, he, rfl⟩ := next_commit h
  obtain ⟨hfresh, hrows, hnotes⟩ := effect_quoteless (hs.zero_notMem hn) hquote he
  have hq : (s.executed n e).inFlight r = notifyRules := by
    have hsome : (s.stage r).session.isSome := Option.isSome_of_mem hid
    simp only [executed, if_pos hsome, hfl, hnotes, List.nil_append]
  have hmiss' : ¬ (s.executed n e).Stores r id := by
    rw [executed_stores_iff hfresh hrows]
    rintro (hold | ⟨-, -, heq⟩)
    · exact hmiss hold
    · exact hr heq
  cases hst : s.stage r with
  | waiting id' =>
      obtain rfl : id' = id := by simpa [hst, Stage.session] using hid
      obtain ⟨trace, hrun, hfin, hstores⟩ := run_answer (s := s.executed n e) hst hin hq
      exact ⟨trace, hrun, hfin, by rwa [hstores]⟩
  | listening id' =>
      obtain rfl : id' = id := by simpa [hst, Stage.session] using hid
      let s₁ : Board R :=
        { (s.executed n e).move r (.waiting id') with
          pending := (s.executed n e).pending ++ [⟨r, id', s.phrase r⟩] }
      have hsend : (s.executed n e).next (.send r) = some s₁ := by
        have hst' : (s.executed n e).stage r = .listening id' := hst
        simp only [next, hst']
        rfl
      obtain ⟨trace, hrun, hfin, hstores⟩ :=
        run_answer (s := s₁) (Function.update_self ..) hin hq
      exact ⟨(.send r, s₁) :: trace, .cons hsend hrun, hfin, by rwa [final, hstores]⟩
  | _ => simp [hst, Stage.session] at hid

end Board

end Yogigen
