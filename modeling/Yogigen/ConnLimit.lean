import Yogigen.Accounting

/-!
# The Connection Limit

`YogiGen_insert_into_db` and `YogiGen_get_by_id` wait while `conn_count == max_conn`
before they open a connection; the increment is made later, inside
`pg_open_nonblocking_conn`. Here any number of handler threads take these steps in any
order, each step atomic and each connection attempt successful. The steps on the record
are the `Connection.countUp` and `Connection.countDown` of the calls themselves
(`connect_finish_eq_call`).

Testing and counting are separate steps, so several threads can be admitted by the same
free place, and since the test is an equality, a count that has passed the limit stops
nobody any more. A thread is admitted with `Room` when the connections counted and the
threads already admitted leave a place for it.

## Main results

* `connCount_le_maxConn`: while every admission finds room, the count never exceeds the
  limit.
* `exceeds_of_no_room`: one admission without room is enough to exceed it.
-/

open Supply Supply.Reader Transition

namespace Yogigen

/-! ### Threads and their steps -/

/-- The functions that open connections. -/
inductive Handler
  | insertIntoDb
  | getById
  deriving DecidableEq

/-- Where a handler thread is. -/
inductive Place
  | idle
  | testing (h : Handler)
  | admitted (h : Handler)
  | connected (h : Handler)
  deriving DecidableEq

/-- Past the test, but not counted yet. -/
def Place.isAdmitted : Place → Bool
  | .admitted _ => true
  | _ => false

/-- Counted, and not uncounted yet. -/
def Place.isConnected : Place → Bool
  | .connected _ => true
  | _ => false

/-- The shared connection record and the place of every thread. -/
@[ext] structure Threads (T : Type) where
  conn : Connection
  place : T → Place

/-- The steps of a thread: a request arrives, the test finds the limit reached, the test
finds it not reached, the connection is counted, it is uncounted and the function
returns, it is uncounted and a new id is tried. -/
inductive Action (T : Type)
  | start (t : T) (h : Handler)
  | wait (t : T)
  | pass (t : T)
  | connect (t : T)
  | finish (t : T)
  | retry (t : T)

namespace Threads

variable {T : Type}

/-- The server has loaded its tables and closed the loading connection; no request has
arrived. -/
def Initial (s : Threads T) : Prop :=
  (∃ connInfo w used, (openConn connInfo).Yields used (some w) ∧
    s.conn = (closeNonblockingConn w).conn) ∧
  ∀ t, s.place t = .idle

/-- The record the handlers start with. -/
theorem Initial.conn {s : Threads T} (h : s.Initial) :
    s.conn.connCount = 0 ∧ s.conn.maxConn = maxConnNumber := by
  obtain ⟨⟨connInfo, w, used, hopen, hconn⟩, -⟩ := h
  rw [hconn]
  obtain ⟨u, v, ⟨db, w₁⟩, rfl, hpg, h₁⟩ := yields_bind_iff.mp hopen
  rcases pgOpen_cases hpg with ⟨rfl, -, -⟩ | ⟨rfl, -, -⟩ | ⟨rfl, -, -⟩ | ⟨rfl, rfl, -⟩
  · obtain ⟨rfl, ⟨⟩⟩ := yields_pure_iff.mp h₁
  · obtain ⟨rfl, ⟨⟩⟩ := yields_pure_iff.mp h₁
  · obtain ⟨rfl, ⟨⟩⟩ := yields_pure_iff.mp h₁
  · obtain ⟨rfl, ⟨⟩⟩ := yields_pure_iff.mp h₁
    refine ⟨?_, rfl⟩
    simp [closeNonblockingConn, World.finish, Connection.countDown, World.countUp,
      Connection.countUp, World.acquire, World.init]

variable [DecidableEq T]

/-- A thread is in another place. -/
def move (s : Threads T) (t : T) (p : Place) : Threads T :=
  { s with place := Function.update s.place t p }

@[simp] theorem move_conn (s : Threads T) (t : T) (p : Place) : (s.move t p).conn = s.conn := rfl

/-- The threads after a step, if the thread is where the step can be taken. -/
def next (s : Threads T) : Action T → Option (Threads T)
  | .start t h => if s.place t = .idle then some (s.move t (.testing h)) else none
  | .wait t =>
      match s.place t with
      | .testing _ => if s.conn.connCount = s.conn.maxConn then some s else none
      | _ => none
  | .pass t =>
      match s.place t with
      | .testing h =>
          if s.conn.connCount = s.conn.maxConn then none else some (s.move t (.admitted h))
      | _ => none
  | .connect t =>
      match s.place t with
      | .admitted h => some { s.move t (.connected h) with conn := s.conn.countUp }
      | _ => none
  | .finish t =>
      match s.place t with
      | .connected _ => some { s.move t .idle with conn := s.conn.countDown }
      | _ => none
  | .retry t =>
      match s.place t with
      | .connected .insertIntoDb =>
          some { s.move t (.testing .insertIntoDb) with conn := s.conn.countDown }
      | _ => none

/-- A thread that has passed the test has seen a count below the limit. -/
theorem next_pass {s s' : Threads T} {t : T} (h : s.next (.pass t) = some s') :
    ∃ h', s.place t = .testing h' ∧ s.conn.connCount ≠ s.conn.maxConn ∧
      s' = s.move t (.admitted h') := by
  cases hp : s.place t with
  | testing h' =>
      simp only [next, hp] at h
      split_ifs at h with hfull
      exact ⟨h', rfl, hfull, (Option.some.inj h).symm⟩
  | _ => simp [next, hp] at h

/-- **Inversion of a step**: a thread that is neither admitted nor connected comes to
another such place, is admitted, is counted, or is uncounted. -/
theorem next_cases {s s' : Threads T} {a : Action T} (h : s.next a = some s') :
    (s'.conn = s.conn ∧ ∃ t p, s'.place = Function.update s.place t p ∧
      (s.place t).isAdmitted = p.isAdmitted ∧ (s.place t).isConnected = p.isConnected) ∨
    (∃ t h, a = .pass t ∧ s.place t = .testing h ∧ s.conn.connCount ≠ s.conn.maxConn ∧
      s' = s.move t (.admitted h)) ∨
    (∃ t h, a = .connect t ∧ s.place t = .admitted h ∧
      s' = { s.move t (.connected h) with conn := s.conn.countUp }) ∨
    (∃ t h p, s.place t = .connected h ∧ p.isAdmitted = false ∧ p.isConnected = false ∧
      s' = { s.move t p with conn := s.conn.countDown }) := by
  cases a with
  | start t h' =>
      simp only [next] at h
      split_ifs at h with hp
      obtain rfl := Option.some.inj h
      exact .inl ⟨rfl, t, _, rfl, by rw [hp]; rfl, by rw [hp]; rfl⟩
  | wait t =>
      cases hp : s.place t with
      | testing h' =>
          simp only [next, hp] at h
          split_ifs at h with hfull
          obtain rfl := Option.some.inj h
          exact .inl ⟨rfl, t, s.place t, (Function.update_eq_self ..).symm, rfl, rfl⟩
      | _ => simp [next, hp] at h
  | pass t =>
      obtain ⟨h', hp, hfull, rfl⟩ := next_pass h
      exact .inr (.inl ⟨t, h', rfl, hp, hfull, rfl⟩)
  | connect t =>
      cases hp : s.place t with
      | admitted h' =>
          simp only [next, hp] at h
          obtain rfl := Option.some.inj h
          exact .inr (.inr (.inl ⟨t, h', rfl, hp, rfl⟩))
      | _ => simp [next, hp] at h
  | finish t =>
      cases hp : s.place t with
      | connected h' =>
          simp only [next, hp] at h
          obtain rfl := Option.some.inj h
          exact .inr (.inr (.inr ⟨t, h', _, hp, rfl, rfl, rfl⟩))
      | _ => simp [next, hp] at h
  | retry t =>
      cases hp : s.place t with
      | connected h' =>
          cases h' with
          | insertIntoDb =>
              simp only [next, hp] at h
              obtain rfl := Option.some.inj h
              exact .inr (.inr (.inr ⟨t, _, _, hp, rfl, rfl, rfl⟩))
          | getById => simp [next, hp] at h
      | _ => simp [next, hp] at h

/-- Counting in and out without interruption is what a call with a good connection object
does to the record. -/
theorem connect_finish_eq_call {s s₁ s₂ : Threads T} {t : T}
    (hconnect : s.next (.connect t) = some s₁) (hfinish : s₁.next (.finish t) = some s₂)
    {w w' : World} {outcomes : List ℤ} (hw : w.conn = s.conn) (h : Effect w outcomes w')
    (hobject : outcomes.head? ≠ some 0) (hgood : ¬ BadStart outcomes) :
    w'.conn = s₂.conn := by
  rw [h.conn_of_good hobject hgood, hw]
  cases hp : s.place t with
  | admitted h' =>
      simp only [next, hp] at hconnect
      obtain rfl := Option.some.inj hconnect
      simp only [next, move, Function.update_self] at hfinish
      obtain rfl := Option.some.inj hfinish
      rfl
  | _ => simp [next, hp] at hconnect

/-! ### Booked places -/

variable [Fintype T]

/-- The number of threads past the test that are not counted yet. -/
def admitted (s : Threads T) : ℕ :=
  population (fun p : Place => p.isAdmitted) s.place

/-- The number of threads that are counted. -/
def connected (s : Threads T) : ℕ :=
  population (fun p : Place => p.isConnected) s.place

/-- The admission of a thread finds a place that no other thread has been promised. -/
def Room (s : Threads T) : Action T → Prop
  | .pass _ => s.conn.connCount.toNat + s.admitted < s.conn.maxConn.toNat
  | _ => True

instance (s : Threads T) : (a : Action T) → Decidable (s.Room a)
  | .pass _ => inferInstanceAs (Decidable (_ < _))
  | .start .. | .wait _ | .connect _ | .finish _ | .retry _ => inferInstanceAs (Decidable True)

/-- The count is the number of counted threads, and every admitted thread has a place. -/
structure Booked (s : Threads T) : Prop where
  count_eq : s.conn.connCount.toNat = s.connected
  within : s.conn.connCount.toNat + s.admitted ≤ s.conn.maxConn.toNat

omit [DecidableEq T] in
/-- In the beginning nothing has been counted. -/
theorem Initial.booked {s : Threads T} (h : s.Initial) : s.Booked := by
  obtain ⟨hcount, -⟩ := h.conn
  have hadmitted : s.admitted = 0 := population_eq_zero fun t => by simp [h.2 t, Place.isAdmitted]
  have hconnected : s.connected = 0 :=
    population_eq_zero fun t => by simp [h.2 t, Place.isConnected]
  refine ⟨?_, ?_⟩
  · rw [hcount, hconnected]
    rfl
  · rw [hcount, hadmitted]
    exact Nat.zero_le _

/-! ### What a step does to the booking -/

/-- A move changes the number of the admitted threads by one at most. -/
theorem admitted_move (s : Threads T) (t : T) (p : Place) :
    (s.move t p).admitted + (if (s.place t).isAdmitted then 1 else 0) =
      s.admitted + if p.isAdmitted then 1 else 0 :=
  population_update _ s.place t p

/-- And that of the connected ones. -/
theorem connected_move (s : Threads T) (t : T) (p : Place) :
    (s.move t p).connected + (if (s.place t).isConnected then 1 else 0) =
      s.connected + if p.isConnected then 1 else 0 :=
  population_update _ s.place t p

/-- **A step with room keeps every place booked.** -/
theorem Booked.step {s s' : Threads T} {a : Action T} (hb : s.Booked) (hroom : s.Room a)
    (h : s.next a = some s') : s'.Booked := by
  obtain ⟨hcount, hwithin⟩ := hb
  have hmax := s.conn.maxConn.toNat_lt
  rcases next_cases h with ⟨hconn, t, p, hplace, hadm, hcon⟩ | ⟨t, h', rfl, ht, -, rfl⟩ |
    ⟨t, h', rfl, ht, rfl⟩ | ⟨t, h', p, ht, hadm, hcon, rfl⟩
  · obtain rfl : s' = s.move t p := Threads.ext hconn hplace
    have h₁ := s.admitted_move t p
    have h₂ := s.connected_move t p
    rw [hadm] at h₁
    rw [hcon] at h₂
    refine ⟨?_, ?_⟩
    · rw [move_conn]
      omega
    · rw [move_conn]
      omega
  · have h₁ := s.admitted_move t (.admitted h')
    have h₂ := s.connected_move t (.admitted h')
    simp only [ht, Place.isAdmitted, Place.isConnected, if_true, Bool.false_eq_true,
      if_false] at h₁ h₂
    simp only [Room] at hroom
    refine ⟨?_, ?_⟩
    · rw [move_conn]
      omega
    · rw [move_conn]
      omega
  · have h₁ := s.admitted_move t (.connected h')
    have h₂ := s.connected_move t (.connected h')
    simp only [ht, Place.isAdmitted, Place.isConnected, if_true, Bool.false_eq_true,
      if_false] at h₁ h₂
    have hup : (s.conn.connCount + 1).toNat = s.conn.connCount.toNat + 1 := by
      rw [UInt8.toNat_add, UInt8.toNat_one]
      omega
    refine ⟨?_, ?_⟩
    · change (s.conn.connCount + 1).toNat = (s.move t (.connected h')).connected
      omega
    · change (s.conn.connCount + 1).toNat + (s.move t (.connected h')).admitted ≤ _
      change _ ≤ s.conn.maxConn.toNat
      omega
  · have h₁ := s.admitted_move t p
    have h₂ := s.connected_move t p
    have hpos : 0 < s.connected := population_pos (i := t) (by simp [ht, Place.isConnected])
    rw [hadm, ht] at h₁
    rw [hcon, ht] at h₂
    simp only [Place.isAdmitted, Place.isConnected, if_true, Bool.false_eq_true,
      if_false] at h₁ h₂
    have hdown : (s.conn.connCount - 1).toNat = s.conn.connCount.toNat - 1 := by
      rw [UInt8.toNat_sub, UInt8.toNat_one]
      omega
    refine ⟨?_, ?_⟩
    · change (s.conn.connCount - 1).toNat = (s.move t p).connected
      omega
    · change (s.conn.connCount - 1).toNat + (s.move t p).admitted ≤ s.conn.maxConn.toNat
      omega

/-- **The limit holds while there is room.** For any number of handler threads and any
interleaving of their steps, if every admission finds room then the count never exceeds
the limit. -/
theorem connCount_le_maxConn {s : Threads T} (hs : s.Initial)
    {trace : List (Action T × Threads T)} (hrun : Run (Enabled next) s trace)
    (hroom : Guarded Room s trace) : ∀ p ∈ trace, p.2.conn.connCount ≤ p.2.conn.maxConn := by
  intro p hp
  have hb := hrun.invariant (fun _ _ _ hb hroom h => hb.step hroom h) hs.booked hroom p hp
  have hwithin := hb.within
  rw [UInt8.le_iff_toNat_le]
  omega

/-- Two handlers that are admitted, served and finished in turn. -/
theorem connCount_le_maxConn_two :
    ∃ (s : Threads (Fin 2)) (trace : List (Action (Fin 2) × Threads (Fin 2))),
      s.Initial ∧ Run (Enabled next) s trace ∧ Guarded Room s trace ∧ trace.length = 8 ∧
      ∀ p ∈ trace, p.2.conn.connCount ≤ p.2.conn.maxConn := by
  let w : World :=
    { conn := { db := some 0, connInfo := [], connCount := 1, maxConn := 20, curMax := 1 }
      nextHandle := 1, log := [.acquire .conn 0] }
  let s : Threads (Fin 2) := ⟨(closeNonblockingConn w).conn, fun _ => .idle⟩
  let labels : List (Action (Fin 2)) :=
    [.start 0 .insertIntoDb, .start 1 .getById, .pass 0, .connect 0, .pass 1, .retry 0,
      .connect 1, .finish 1]
  have hsome : (traceOf next s labels).isSome := by decide +kernel
  have hinit : s.Initial :=
    ⟨⟨[], w, [1, 0, 1, 3, 1], yields_iff_run.mpr (by decide +kernel), rfl⟩, fun _ => rfl⟩
  have hrun := run_traceOf hsome
  have hroom : Guarded Room s ((traceOf next s labels).getD []) := by decide +kernel
  exact ⟨s, _, hinit, hrun, hroom, by decide +kernel, connCount_le_maxConn hinit hrun hroom⟩

/-- Twenty-one handlers pass the test while the count is zero, and connect. -/
theorem connCount_exceeds_maxConn :
    ∃ (s : Threads (Fin 21)) (trace : List (Action (Fin 21) × Threads (Fin 21))),
      s.Initial ∧ Run (Enabled next) s trace ∧
      ∃ p ∈ trace, p.2.conn.maxConn = 20 ∧ p.2.conn.connCount = 21 := by
  let w : World :=
    { conn := { db := some 0, connInfo := [], connCount := 1, maxConn := 20, curMax := 1 }
      nextHandle := 1, log := [.acquire .conn 0] }
  let s : Threads (Fin 21) := ⟨(closeNonblockingConn w).conn, fun _ => .idle⟩
  let labels : List (Action (Fin 21)) :=
    (List.finRange 21).map (.start · .getById) ++ (List.finRange 21).map .pass ++
      (List.finRange 21).map .connect
  have hsome : (traceOf next s labels).isSome := by decide +kernel
  have hinit : s.Initial :=
    ⟨⟨[], w, [1, 0, 1, 3, 1], yields_iff_run.mpr (by decide +kernel), rfl⟩, fun _ => rfl⟩
  exact ⟨s, _, hinit, run_traceOf hsome,
    ((traceOf next s labels).getD []).getLast (by decide +kernel), List.getLast_mem _,
    by decide +kernel, by decide +kernel⟩

/-! ### Without room -/

/-- The threads that are admitted can all be counted, one after another. -/
theorem exists_run_connect (n : ℕ) :
    ∀ s : Threads T, s.admitted = n → s.conn.connCount.toNat + n < 256 →
      ∃ trace, Run (Enabled next) s trace ∧ (∀ p ∈ trace, ∃ t, p.1 = .connect t) ∧
        (final s trace).conn.connCount.toNat = s.conn.connCount.toNat + n := by
  induction n with
  | zero => exact fun s _ _ => ⟨[], .nil s, fun p hp => absurd hp List.not_mem_nil, rfl⟩
  | succ n ih =>
      intro s hn hlt
      obtain ⟨t, ht⟩ := exists_of_population_pos (hn ▸ n.succ_pos : 0 < s.admitted)
      cases hp : s.place t with
      | admitted h =>
          have hmove := s.admitted_move t (.connected h)
          simp only [hp, Place.isAdmitted, if_true, Bool.false_eq_true, if_false] at hmove
          have hup : (s.conn.connCount + 1).toNat = s.conn.connCount.toNat + 1 := by
            rw [UInt8.toNat_add, UInt8.toNat_one]
            omega
          let s' : Threads T := { s.move t (.connected h) with conn := s.conn.countUp }
          have hstep : s.next (.connect t) = some s' := by simp only [next, hp, s']
          have hadm : s'.admitted = n := by
            change (s.move t (.connected h)).admitted = n
            omega
          have hcount : s'.conn.connCount.toNat = s.conn.connCount.toNat + 1 := hup
          obtain ⟨trace, hrun, hall, hfin⟩ := ih s' hadm (by omega)
          exact ⟨(.connect t, s') :: trace, .cons hstep hrun,
            List.forall_mem_cons.mpr ⟨⟨t, rfl⟩, hall⟩, hfin.trans (by omega)⟩
      | idle | testing h | connected h => simp [hp, Place.isAdmitted] at ht

/-- **Room is needed.** After one admission without room, counting the admitted threads
takes the count beyond the limit. -/
theorem exceeds_of_no_room {s s' : Threads T} {t : T} (hb : s.Booked)
    (hmax : s.conn.maxConn = maxConnNumber) (h : s.next (.pass t) = some s')
    (hroom : ¬ s.Room (.pass t)) :
    ∃ trace, Run (Enabled next) s' trace ∧ (∀ p ∈ trace, ∃ t, p.1 = .connect t) ∧
      s.conn.maxConn < (final s' trace).conn.connCount := by
  have hwithin := hb.within
  have htwenty : s.conn.maxConn.toNat = 20 := by
    rw [hmax]
    rfl
  obtain ⟨h', hp, -, rfl⟩ := next_pass h
  have hmove := s.admitted_move t (.admitted h')
  simp only [hp, Place.isAdmitted, if_true, Bool.false_eq_true, if_false] at hmove
  simp only [Room, not_lt] at hroom
  obtain ⟨trace, hrun, hall, hfin⟩ :=
    exists_run_connect _ (s.move t (.admitted h')) rfl (by rw [move_conn]; omega)
  refine ⟨trace, hrun, hall, ?_⟩
  rw [UInt8.lt_iff_toNat_lt, hfin, move_conn]
  omega

end Threads

end Yogigen
