import Yogigen.Transition
import Yogigen.Yogidb

/-!
# Accounting for Connections

`conn_count` is meant to be the number of PGconn objects opened through the shared
`Connection` and not yet finished, and `cur_max` the largest such number so far. The
`Ledger` of a log computes both numbers from the history alone; `World.Balanced` says
that the two fields agree with it.

Every call opens at most one connection and finishes it again, on every path
(`Effect`). One path is unbalanced: when `PQconnectStart` hands out an object whose
status is `CONNECTION_BAD`, `pg_open_nonblocking_conn` jumps to its error label before
the increment and decrements all the same. From a counter of zero this wraps.

## Main results

* `select_effect`, `insert_effect`: what one call does to the counter and the ledger.
* `balanced_iff_no_bad_start`: a sequence of calls keeps the record balanced throughout
  exactly when none of them is handed a bad connection object.
-/

open Supply Supply.Reader Transition

namespace Yogigen

/-! ### The ledger of a log -/

/-- The PGconn objects open at some moment and the largest number open so far. -/
structure Ledger where
  live : List Handle
  peak : ℕ
  deriving DecidableEq

namespace Ledger

/-- One event: a connection is opened, or released. -/
def step (l : Ledger) : Event → Ledger
  | .acquire .conn h => { live := h :: l.live, peak := max l.peak (l.live.length + 1) }
  | .release .conn h => { l with live := l.live.erase h }
  | _ => l

/-- One more connection was open for a while. -/
def visit (l : Ledger) : Ledger :=
  { l with peak := max l.peak (l.live.length + 1) }

end Ledger

/-- The ledger of the whole history. -/
def World.ledger (w : World) : Ledger :=
  w.log.foldl Ledger.step ⟨[], 0⟩

/-- Another event is another step of the ledger. -/
theorem ledger_record (w : World) (e : Event) : (w.record e).ledger = w.ledger.step e := by
  simp [World.ledger, World.record]

/-- What is acquired is entered in the ledger. -/
theorem ledger_acquire (w : World) (r : Resource) :
    (w.acquire r).ledger = w.ledger.step (.acquire r w.nextHandle) := by
  simp [World.ledger, World.acquire]

/-- What is finished leaves the ledger. -/
theorem ledger_finish (w : World) (h : Handle) :
    (w.finish h).ledger = w.ledger.step (.release .conn h) := by
  simp [World.ledger, World.finish]

@[simp] theorem ledger_countUp (w : World) : w.countUp.ledger = w.ledger := rfl

/-- Opening a connection and finishing it leaves the same connections open. -/
theorem ledger_open_finish (l : Ledger) (h : Handle) :
    (l.step (.acquire .conn h)).step (.release .conn h) = l.visit := by
  simp [Ledger.step, Ledger.visit]

/-- `w'` comes from `w` by events about results and notifications only. -/
def World.Quiet (w w' : World) : Prop :=
  w'.conn = w.conn ∧ w'.ledger = w.ledger

theorem World.Quiet.refl (w : World) : w.Quiet w := ⟨rfl, rfl⟩

/-- Quiet changes one after another are quiet. -/
theorem World.Quiet.trans {w₁ w₂ w₃ : World} (h : w₁.Quiet w₂) (h' : w₂.Quiet w₃) :
    w₁.Quiet w₃ :=
  ⟨h'.1.trans h.1, h'.2.trans h.2⟩

/-- `PQclear` leaves the connections and their count alone. -/
theorem quiet_clear (w : World) (res : Option Handle) : w.Quiet (w.clear res) := by
  cases res with
  | none => exact .refl w
  | some h => exact ⟨rfl, ledger_record ..⟩

/-- So does everything that is acquired but a connection. -/
theorem quiet_acquire {r : Resource} (hr : r ≠ .conn) (w : World) :
    w.Quiet (w.acquire r) := by
  refine ⟨rfl, ?_⟩
  rw [ledger_acquire]
  cases r with
  | conn => exact absurd rfl hr
  | result => rfl
  | notify => rfl

/-! ### What the parts of a call do -/

/-- A call that returns a pointer returns NULL, or what it has acquired. -/
theorem yields_pointerCall {r : Resource} {w w' : World} {p : Option Handle}
    {used : List ℤ} (h : (pointerCall r w).Yields used (p, w')) :
    (used = [0] ∧ p = none ∧ w' = w) ∨
      (∃ n, n ≠ 0 ∧ used = [n] ∧ p = some w.nextHandle ∧ w' = w.acquire r) := by
  obtain ⟨u, v, n, rfl, hn, h₁⟩ := yields_bind_iff.mp h
  obtain rfl := yields_next_iff.mp hn
  split_ifs at h₁ with h0
  · obtain ⟨rfl, ⟨⟩⟩ := yields_pure_iff.mp h₁
    exact .inl ⟨by rw [h0]; rfl, rfl, rfl⟩
  · obtain ⟨rfl, ⟨⟩⟩ := yields_pure_iff.mp h₁
    exact .inr ⟨n, h0, rfl, rfl, rfl⟩

/-- Only a new connection is entered in the ledger. -/
theorem quiet_pointerCall {r : Resource} (hr : r ≠ .conn) {w w' : World}
    {p : Option Handle} {used : List ℤ} (h : (pointerCall r w).Yields used (p, w')) :
    w.Quiet w' := by
  rcases yields_pointerCall h with ⟨-, -, rfl⟩ | ⟨n, -, -, -, rfl⟩
  · exact .refl _
  · exact quiet_acquire hr w

/-- The outcomes of a call start with a PGconn object that is `CONNECTION_BAD`. -/
def BadStart : List ℤ → Prop
  | p :: status :: _ => p ≠ 0 ∧ status = connectionBad
  | _ => False

/-- NULL for the connection is no bad start. -/
theorem not_badStart_null {outcomes : List ℤ} (h : outcomes.head? = some 0) :
    ¬ BadStart outcomes := by
  obtain ⟨rest, rfl⟩ := List.head?_eq_some_iff.mp h
  cases rest with
  | nil => exact id
  | cons status rest => exact fun hb => hb.1 rfl

/-- **Inversion of `pg_open_nonblocking_conn`**: no object, a bad object, an object that
was given up, or an open connection; only the bad object is finished uncounted. -/
theorem pgOpen_cases {w w' : World} {r : Option Handle} {used : List ℤ}
    (h : (pgOpenNonblockingConn w).Yields used (r, w')) :
    (r = none ∧ w' = w ∧ used = [0]) ∨
    (r = none ∧ w' = (w.acquire .conn).finish w.nextHandle ∧
      ∀ rest, BadStart (used ++ rest)) ∨
    (r = none ∧ w' = (w.acquire .conn).countUp.finish w.nextHandle ∧
      ∀ rest, ¬ BadStart (used ++ rest)) ∨
    (r = some w.nextHandle ∧ w' = (w.acquire .conn).countUp ∧
      ∀ rest, ¬ BadStart (used ++ rest)) := by
  obtain ⟨u, v, ⟨db, w₁⟩, rfl, hp, h₁⟩ := yields_bind_iff.mp h
  rcases yields_pointerCall hp with ⟨rfl, rfl, rfl⟩ | ⟨n, hn, rfl, rfl, rfl⟩
  · obtain ⟨rfl, ⟨⟩⟩ := yields_pure_iff.mp h₁
    exact .inl ⟨rfl, rfl, rfl⟩
  · obtain ⟨u, v, status, rfl, hs, h₂⟩ := yields_bind_iff.mp h₁
    obtain rfl := yields_next_iff.mp hs
    split_ifs at h₂ with hbad
    · obtain ⟨rfl, ⟨⟩⟩ := yields_pure_iff.mp h₂
      exact .inr (.inl ⟨rfl, rfl, fun _ => ⟨hn, hbad⟩⟩)
    · have hgood : ∀ v rest : List ℤ, ¬ BadStart ([n] ++ ([status] ++ v) ++ rest) :=
        fun _ _ hb => hbad hb.2
      obtain ⟨u, v, ok, rfl, -, h₃⟩ := yields_bind_iff.mp h₂
      split_ifs at h₃ with hok
      · obtain ⟨rfl, ⟨⟩⟩ := yields_pure_iff.mp h₃
        exact .inr (.inr (.inl ⟨rfl, rfl, hgood _⟩))
      · obtain ⟨u, v, nb, rfl, -, h₄⟩ := yields_bind_iff.mp h₃
        split_ifs at h₄ with hnb
        · obtain ⟨u, v, ret, rfl, -, h₅⟩ := yields_bind_iff.mp h₄
          split_ifs at h₅ with hret
          · obtain ⟨rfl, ⟨⟩⟩ := yields_pure_iff.mp h₅
            exact .inr (.inr (.inl ⟨rfl, rfl, hgood _⟩))
          · obtain ⟨rfl, ⟨⟩⟩ := yields_pure_iff.mp h₅
            exact .inr (.inr (.inr ⟨rfl, rfl, hgood _⟩))
        · obtain ⟨rfl, ⟨⟩⟩ := yields_pure_iff.mp h₄
          exact .inr (.inr (.inr ⟨rfl, rfl, hgood _⟩))

/-! ### What one call does -/

/-- What a call does to the connection record and the ledger, given its outcomes: no
object came, a bad object was finished uncounted, or a connection was counted, given back
and uncounted. -/
inductive Effect (w : World) (outcomes : List ℤ) (w' : World) : Prop
  | refused (null : outcomes.head? = some 0) (conn : w'.conn = w.conn)
      (ledger : w'.ledger = w.ledger)
  | bad (bad : BadStart outcomes) (conn : w'.conn = w.conn.countDown)
      (ledger : w'.ledger = w.ledger.visit)
  | served (good : ¬ BadStart outcomes) (conn : w'.conn = w.conn.countUp.countDown)
      (ledger : w'.ledger = w.ledger.visit)

/-- Events about results and notifications after a call do not change its effect. -/
theorem Effect.quiet {w w₁ w₂ : World} {outcomes : List ℤ} (h : Effect w outcomes w₁)
    (hq : w₁.Quiet w₂) : Effect w outcomes w₂ := by
  obtain ⟨hc, hl⟩ := hq
  cases h with
  | refused null conn ledger => exact .refused null (hc.trans conn) (hl.trans ledger)
  | bad bad conn ledger => exact .bad bad (hc.trans conn) (hl.trans ledger)
  | served good conn ledger => exact .served good (hc.trans conn) (hl.trans ledger)

/-- A bad start counts down what has not been counted up. -/
theorem effect_of_bad {w : World} {outcomes : List ℤ} (hb : BadStart outcomes) :
    Effect w outcomes ((w.acquire .conn).finish w.nextHandle) := by
  refine .bad hb rfl ?_
  rw [ledger_finish, ledger_acquire, ledger_open_finish]

/-- Whatever a call does with an open connection, finishing it balances the opening. -/
theorem effect_of_served {w w₁ : World} {outcomes : List ℤ} (hg : ¬ BadStart outcomes)
    (hq : (w.acquire .conn).countUp.Quiet w₁) :
    Effect w outcomes (w₁.finish w.nextHandle) := by
  obtain ⟨hc, hl⟩ := hq
  refine .served hg (congrArg Connection.countDown hc) ?_
  rw [ledger_finish, hl, ledger_countUp, ledger_acquire, ledger_open_finish]

/-- A call that is handed a good connection object counts it in and out. -/
theorem Effect.conn_of_good {w w' : World} {outcomes : List ℤ} (h : Effect w outcomes w')
    (hobject : outcomes.head? ≠ some 0) (hgood : ¬ BadStart outcomes) :
    w'.conn = w.conn.countUp.countDown := by
  cases h with
  | refused null conn ledger => exact absurd null hobject
  | bad bad conn ledger => exact absurd bad hgood
  | served good conn ledger => exact conn

/-- **`postgres_select_concurrent` gives back what it opened**, whatever the outcomes. -/
theorem select_effect {w w' : World} {r : Option Handle} {used : List ℤ}
    (h : (postgresSelectConcurrent w).Yields used (r, w')) : Effect w used w' := by
  obtain ⟨u, v, ⟨db, w₁⟩, rfl, hopen, h₁⟩ := yields_bind_iff.mp h
  rcases pgOpen_cases hopen with ⟨rfl, rfl, rfl⟩ | ⟨rfl, rfl, hb⟩ | ⟨rfl, rfl, hg⟩ |
    ⟨rfl, rfl, hg⟩
  · obtain ⟨rfl, ⟨⟩⟩ := yields_pure_iff.mp h₁
    exact .refused rfl rfl rfl
  · obtain ⟨rfl, ⟨⟩⟩ := yields_pure_iff.mp h₁
    exact effect_of_bad (hb _)
  · obtain ⟨rfl, ⟨⟩⟩ := yields_pure_iff.mp h₁
    exact effect_of_served (hg _) (.refl _)
  · obtain ⟨u, v, ret, rfl, -, h₂⟩ := yields_bind_iff.mp h₁
    split_ifs at h₂ with hret
    · obtain ⟨rfl, ⟨⟩⟩ := yields_pure_iff.mp h₂
      exact effect_of_served (hg _) (.refl _)
    · obtain ⟨u, v, left, rfl, -, h₃⟩ := yields_bind_iff.mp h₂
      cases left with
      | none =>
          obtain ⟨rfl, ⟨⟩⟩ := yields_pure_iff.mp h₃
          exact effect_of_served (hg _) (.refl _)
      | some i =>
          dsimp only at h₃
          split_ifs at h₃ with hi
          · obtain ⟨rfl, ⟨⟩⟩ := yields_pure_iff.mp h₃
            exact effect_of_served (hg _) (.refl _)
          · obtain ⟨u, v, ⟨res, w₂⟩, rfl, hres, h₄⟩ := yields_bind_iff.mp h₃
            have hquiet := quiet_pointerCall (by decide) hres
            obtain ⟨u, v, status, rfl, -, h₅⟩ := yields_bind_iff.mp h₄
            split_ifs at h₅ with hst
            · obtain ⟨rfl, ⟨⟩⟩ := yields_pure_iff.mp h₅
              exact effect_of_served (hg _) hquiet
            · obtain ⟨rfl, ⟨⟩⟩ := yields_pure_iff.mp h₅
              exact effect_of_served (hg _) (hquiet.trans (quiet_clear _ _))

/-- The error label frees no connection but with `PQfinish`. -/
theorem quiet_freeNotify {w w' : World} {notify : Var} {used : List ℤ}
    (h : (freeNotify w notify).Yields used w') : w.Quiet w' := by
  have hrecord : ∀ (w : World) (e : Event), (∀ l : Ledger, l.step e = l) →
      w.Quiet (w.record e) :=
    fun w e he => ⟨rfl, (ledger_record w e).trans (he _)⟩
  cases notify with
  | unset =>
      obtain ⟨u, v, garbage, rfl, -, h₁⟩ := yields_bind_iff.mp h
      split_ifs at h₁ with hg
      · obtain ⟨rfl, rfl⟩ := yields_pure_iff.mp h₁
        exact hrecord w _ fun _ => rfl
      · obtain ⟨rfl, rfl⟩ := yields_pure_iff.mp h₁
        exact (hrecord w _ fun _ => rfl).trans (hrecord _ _ fun _ => rfl)
  | null =>
      obtain ⟨rfl, rfl⟩ := yields_pure_iff.mp h
      exact .refl _
  | held n =>
      obtain ⟨rfl, rfl⟩ := yields_pure_iff.mp h
      exact hrecord w _ fun _ => rfl

/-- After `error:` the function returns `0`. -/
theorem insertError_ret {w w' : World} {db res : Option Handle} {notify : Var} {ret : ℤ}
    {used : List ℤ} (h : (insertError w db res notify).Yields used (ret, w')) : ret = 0 := by
  obtain ⟨u, v, w₁, rfl, -, h₁⟩ := yields_bind_iff.mp h
  cases db with
  | none =>
      obtain ⟨rfl, ⟨⟩⟩ := yields_pure_iff.mp h₁
      rfl
  | some n =>
      obtain ⟨rfl, ⟨⟩⟩ := yields_pure_iff.mp h₁
      rfl

/-- The error label of `postgres_insert_concurrent` finishes the connection it is given. -/
theorem insertError_cases {w w' : World} {db res : Option Handle} {notify : Var} {ret : ℤ}
    {used : List ℤ} (h : (insertError w db res notify).Yields used (ret, w')) :
    ∃ w₁, w.Quiet w₁ ∧ w' = db.elim w₁ w₁.finish := by
  obtain ⟨u, v, w₁, rfl, hfree, h₁⟩ := yields_bind_iff.mp h
  refine ⟨w₁, (quiet_clear w res).trans (quiet_freeNotify hfree), ?_⟩
  cases db with
  | none =>
      obtain ⟨rfl, ⟨⟩⟩ := yields_pure_iff.mp h₁
      rfl
  | some n =>
      obtain ⟨rfl, ⟨⟩⟩ := yields_pure_iff.mp h₁
      rfl

/-- The wait loop only obtains a notification. -/
theorem quiet_waitLoop {w w' : World} {n : Handle} {used : List ℤ}
    (h : (loop (waitBody w) .unset).Yields used (.inr (n, w'))) : w.Quiet w' := by
  refine Yields.loop_induct (fun _ : Var => True)
    (fun left => ∀ n w', left = .inr (n, w') → w.Quiet w')
    (fun _ _ _ _ _ => trivial) ?_ _ trivial le_rfl h n w' rfl
  rintro notify - used _ hbody n w' rfl
  obtain ⟨u, v, sock, rfl, -, h₁⟩ := yields_bind_iff.mp hbody
  split_ifs at h₁ with hsock
  · obtain ⟨rfl, ⟨⟩⟩ := yields_pure_iff.mp h₁
  · obtain ⟨u, v, ret, rfl, -, h₂⟩ := yields_bind_iff.mp h₁
    split_ifs at h₂ with hret
    · obtain ⟨rfl, ⟨⟩⟩ := yields_pure_iff.mp h₂
    · obtain ⟨u, v, consumed, rfl, -, h₃⟩ := yields_bind_iff.mp h₂
      obtain ⟨u, v, ⟨p, w₁⟩, rfl, hp, h₄⟩ := yields_bind_iff.mp h₃
      have hquiet := quiet_pointerCall (by decide) hp
      cases p with
      | none => obtain ⟨rfl, ⟨⟩⟩ := yields_pure_iff.mp h₄
      | some m =>
          obtain ⟨rfl, ⟨⟩⟩ := yields_pure_iff.mp h₄
          exact hquiet

/-- **`postgres_insert_concurrent` gives back what it opened**, whatever the outcomes. -/
theorem insert_effect {w w' : World} {ret : ℤ} {used : List ℤ}
    (h : (postgresInsertConcurrent w).Yields used (ret, w')) : Effect w used w' := by
  obtain ⟨u, v, ⟨db, w₁⟩, rfl, hopen, h₁⟩ := yields_bind_iff.mp h
  rcases pgOpen_cases hopen with ⟨rfl, rfl, rfl⟩ | ⟨rfl, rfl, hb⟩ | ⟨rfl, rfl, hg⟩ |
    ⟨rfl, rfl, hg⟩
  · obtain ⟨w₂, hq, rfl⟩ := insertError_cases h₁
    exact Effect.quiet (.refused rfl rfl rfl) hq
  · obtain ⟨w₂, hq, rfl⟩ := insertError_cases h₁
    exact (effect_of_bad (hb _)).quiet hq
  · obtain ⟨w₂, hq, rfl⟩ := insertError_cases h₁
    exact (effect_of_served (hg _) (.refl _)).quiet hq
  · obtain ⟨u, v, ⟨res, w₂⟩, rfl, hres, h₂⟩ := yields_bind_iff.mp h₁
    have hquiet := quiet_pointerCall (by decide) hres
    obtain ⟨u, v, status, rfl, -, h₃⟩ := yields_bind_iff.mp h₂
    split_ifs at h₃ with hst
    · obtain ⟨w₃, hq, rfl⟩ := insertError_cases h₃
      exact effect_of_served (hg _) (hquiet.trans hq)
    · have hclear := hquiet.trans (quiet_clear w₂ res)
      obtain ⟨u, v, sent, rfl, -, h₄⟩ := yields_bind_iff.mp h₃
      split_ifs at h₄ with hsent
      · obtain ⟨w₃, hq, rfl⟩ := insertError_cases h₄
        exact effect_of_served (hg _) (hclear.trans hq)
      · obtain ⟨u, v, left, rfl, hloop, h₅⟩ := yields_bind_iff.mp h₄
        rcases left with notify | ⟨n, w₃⟩
        · obtain ⟨w₄, hq, rfl⟩ := insertError_cases h₅
          exact effect_of_served (hg _) (hclear.trans hq)
        · obtain ⟨u, v, cmp, rfl, -, h₆⟩ := yields_bind_iff.mp h₅
          obtain ⟨rfl, ⟨⟩⟩ := yields_pure_iff.mp h₆
          refine effect_of_served (hg _) ((hclear.trans (quiet_waitLoop hloop)).trans ?_)
          exact ⟨rfl, ledger_record ..⟩

/-! ### Sequences of calls -/

/-- The calls that use the shared connection record, with the outcomes they meet. -/
inductive Call
  | close
  | select (outcomes : List ℤ)
  | insert (outcomes : List ℤ)

/-- One completed call. -/
def Call.Step (w : World) : Call → World → Prop
  | .close, w' => w' = closeNonblockingConn w
  | .select outcomes, w' => ∃ r, (postgresSelectConcurrent w).Yields outcomes (r, w')
  | .insert outcomes, w' => ∃ r, (postgresInsertConcurrent w).Yields outcomes (r, w')

/-- The call is handed a PGconn object that is `CONNECTION_BAD`. -/
def Call.BadStart : Call → Prop
  | .close => False
  | .select outcomes => Yogigen.BadStart outcomes
  | .insert outcomes => Yogigen.BadStart outcomes

/-- `conn_count` and `cur_max` agree with the ledger. -/
def World.Balanced (w : World) : Prop :=
  w.conn.connCount.toNat = w.ledger.live.length ∧ w.conn.curMax.toNat = w.ledger.peak

/-- Between calls only the loading connection can be open. -/
def World.Settled (w : World) : Prop :=
  w.ledger.live = w.conn.db.toList

@[simp] theorem db_countUp (c : Connection) : c.countUp.db = c.db := rfl

@[simp] theorem db_countDown (c : Connection) : c.countDown.db = c.db := rfl

/-- Settled before, settled afterwards. -/
theorem Effect.settled {w w' : World} {outcomes : List ℤ} (h : Effect w outcomes w')
    (hs : w.Settled) : w'.Settled := by
  rw [World.Settled] at hs ⊢
  cases h with
  | refused _ conn ledger => rw [conn, ledger, hs]
  | bad _ conn ledger => rw [conn, ledger, Ledger.visit, hs, db_countDown]
  | served _ conn ledger => rw [conn, ledger, Ledger.visit, hs, db_countDown, db_countUp]

/-- A counter of eight bits that is decremented is another number, also at zero. -/
theorem sub_one_toNat_ne (n : UInt8) : (n - 1).toNat ≠ n.toNat := by
  intro h
  have hn := n.toNat_lt
  rw [UInt8.toNat_sub] at h
  simp only [UInt8.reduceToNat] at h
  omega

/-- Counting a connection in and out changes neither field of a balanced record except
that `cur_max` follows the peak. -/
theorem balanced_visit {c : Connection} {l : Ledger} (hl : l.live.length ≤ 1)
    (hc : c.connCount.toNat = l.live.length) (hm : c.curMax.toNat = l.peak) :
    c.countUp.countDown.connCount.toNat = l.visit.live.length ∧
      c.countUp.countDown.curMax.toNat = l.visit.peak := by
  have hup : (c.connCount + 1).toNat = l.live.length + 1 := by
    rw [UInt8.toNat_add, hc]
    simp only [UInt8.reduceToNat]
    omega
  refine ⟨?_, ?_⟩
  · have hdown : c.connCount + 1 - 1 = c.connCount := by
      rw [UInt8.add_sub_cancel]
    simp only [Connection.countUp, Connection.countDown, hdown, Ledger.visit, hc]
  · simp only [Connection.countUp, Connection.countDown, Ledger.visit]
    split_ifs with hgt
    · rw [gt_iff_lt, UInt8.lt_iff_toNat_lt, hup, hm] at hgt
      rw [hup, max_eq_right (by omega)]
    · rw [gt_iff_lt, UInt8.lt_iff_toNat_lt, hup, hm] at hgt
      rw [hm, max_eq_left (by omega)]

/-- One call keeps a balanced record balanced exactly when its start was not bad. -/
theorem Effect.balanced_iff {w w' : World} {outcomes : List ℤ} (h : Effect w outcomes w')
    (hs : w.Settled) (hb : w.Balanced) :
    w'.Balanced ↔ ¬ Yogigen.BadStart outcomes := by
  obtain ⟨hcount, hmax⟩ := hb
  have hlive : w.ledger.live.length ≤ 1 := by
    rw [hs]
    cases w.conn.db <;> simp
  cases h with
  | refused null conn ledger =>
      refine iff_of_true ?_ (not_badStart_null null)
      rw [World.Balanced, conn, ledger]
      exact ⟨hcount, hmax⟩
  | bad bad conn ledger =>
      refine iff_of_false (fun hbal => ?_) (not_not_intro bad)
      obtain ⟨hcount', -⟩ := hbal
      rw [conn, ledger, Ledger.visit, ← hcount] at hcount'
      exact sub_one_toNat_ne _ hcount'
  | served good conn ledger =>
      refine iff_of_true ?_ good
      rw [World.Balanced, conn, ledger]
      exact balanced_visit hlive hcount hmax

/-- Closing keeps the account settled. -/
theorem close_settled {w : World} (hs : w.Settled) : (closeNonblockingConn w).Settled := by
  rw [World.Settled] at hs ⊢
  cases hdb : w.conn.db with
  | none => simpa only [closeNonblockingConn, hdb] using hs
  | some h =>
      simp only [closeNonblockingConn, hdb]
      have hl := ledger_finish w h
      rw [World.ledger] at hl ⊢
      rw [hl, Ledger.step, hs, hdb]
      simp

/-- And the balance. -/
theorem close_balanced {w : World} (hs : w.Settled) (hb : w.Balanced) :
    (closeNonblockingConn w).Balanced := by
  obtain ⟨hcount, hmax⟩ := hb
  cases hdb : w.conn.db with
  | none => simpa only [closeNonblockingConn, hdb] using ⟨hcount, hmax⟩
  | some h =>
      have hl := ledger_finish w h
      rw [hs, hdb] at hcount
      have hone : w.conn.connCount = 1 := UInt8.toNat_inj.mp hcount
      simp only [closeNonblockingConn, hdb, World.Balanced]
      rw [World.ledger] at hl ⊢
      rw [hl, Ledger.step, hs, hdb]
      refine ⟨?_, ?_⟩
      · simp [World.finish, Connection.countDown, hone]
      · simpa [World.finish, Connection.countDown] using hmax

/-- Every call keeps the account settled. -/
theorem Call.Step.settled {w w' : World} {c : Call} (h : c.Step w w') (hs : w.Settled) :
    w'.Settled := by
  cases c with
  | close =>
      obtain rfl := h
      exact close_settled hs
  | select outcomes =>
      obtain ⟨r, h⟩ := h
      exact (select_effect h).settled hs
  | insert outcomes =>
      obtain ⟨r, h⟩ := h
      exact (insert_effect h).settled hs

/-- **One call** keeps the balance unless it starts badly. -/
theorem Call.Step.balanced_iff {w w' : World} {c : Call} (h : c.Step w w')
    (hs : w.Settled) (hb : w.Balanced) : w'.Balanced ↔ ¬ c.BadStart := by
  cases c with
  | close =>
      obtain rfl := h
      exact iff_of_true (close_balanced hs hb) id
  | select outcomes =>
      obtain ⟨r, h⟩ := h
      exact (select_effect h).balanced_iff hs hb
  | insert outcomes =>
      obtain ⟨r, h⟩ := h
      exact (insert_effect h).balanced_iff hs hb

/-- A `Connection` produced by `open_conn` starts settled and balanced. -/
theorem openConn_spec {connInfo : Bytes} {w : World} {used : List ℤ}
    (h : (openConn connInfo).Yields used (some w)) : w.Settled ∧ w.Balanced := by
  obtain ⟨u, v, ⟨db, w₁⟩, rfl, hopen, h₁⟩ := yields_bind_iff.mp h
  rcases pgOpen_cases hopen with ⟨rfl, -, -⟩ | ⟨rfl, -, -⟩ | ⟨rfl, -, -⟩ | ⟨rfl, rfl, -⟩
  · obtain ⟨rfl, ⟨⟩⟩ := yields_pure_iff.mp h₁
  · obtain ⟨rfl, ⟨⟩⟩ := yields_pure_iff.mp h₁
  · obtain ⟨rfl, ⟨⟩⟩ := yields_pure_iff.mp h₁
  · obtain ⟨rfl, ⟨⟩⟩ := yields_pure_iff.mp h₁
    exact ⟨rfl, rfl, rfl⟩

/-- **Exact accounting.** Over every sequence of calls on a `Connection` from `open_conn`
and every outcome of the calls inside them, the record agrees with the ledger after each
call if and only if no call was handed a bad connection object. -/
theorem balanced_iff_no_bad_start {connInfo : Bytes} {w : World} {used : List ℤ}
    (hopen : (openConn connInfo).Yields used (some w)) {trace : List (Call × World)}
    (hrun : Run (fun w c w' => Call.Step w c w') w trace) :
    (∀ p ∈ trace, p.2.Balanced) ↔ ∀ p ∈ trace, ¬ p.1.BadStart := by
  obtain ⟨hs, hb⟩ := openConn_spec hopen
  rw [← guarded_label (fun c : Call => ¬ c.BadStart) (s := w)]
  exact hrun.forall_iff_guarded (fun _ _ _ hs h => h.settled hs)
    (fun _ _ _ hs hb h => h.balanced_iff hs hb) hs hb

/-- A load that succeeds, the loading connection closed, and a select that is served. -/
theorem balanced_iff_no_bad_start_served :
    ∃ (w w₁ w₂ : World) (trace : List (Call × World)),
      (openConn []).Yields [1, 0, 1, 3, 1] (some w) ∧
      trace = [(.close, w₁), (.select [1, 0, 1, 3, 1, 1, 1, 1, 1, 0, 1, 2], w₂)] ∧
      Run (fun w c w' => Call.Step w c w') w trace ∧ ∀ p ∈ trace, p.2.Balanced := by
  let w : World :=
    { conn := { db := some 0, connInfo := [], connCount := 1, maxConn := 20, curMax := 1 }
      nextHandle := 1, log := [.acquire .conn 0] }
  let w₁ := closeNonblockingConn w
  let w₂ : World :=
    { w₁ with
      nextHandle := 3
      log := w₁.log ++ [.acquire .conn 1, .acquire .result 2, .release .conn 1] }
  have hopen : (openConn []).Yields [1, 0, 1, 3, 1] (some w) :=
    yields_iff_run.mpr (by decide +kernel)
  have hselect : (postgresSelectConcurrent w₁).Yields [1, 0, 1, 3, 1, 1, 1, 1, 1, 0, 1, 2]
      (some 2, w₂) := yields_iff_run.mpr (by decide +kernel)
  have hrun : Run (fun w c w' => Call.Step w c w') w [(.close, w₁), (.select _, w₂)] :=
    .cons rfl (.cons ⟨_, hselect⟩ (.nil _))
  refine ⟨w, w₁, w₂, _, hopen, rfl, hrun, (balanced_iff_no_bad_start hopen hrun).mpr ?_⟩
  simp [Call.BadStart, BadStart, connectionBad]

/-- After the load, one select whose PGconn object is bad leaves `conn_count` at 255 with
no connection open. -/
theorem not_balanced_after_bad_start :
    ∃ w w₁ w₂ : World, (openConn []).Yields [1, 0, 1, 3, 1] (some w) ∧
      Run (fun w c w' => Call.Step w c w') w
        [(.close, w₁), (.select [1, connectionBad], w₂)] ∧
      w₂.conn.connCount = 255 ∧ w₂.ledger.live = [] ∧ ¬ w₂.Balanced := by
  let w : World :=
    { conn := { db := some 0, connInfo := [], connCount := 1, maxConn := 20, curMax := 1 }
      nextHandle := 1, log := [.acquire .conn 0] }
  let w₁ := closeNonblockingConn w
  have hselect : (postgresSelectConcurrent w₁).Yields [1, connectionBad]
      (none, (w₁.acquire .conn).finish w₁.nextHandle) :=
    yields_iff_run.mpr (by decide +kernel)
  refine ⟨w, w₁, _, yields_iff_run.mpr (by decide +kernel), .cons rfl (.cons ⟨_, hselect⟩
    (.nil _)), by decide, by decide, fun h => ?_⟩
  exact absurd h.1 (by decide)

end Yogigen
