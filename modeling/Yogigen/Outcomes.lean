import Yogigen.Accounting

/-!
# Traces of the Database Client

Which outcomes of the libpq, `poll` and `select` calls lead where: the outcomes on which a
connection opens, on which `postgres_select_concurrent` has a result to return, and on
which `postgres_insert_concurrent` gets to its first notification. Each is a predicate on
the outcomes alone, in the order of the calls.

## Main results

* `pgOpen_some_iff`: the outcomes on which a connection opens.
* `select_fair_iff`: the traces on which `postgres_select_concurrent` returns a result
  when it should and gives up only when it should.
* `insert_clean_iff`: the traces on which `postgres_insert_concurrent` releases what it
  obtained and nothing else.
-/

open Supply Supply.Reader

namespace Yogigen

/-! ### Opening -/

/-- The outcomes of a polling loop that ends with the connection established. -/
inductive Connects : List ℤ → Prop
  | ok (polled : ℤ) : Connects [polled, pollingOk]
  | again (polled : ℤ) {ret : ℤ} {rest : List ℤ} (hfail : ret ≠ pollingFailed)
      (herr : ret ≠ -1) (hok : ret ≠ pollingOk) (h : Connects rest) :
      Connects (polled :: ret :: rest)

/-- The outcomes of making an established connection nonblocking, if it is not. -/
def Unblocks (outcomes : List ℤ) : Prop :=
  (∃ nonblocking, nonblocking ≠ 0 ∧ outcomes = [nonblocking]) ∨
    ∃ ret, ret ≠ -1 ∧ outcomes = [0, ret]

/-- The outcomes on which `pg_open_nonblocking_conn` opens a connection. -/
def Opens (outcomes : List ℤ) : Prop :=
  ∃ object status polls tail, outcomes = object :: status :: (polls ++ tail) ∧
    object ≠ 0 ∧ status ≠ connectionBad ∧ Connects polls ∧ Unblocks tail

/-- One round of the polling loop, entered with a status that is not an error. -/
theorem yields_openBody_iff {ret : ℤ} (herr : ret ≠ -1) (hzero : ret ≠ 0) {used : List ℤ}
    {r : ℤ ⊕ Bool} :
    (openBody ret).Yields used r ↔
      ∃ polled ret', used = [polled, ret'] ∧
        r = if ret' = pollingFailed then .inr false
          else if ret' = pollingOk then .inr true else .inl ret' := by
  rw [openBody, yields_next_bind_iff]
  simp only [if_neg herr, if_neg hzero]
  constructor
  · rintro ⟨polled, rest, rfl, h⟩
    obtain ⟨ret', rest', rfl, h'⟩ := yields_next_bind_iff.mp h
    refine ⟨polled, ret', ?_⟩
    split_ifs at h' ⊢ with hfail hok
    all_goals
      obtain ⟨rfl, rfl⟩ := yields_pure_iff.mp h'
      exact ⟨rfl, rfl⟩
  · rintro ⟨polled, ret', rfl, rfl⟩
    refine ⟨polled, [ret'], rfl, yields_next_bind_iff.mpr ⟨ret', [], rfl, ?_⟩⟩
    split_ifs with hfail hok
    all_goals exact yields_pure_iff.mpr ⟨rfl, rfl⟩

/-- Outcomes that connect make the loop return a connection. -/
theorem Connects.yields {outcomes : List ℤ} (h : Connects outcomes) :
    ∀ {ret : ℤ}, ret ≠ -1 → ret ≠ 0 → (loop openBody ret).Yields outcomes true := by
  induction h with
  | ok polled =>
      intro ret herr hzero
      refine yields_loop_iff.mpr (.inl ?_)
      exact (yields_openBody_iff herr hzero).mpr ⟨polled, pollingOk, rfl, rfl⟩
  | @again polled ret' rest hfail herr' hok h ih =>
      intro ret herr hzero
      refine yields_loop_iff.mpr (.inr ⟨[polled, ret'], rest, ret', rfl, by simp, ?_,
        ih herr' hfail⟩)
      exact (yields_openBody_iff herr hzero).mpr
        ⟨polled, ret', rfl, by rw [if_neg hfail, if_neg hok]⟩

/-- A status of `-1` ends the polling loop at its next round. -/
theorem not_yields_openLoop_err {used : List ℤ} :
    ¬ (loop openBody (-1)).Yields used true := by
  have hbody : ∀ {used : List ℤ} {r : ℤ ⊕ Bool}, (openBody (-1)).Yields used r →
      r = .inr false := by
    intro used r h
    obtain ⟨polled, rest, rfl, h₁⟩ := yields_next_bind_iff.mp h
    exact (yields_pure_iff.mp h₁).2
  intro h
  rcases yields_loop_iff.mp h with hexit | ⟨u, v, s', rfl, -, hu, -⟩
  · exact absurd (Sum.inr.inj (hbody hexit)) (by decide)
  · exact absurd (hbody hu) (by simp)

/-- And no others do. -/
theorem connects_of_yields (n : ℕ) :
    ∀ {ret : ℤ} {used : List ℤ}, ret ≠ -1 → ret ≠ 0 → used.length ≤ n →
      (loop openBody ret).Yields used true → Connects used := by
  induction n using Nat.strong_induction_on with
  | _ n ih =>
      intro ret used herr hzero hn h
      rcases yields_loop_iff.mp h with hexit | ⟨u, v, s', rfl, hne, hu, hv⟩
      · obtain ⟨polled, ret', rfl, hr⟩ := (yields_openBody_iff herr hzero).mp hexit
        split_ifs at hr with hfail hok
        · exact absurd (Sum.inr.inj hr) (by decide)
        · rw [hok]
          exact .ok polled
      · obtain ⟨polled, ret', rfl, hr⟩ := (yields_openBody_iff herr hzero).mp hu
        split_ifs at hr with hfail hok
        obtain rfl := Sum.inl.inj hr
        have herr' : s' ≠ -1 := by
          rintro rfl
          exact not_yields_openLoop_err hv
        have hlt : v.length < n := by
          simp only [List.length_append, List.length_cons, List.length_nil] at hn
          omega
        exact .again polled hfail herr' hok (ih v.length hlt herr' hfail le_rfl hv)

/-- **When a connection opens.** -/
theorem pgOpen_some_iff {w w' : World} {h : Handle} {used : List ℤ} :
    (pgOpenNonblockingConn w).Yields used (some h, w') ↔
      Opens used ∧ h = w.nextHandle ∧ w' = (w.acquire .conn).countUp := by
  constructor
  · intro hy
    obtain ⟨u, v, ⟨db, w₁⟩, rfl, hp, h₁⟩ := yields_bind_iff.mp hy
    rcases yields_pointerCall hp with ⟨rfl, rfl, rfl⟩ | ⟨n, hn, rfl, rfl, rfl⟩
    · exact absurd (yields_pure_iff.mp h₁).2 (by simp)
    · obtain ⟨status, v, rfl, h₂⟩ := yields_next_bind_iff.mp h₁
      split_ifs at h₂ with hbad
      · exact absurd (yields_pure_iff.mp h₂).2 (by simp)
      · obtain ⟨polls, v, ok, rfl, hpolls, h₃⟩ := yields_bind_iff.mp h₂
        split_ifs at h₃ with hok
        · exact absurd (yields_pure_iff.mp h₃).2 (by simp)
        · have hconnects : Connects polls :=
            connects_of_yields _ (by decide) (by decide) le_rfl
              (Bool.eq_true_of_not_eq_false hok ▸ hpolls)
          have hopens : ∀ {tail}, Unblocks tail → Opens ([n] ++ status :: (polls ++ tail)) :=
            fun ht => ⟨n, status, polls, _, rfl, hn, hbad, hconnects, ht⟩
          obtain ⟨nonblocking, v, rfl, h₄⟩ := yields_next_bind_iff.mp h₃
          split_ifs at h₄ with hnb
          · obtain ⟨ret, v, rfl, h₅⟩ := yields_next_bind_iff.mp h₄
            split_ifs at h₅ with hret
            · exact absurd (yields_pure_iff.mp h₅).2 (by simp)
            · obtain ⟨rfl, ⟨⟩⟩ := yields_pure_iff.mp h₅
              exact ⟨hopens (.inr ⟨ret, hret, by rw [hnb]⟩), rfl, rfl⟩
          · obtain ⟨rfl, ⟨⟩⟩ := yields_pure_iff.mp h₄
            exact ⟨hopens (.inl ⟨nonblocking, hnb, rfl⟩), rfl, rfl⟩
  · rintro ⟨⟨n, status, polls, tail, rfl, hn, hbad, hconnects, htail⟩, rfl, rfl⟩
    have hpointer : (pointerCall .conn w).Yields [n] (some w.nextHandle, w.acquire .conn) := by
      refine yields_next_bind_iff.mpr ⟨n, [], rfl, ?_⟩
      rw [if_neg hn]
      exact yields_pure_iff.mpr ⟨rfl, rfl⟩
    refine yields_bind_iff.mpr ⟨[n], _, _, rfl, hpointer, ?_⟩
    refine yields_next_bind_iff.mpr ⟨status, _, rfl, ?_⟩
    rw [if_neg hbad]
    refine yields_bind_iff.mpr ⟨polls, tail, true, rfl,
      hconnects.yields (by decide) (by decide), ?_⟩
    rw [if_neg (by decide)]
    rcases htail with ⟨nonblocking, hnb, rfl⟩ | ⟨ret, hret, rfl⟩
    · refine yields_next_bind_iff.mpr ⟨nonblocking, [], rfl, ?_⟩
      rw [if_neg hnb]
      exact yields_pure_iff.mpr ⟨rfl, rfl⟩
    · refine yields_next_bind_iff.mpr ⟨0, [ret], rfl, ?_⟩
      rw [if_pos rfl]
      refine yields_next_bind_iff.mpr ⟨ret, [], rfl, ?_⟩
      rw [if_neg hret]
      exact yields_pure_iff.mpr ⟨rfl, rfl⟩

/-- A connection that is established at the first poll. -/
theorem opens_at_once : Opens [1, 0, 1, 3, 1] :=
  ⟨1, 0, [1, 3], [1], rfl, by decide, by decide, .ok 1, .inl ⟨1, by decide, rfl⟩⟩

/-! ### Selecting -/

/-- A poll that reports input, and input that libpq takes in. -/
def Input (outcomes : List ℤ) : Prop :=
  ∃ polled revents consumed, outcomes = [polled, revents, consumed] ∧
    polled ≠ -1 ∧ polled ≠ 0 ∧ revents ≠ 0 ∧ consumed ≠ 0

/-- Answers of `PQisBusy` of which the last is the first `0`. -/
def Busy (outcomes : List ℤ) : Prop :=
  ∃ waits, outcomes = waits ++ [0] ∧ ∀ ret ∈ waits, ret ≠ 0

/-- The connection opens, the query is sent, the first `k` polls time out, the next one
reports input, and the outcomes go on with `rest` once libpq is not busy any more. -/
def InputAfter (k : ℕ) (outcomes rest : List ℤ) : Prop :=
  ∃ opening sent input busy,
    outcomes = opening ++ sent :: (List.replicate k 0 ++ (input ++ busy) ++ rest) ∧
      Opens opening ∧ sent ≠ 0 ∧ Input input ∧ Busy busy

/-- The outcomes that call for a result: some one of the three polls reports input before
any error, and `PQgetResult` delivers an object with the status `PGRES_TUPLES_OK`. -/
def Deserves (outcomes : List ℤ) : Prop :=
  ∃ k < 3, ∃ object rest, InputAfter k outcomes (object :: tuplesOk :: rest) ∧ object ≠ 0

/-- All three polls time out. -/
def TimedOut (outcomes : List ℤ) : Prop :=
  ∃ opening sent rest, outcomes = opening ++ sent :: (List.replicate 3 0 ++ rest) ∧
    Opens opening ∧ sent ≠ 0

/-- The attempts loop is left with no attempts, which is reported as too many timeouts. -/
def GivesUp (outcomes : List ℤ) : Prop :=
  ∃ opening sent polls rest, outcomes = opening ++ sent :: (polls ++ rest) ∧
    Opens opening ∧ sent ≠ 0 ∧ (loop selectBody 3).Yields polls (some 0)

theorem busyBody_eq :
    busyBody () = (do
      let ret ← next
      if ret = 0 then return .inr () else return .inl ()) := rfl

/-- A turn of the busy loop ends it when `PQisBusy` returns zero. -/
theorem yields_busyBody_iff {used : List ℤ} {r : Unit ⊕ Unit} :
    (busyBody ()).Yields used r ↔
      ∃ ret, used = [ret] ∧ r = if ret = 0 then .inr () else .inl () := by
  rw [busyBody_eq, yields_next_bind_iff]
  constructor
  · rintro ⟨ret, rest, rfl, h⟩
    refine ⟨ret, ?_⟩
    split_ifs at h ⊢ with hret
    all_goals
      obtain ⟨rfl, rfl⟩ := yields_pure_iff.mp h
      exact ⟨rfl, rfl⟩
  · rintro ⟨ret, rfl, rfl⟩
    refine ⟨ret, [], rfl, ?_⟩
    split_ifs with hret
    all_goals exact yields_pure_iff.mpr ⟨rfl, rfl⟩

/-- The loop ends with the first zero. -/
theorem busy_of_yields (n : ℕ) :
    ∀ {used : List ℤ}, used.length ≤ n → (loop busyBody ()).Yields used () → Busy used := by
  induction n using Nat.strong_induction_on with
  | _ n ih =>
      intro used hn h
      rcases yields_loop_iff.mp h with hexit | ⟨u, v, s', rfl, hne, hu, hv⟩
      · obtain ⟨ret, rfl, hr⟩ := yields_busyBody_iff.mp hexit
        split_ifs at hr with hret
        rw [hret]
        exact ⟨[], rfl, by simp⟩
      · obtain ⟨ret, rfl, hr⟩ := yields_busyBody_iff.mp hu
        split_ifs at hr with hret
        have hlt : v.length < n := by
          simp only [List.length_append, List.length_cons, List.length_nil] at hn
          omega
        obtain ⟨waits, rfl, hwaits⟩ := ih v.length hlt le_rfl hv
        refine ⟨ret :: waits, rfl, fun x hx => ?_⟩
        rcases List.mem_cons.mp hx with rfl | hx
        · exact hret
        · exact hwaits x hx

/-- And it does end there. -/
theorem Busy.yields {outcomes : List ℤ} (h : Busy outcomes) :
    (loop busyBody ()).Yields outcomes () := by
  obtain ⟨waits, rfl, hwaits⟩ := h
  induction waits with
  | nil => exact yields_loop_iff.mpr (.inl (yields_busyBody_iff.mpr ⟨0, rfl, rfl⟩))
  | cons ret waits ih =>
      obtain ⟨hret, hrest⟩ := List.forall_mem_cons.mp hwaits
      refine yields_loop_iff.mpr (.inr ⟨[ret], waits ++ [0], (), rfl, by simp, ?_, ih hrest⟩)
      exact yields_busyBody_iff.mpr ⟨ret, rfl, by rw [if_neg hret]⟩

/-- One attempt: an error, a timeout, or input. -/
theorem selectBody_cases {i : UInt8} {used : List ℤ} {r : UInt8 ⊕ Option UInt8}
    (h : (selectBody i).Yields used r) :
    r = .inr none ∨
    (used = [0] ∧ r = if i - 1 = 0 then .inr (some (i - 1)) else .inl (i - 1)) ∨
    (∃ input busy, used = input ++ busy ∧ Input input ∧ Busy busy ∧
      r = .inr (some (i - 1))) := by
  obtain ⟨polled, v, rfl, h₁⟩ := yields_next_bind_iff.mp h
  dsimp only at h₁
  by_cases herr : polled = -1
  · rw [if_pos herr] at h₁
    exact .inl (yields_pure_iff.mp h₁).2
  · rw [if_neg herr] at h₁
    by_cases hzero : polled = 0
    · rw [if_pos hzero] at h₁
      refine .inr (.inl ?_)
      split_ifs at h₁ ⊢ with hi
      all_goals
        obtain ⟨rfl, rfl⟩ := yields_pure_iff.mp h₁
        exact ⟨by rw [hzero], rfl⟩
    · rw [if_neg hzero] at h₁
      obtain ⟨revents, v, rfl, h₂⟩ := yields_next_bind_iff.mp h₁
      split_ifs at h₂ with hrevents
      · exact .inl (yields_pure_iff.mp h₂).2
      · obtain ⟨consumed, v, rfl, h₃⟩ := yields_next_bind_iff.mp h₂
        split_ifs at h₃ with hconsumed
        · exact .inl (yields_pure_iff.mp h₃).2
        · obtain ⟨busy, v, u, rfl, hbusy, h₄⟩ := yields_bind_iff.mp h₃
          obtain ⟨rfl, rfl⟩ := yields_pure_iff.mp h₄
          refine .inr (.inr ⟨[polled, revents, consumed], busy, by simp, ?_,
            busy_of_yields _ le_rfl hbusy, rfl⟩)
          exact ⟨polled, revents, consumed, rfl, herr, hzero, hrevents, hconsumed⟩

/-- A timeout costs one of the attempts. -/
theorem yields_selectBody_timeout (i : UInt8) :
    (selectBody i).Yields [0]
      (if i - 1 = 0 then .inr (some (i - 1)) else .inl (i - 1)) := by
  refine yields_next_bind_iff.mpr ⟨0, [], rfl, ?_⟩
  dsimp only
  rw [if_neg (by decide), if_pos rfl]
  split_ifs with hi
  all_goals exact yields_pure_iff.mpr ⟨rfl, rfl⟩

/-- Input is consumed, and the busy loop follows. -/
theorem yields_selectBody_input (i : UInt8) {input busy : List ℤ} (hinput : Input input)
    (hbusy : Busy busy) : (selectBody i).Yields (input ++ busy) (.inr (some (i - 1))) := by
  obtain ⟨polled, revents, consumed, rfl, herr, hzero, hrevents, hconsumed⟩ := hinput
  refine yields_next_bind_iff.mpr ⟨polled, _, rfl, ?_⟩
  dsimp only
  rw [if_neg herr, if_neg hzero]
  refine yields_next_bind_iff.mpr ⟨revents, _, rfl, ?_⟩
  rw [if_neg hrevents]
  refine yields_next_bind_iff.mpr ⟨consumed, _, rfl, ?_⟩
  rw [if_neg hconsumed]
  refine yields_bind_iff.mpr ⟨busy, [], (), (List.append_nil _).symm, hbusy.yields, ?_⟩
  exact yields_pure_iff.mpr ⟨rfl, rfl⟩

/-- One attempt less. -/
theorem toNat_sub_one {i : UInt8} {n : ℕ} (hi : i.toNat = n + 1) : (i - 1).toNat = n := by
  have hlt := i.toNat_lt
  rw [UInt8.toNat_sub, UInt8.toNat_one]
  omega

/-- Of two attempts one is left. -/
theorem sub_one_ne_zero {i : UInt8} {n : ℕ} (hi : i.toNat = n + 2) : i - 1 ≠ 0 := by
  intro h
  have hnat := toNat_sub_one hi
  rw [h] at hnat
  exact absurd hnat (by simp)

/-- **How the attempts loop ends**: at an error, when all attempts timed out, or at the
first input, with the attempts that are left then. -/
theorem selectLoop_cases (n : ℕ) :
    ∀ {i : UInt8} {used : List ℤ} {left : Option UInt8}, i.toNat = n + 1 →
      (loop selectBody i).Yields used left →
      left = none ∨ (used = List.replicate (n + 1) 0 ∧ left = some 0) ∨
      ∃ k ≤ n, ∃ input busy j, used = List.replicate k 0 ++ (input ++ busy) ∧ Input input ∧
        Busy busy ∧ left = some j ∧ j.toNat = n - k := by
  induction n with
  | zero =>
      intro i used left hi h
      obtain rfl : i = 1 := UInt8.toNat_inj.mp hi
      rcases yields_loop_iff.mp h with hexit | ⟨u, v, s', rfl, hne, hu, hv⟩
      · rcases selectBody_cases hexit with hr | ⟨rfl, hr⟩ | ⟨input, busy, rfl, hin, hb, hr⟩
        · exact .inl (Sum.inr.inj hr)
        · exact .inr (.inl ⟨rfl, Sum.inr.inj hr⟩)
        · exact .inr (.inr ⟨0, le_rfl, input, busy, 0, rfl, hin, hb, Sum.inr.inj hr, rfl⟩)
      · rcases selectBody_cases hu with hr | ⟨rfl, hr⟩ | ⟨input, busy, rfl, hin, hb, hr⟩
        all_goals exact absurd hr (by simp)
  | succ n ih =>
      intro i used left hi h
      have hstay := sub_one_ne_zero hi
      rcases yields_loop_iff.mp h with hexit | ⟨u, v, s', rfl, hne, hu, hv⟩
      · rcases selectBody_cases hexit with hr | ⟨rfl, hr⟩ | ⟨input, busy, rfl, hin, hb, hr⟩
        · exact .inl (Sum.inr.inj hr)
        · rw [if_neg hstay] at hr
          exact absurd hr (by simp)
        · exact .inr (.inr ⟨0, by omega, input, busy, i - 1, rfl, hin, hb, Sum.inr.inj hr,
            toNat_sub_one hi⟩)
      · rcases selectBody_cases hu with hr | ⟨rfl, hr⟩ | ⟨input, busy, rfl, hin, hb, hr⟩
        · exact absurd hr (by simp)
        · rw [if_neg hstay] at hr
          obtain rfl := Sum.inl.inj hr
          rcases ih (toNat_sub_one hi) hv with hleft | ⟨rfl, hleft⟩ |
            ⟨k, hk, input, busy, j, rfl, hin, hb, hleft, hj⟩
          · exact .inl hleft
          · exact .inr (.inl ⟨rfl, hleft⟩)
          · exact .inr (.inr ⟨k + 1, by omega, input, busy, j, rfl, hin, hb, hleft, by omega⟩)
        · exact absurd hr (by simp)

/-- Timeouts, and then input. -/
theorem yields_selectLoop {input busy : List ℤ} (hinput : Input input) (hbusy : Busy busy)
    (k : ℕ) :
    ∀ {n : ℕ} {i : UInt8}, i.toNat = n + 1 → k ≤ n → ∃ j : UInt8, j.toNat = n - k ∧
      (loop selectBody i).Yields (List.replicate k 0 ++ (input ++ busy)) (some j) := by
  induction k with
  | zero =>
      intro n i hi hk
      have hbody := yields_selectBody_input i hinput hbusy
      exact ⟨i - 1, toNat_sub_one hi, yields_loop_iff.mpr (.inl hbody)⟩
  | succ k ih =>
      intro n i hi hk
      obtain ⟨n, rfl⟩ := Nat.exists_eq_add_one_of_ne_zero (by omega : n ≠ 0)
      obtain ⟨j, hj, hrest⟩ := ih (toNat_sub_one hi) (by omega)
      have htimeout := yields_selectBody_timeout i
      rw [if_neg (sub_one_ne_zero hi)] at htimeout
      exact ⟨j, by omega, yields_loop_iff.mpr
        (.inr ⟨[0], _, i - 1, rfl, by simp, htimeout, hrest⟩)⟩

/-- The world after a select that returned its result. -/
def World.selected (w : World) : World :=
  ((w.acquire .conn).countUp.acquire .result).finish w.nextHandle

/-- A result was obtained and returned, the connection given back. -/
def Delivered (w w' : World) (res : Handle) : Prop :=
  w'.log = w.log ++
    [.acquire .conn w.nextHandle, .acquire .result res, .release .conn w.nextHandle]

/-- With attempts left after the polls, a result with the right status is returned. -/
theorem yields_select {opening polls : List ℤ} {sent object : ℤ} {j : UInt8}
    (hopen : Opens opening) (hsent : sent ≠ 0) (hloop : (loop selectBody 3).Yields polls (some j))
    (hj : j ≠ 0) (hobject : object ≠ 0) (w : World) :
    (postgresSelectConcurrent w).Yields (opening ++ sent :: (polls ++ [object, tuplesOk]))
      (some (w.nextHandle + 1), w.selected) := by
  refine yields_bind_iff.mpr ⟨opening, _, _, rfl, pgOpen_some_iff.mpr ⟨hopen, rfl, rfl⟩, ?_⟩
  refine yields_next_bind_iff.mpr ⟨sent, _, rfl, ?_⟩
  rw [if_neg hsent]
  refine yields_bind_iff.mpr ⟨polls, [object, tuplesOk], some j, rfl, hloop, ?_⟩
  dsimp only
  rw [if_neg hj]
  have hresult : (pointerCall .result (w.acquire .conn).countUp).Yields [object]
      (some (w.nextHandle + 1), (w.acquire .conn).countUp.acquire .result) := by
    refine yields_next_bind_iff.mpr ⟨object, [], rfl, ?_⟩
    rw [if_neg hobject]
    exact yields_pure_iff.mpr ⟨rfl, rfl⟩
  refine yields_bind_iff.mpr ⟨[object], [tuplesOk], _, rfl, hresult, ?_⟩
  refine yields_next_bind_iff.mpr ⟨tuplesOk, [], rfl, ?_⟩
  rw [if_pos rfl]
  exact yields_pure_iff.mpr ⟨rfl, rfl⟩

/-- Input at one of the first two polls, and the result is returned. -/
theorem Deserves.yields {outcomes : List ℤ} (h : Deserves outcomes)
    (hlate : ∀ rest, ¬ InputAfter 2 outcomes rest) (w : World) :
    ∃ used rest res w', outcomes = used ++ rest ∧
      (postgresSelectConcurrent w).Yields used (some res, w') := by
  obtain ⟨k, hk, object, rest, hinput, hobject⟩ := h
  have hk2 : k ≠ 2 := by
    rintro rfl
    exact hlate _ hinput
  obtain ⟨opening, sent, input, busy, rfl, hopen, hsent, hin, hbusy⟩ := hinput
  obtain ⟨j, hj, hloop⟩ := yields_selectLoop hin hbusy k (n := 2) (i := 3) rfl (by omega)
  have hleft : j ≠ 0 := by
    rintro rfl
    simp only [UInt8.toNat_zero] at hj
    omega
  exact ⟨_, rest, _, _, by simp, yields_select hopen hsent hloop hleft hobject w⟩

/-- A result is returned only when the outcomes call for one, and it is the object
`PQgetResult` delivered. -/
theorem select_some {w w' : World} {res : Handle} {used : List ℤ}
    (h : (postgresSelectConcurrent w).Yields used (some res, w')) (more : List ℤ) :
    Deserves (used ++ more) ∧ Delivered w w' res := by
  obtain ⟨opening, v, ⟨db, w₁⟩, rfl, hopen, h₁⟩ := yields_bind_iff.mp h
  cases db with
  | none => exact absurd (yields_pure_iff.mp h₁).2 (by simp)
  | some db =>
      obtain ⟨hopens, rfl, rfl⟩ := pgOpen_some_iff.mp hopen
      obtain ⟨sent, v, rfl, h₂⟩ := yields_next_bind_iff.mp h₁
      split_ifs at h₂ with hsent
      · exact absurd (yields_pure_iff.mp h₂).2 (by simp)
      · obtain ⟨polls, v, left, rfl, hloop, h₃⟩ := yields_bind_iff.mp h₂
        rcases selectLoop_cases 2 rfl hloop with rfl | ⟨-, rfl⟩ |
          ⟨k, hk, input, busy, j, rfl, hinput, hbusy, rfl, -⟩
        · exact absurd (yields_pure_iff.mp h₃).2 (by simp)
        · exact absurd (yields_pure_iff.mp h₃).2 (by simp)
        · dsimp only at h₃
          split_ifs at h₃ with hj
          · exact absurd (yields_pure_iff.mp h₃).2 (by simp)
          · obtain ⟨u, v, ⟨p, w₂⟩, rfl, hp, h₄⟩ := yields_bind_iff.mp h₃
            rcases yields_pointerCall hp with ⟨rfl, rfl, rfl⟩ | ⟨object, hobject, rfl, rfl, rfl⟩
            · obtain ⟨u, v, status, rfl, hstatus, h₅⟩ := yields_bind_iff.mp h₄
              obtain ⟨rfl, rfl⟩ := yields_pure_iff.mp hstatus
              rw [if_neg (by decide)] at h₅
              exact absurd (yields_pure_iff.mp h₅).2 (by simp)
            · obtain ⟨status, v, rfl, h₅⟩ := yields_next_bind_iff.mp h₄
              split_ifs at h₅ with hst
              · obtain ⟨rfl, heq⟩ := yields_pure_iff.mp h₅
                obtain ⟨hres, rfl⟩ := Prod.mk.inj heq
                obtain rfl := Option.some.inj hres
                refine ⟨⟨k, by omega, object, more, ⟨opening, sent, input, busy, ?_, hopens,
                  hsent, hinput, hbusy⟩, hobject⟩, ?_⟩
                · simp [hst]
                · simp [Delivered, World.finish, World.acquire, World.countUp]
              · exact absurd (yields_pure_iff.mp h₅).2 (by simp)

/-- The opening of a trace is determined. -/
theorem opening_unique {a b : List ℤ} {s t : ℤ} {x y : List ℤ} (ha : Opens a) (hb : Opens b)
    (h : a ++ s :: x = b ++ t :: y) : a = b ∧ s = t ∧ x = y := by
  have hy : ∀ {c}, Opens c → (pgOpenNonblockingConn (World.init [])).Yields c
      (some 0, ((World.init []).acquire .conn).countUp) :=
    fun hc => pgOpen_some_iff.mpr ⟨hc, rfl, rfl⟩
  obtain ⟨rfl, -⟩ := (hy ha).unique (hy hb) h
  obtain ⟨rfl, rfl⟩ := List.cons.inj (List.append_cancel_left h)
  exact ⟨rfl, rfl, rfl⟩

/-- Too many timeouts are reported after three of them, or after input at the third poll. -/
theorem GivesUp.cases {outcomes : List ℤ} (h : GivesUp outcomes) :
    TimedOut outcomes ∨ ∃ rest, InputAfter 2 outcomes rest := by
  obtain ⟨opening, sent, polls, rest, rfl, hopen, hsent, hloop⟩ := h
  rcases selectLoop_cases 2 rfl hloop with hleft | ⟨rfl, -⟩ |
    ⟨k, hk, input, busy, j, rfl, hinput, hbusy, hleft, hj⟩
  · exact absurd hleft (by simp)
  · exact .inl ⟨opening, sent, rest, rfl, hopen, hsent⟩
  · obtain rfl := Option.some.inj hleft
    have hk2 : k = 2 := by
      simp only [UInt8.toNat_zero] at hj
      omega
    subst hk2
    exact .inr ⟨rest, opening, sent, input, busy, rfl, hopen, hsent, hinput, hbusy⟩

/-- Input at the third poll is reported as too many timeouts. -/
theorem InputAfter.givesUp {outcomes rest : List ℤ} (h : InputAfter 2 outcomes rest) :
    GivesUp outcomes ∧ ¬ TimedOut outcomes := by
  obtain ⟨opening, sent, input, busy, rfl, hopen, hsent, hinput, hbusy⟩ := h
  obtain ⟨j, hj, hloop⟩ := yields_selectLoop hinput hbusy 2 (n := 2) (i := 3) rfl le_rfl
  obtain rfl : j = 0 := UInt8.toNat_inj.mp hj
  refine ⟨⟨opening, sent, _, rest, rfl, hopen, hsent, hloop⟩, ?_⟩
  rintro ⟨opening', sent', rest', hout, hopen', -⟩
  obtain ⟨polled, revents, consumed, rfl, -, hzero, -, -⟩ := hinput
  obtain ⟨-, -, hpolls⟩ := opening_unique hopen hopen' hout
  have hthird := congrArg (·[2]?) hpolls
  exact hzero (by simpa [List.replicate] using hthird)

/-- What is asked of a trace: a result is returned exactly when the outcomes call for one,
too many timeouts are reported only after three of them, and the result that is returned is
the one `PQgetResult` delivered. -/
structure Fair (w : World) (outcomes : List ℤ) : Prop where
  result : (∃ used rest res w', outcomes = used ++ rest ∧
    (postgresSelectConcurrent w).Yields used (some res, w')) ↔ Deserves outcomes
  timeouts : GivesUp outcomes → TimedOut outcomes
  delivered : ∀ {used rest res w'}, outcomes = used ++ rest →
    (postgresSelectConcurrent w).Yields used (some res, w') → Delivered w w' res

/-- **Success on the last attempt.** For every trace of outcomes,
`postgres_select_concurrent` returns a result if and only if it should, and gives up for too
many timeouts only after three of them, if and only if it is not so that the first two polls
time out and the third reports input. -/
theorem select_fair_iff (w : World) (outcomes : List ℤ) :
    Fair w outcomes ↔ ¬ ∃ rest, InputAfter 2 outcomes rest := by
  constructor
  · rintro hfair ⟨rest, hinput⟩
    obtain ⟨hgives, hout⟩ := hinput.givesUp
    exact hout (hfair.timeouts hgives)
  · intro hlate
    refine ⟨⟨?_, fun hd => ?_⟩, fun hg => hg.cases.resolve_right hlate, ?_⟩
    · rintro ⟨used, rest, res, w', rfl, hy⟩
      exact (select_some hy rest).1
    · exact hd.yields (fun rest hrest => hlate ⟨rest, hrest⟩) w
    · rintro used rest res w' - hy
      exact (select_some hy rest).2

/-- A first timeout, and then the result: it is returned, as it should be. -/
theorem select_fair_second_poll :
    Fair (World.init []) [1, 0, 1, 3, 1, 1, 0, 1, 1, 1, 0, 1, 2] ∧
      Deserves [1, 0, 1, 3, 1, 1, 0, 1, 1, 1, 0, 1, 2] := by
  have hrun : (postgresSelectConcurrent (World.init [])).Yields
      [1, 0, 1, 3, 1, 1, 0, 1, 1, 1, 0, 1, 2]
      (some 1, ((((World.init []).acquire .conn).countUp).acquire .result).finish 0) :=
    yields_iff_run.mpr (by decide +kernel)
  refine ⟨(select_fair_iff ..).mpr ?_, (select_some hrun []).1⟩
  rintro ⟨rest, opening, sent, input, busy, hout, hopen, -⟩
  obtain ⟨-, -, hpolls⟩ := opening_unique opens_at_once hopen (s := 1) hout
  simp [List.replicate] at hpolls

/-- Two timeouts, then input: too many timeouts are reported, and the result that is there
is never asked for. -/
theorem not_fair_third_poll :
    (∃ w', (postgresSelectConcurrent (World.init [])).Yields
        [1, 0, 1, 3, 1, 1, 0, 0, 1, 1, 1, 0] (none, w')) ∧
      Deserves [1, 0, 1, 3, 1, 1, 0, 0, 1, 1, 1, 0, 1, 2] ∧
      ¬ Fair (World.init []) [1, 0, 1, 3, 1, 1, 0, 0, 1, 1, 1, 0, 1, 2] := by
  have hrun : (postgresSelectConcurrent (World.init [])).Yields
      [1, 0, 1, 3, 1, 1, 0, 0, 1, 1, 1, 0]
      (none, (((World.init []).acquire .conn).countUp).finish 0) :=
    yields_iff_run.mpr (by decide +kernel)
  have hinput : InputAfter 2 [1, 0, 1, 3, 1, 1, 0, 0, 1, 1, 1, 0, 1, 2] [1, 2] :=
    ⟨[1, 0, 1, 3, 1], 1, [1, 1, 1], [0], rfl,
      opens_at_once,
      by decide, ⟨1, 1, 1, rfl, by decide, by decide, by decide, by decide⟩,
      ⟨[], rfl, by simp⟩⟩
  have hdeserves : Deserves [1, 0, 1, 3, 1, 1, 0, 0, 1, 1, 1, 0, 1, 2] :=
    ⟨2, by decide, 1, [], hinput, by decide⟩
  refine ⟨⟨_, hrun⟩, hdeserves, fun hfair => ?_⟩
  obtain ⟨used, rest, res, w', hout, hy⟩ := hfair.result.mpr hdeserves
  obtain ⟨-, hr⟩ := hrun.unique hy (m := [1, 2]) hout
  exact absurd (Prod.mk.inj hr).1 (by simp)

/-! ### Inserting -/

/-- The outcomes of a wait loop that ends with a notification: wakeups without one, and
then one that brings it. -/
inductive Wakes : List ℤ → Prop
  | notified {sock ret : ℤ} (consumed : ℤ) {object : ℤ} (hsock : 0 ≤ sock) (hret : 0 ≤ ret)
      (hobject : object ≠ 0) : Wakes [sock, ret, consumed, object]
  | again {sock ret : ℤ} (consumed : ℤ) {rest : List ℤ} (hsock : 0 ≤ sock) (hret : 0 ≤ ret)
      (h : Wakes rest) : Wakes (sock :: ret :: consumed :: 0 :: rest)

/-- The outcomes of a `postgres_insert_concurrent` in which no call fails, up to the
comparison of the first notification. -/
def Uninterrupted (outcomes : List ℤ) (cmp : ℤ) : Prop :=
  ∃ opening object sent wakeups,
    outcomes = opening ++ object :: commandOk :: sent :: (wakeups ++ [cmp]) ∧
      Opens opening ∧ object ≠ 0 ∧ sent ≠ 0 ∧ Wakes wakeups

/-- What one wakeup asks for and where it leads. -/
theorem waitBody_cases {w : World} {notify : Var} {used : List ℤ}
    {r : Var ⊕ (Var ⊕ Handle × World)} (h : (waitBody w notify).Yields used r) :
    r = .inr (.inl notify) ∨
    ∃ sock ret consumed object, used = [sock, ret, consumed, object] ∧ 0 ≤ sock ∧ 0 ≤ ret ∧
      (object = 0 ∧ r = .inl .null ∨
        object ≠ 0 ∧ r = .inr (.inr (w.nextHandle, w.acquire .notify))) := by
  obtain ⟨sock, v, rfl, h₁⟩ := yields_next_bind_iff.mp h
  split_ifs at h₁ with hsock
  · exact .inl (yields_pure_iff.mp h₁).2
  · obtain ⟨ret, v, rfl, h₂⟩ := yields_next_bind_iff.mp h₁
    split_ifs at h₂ with hret
    · exact .inl (yields_pure_iff.mp h₂).2
    · refine .inr ?_
      obtain ⟨consumed, v, rfl, h₃⟩ := yields_next_bind_iff.mp h₂
      obtain ⟨u, v, ⟨n, w₁⟩, rfl, hn, h₄⟩ := yields_bind_iff.mp h₃
      rcases yields_pointerCall hn with ⟨rfl, rfl, rfl⟩ | ⟨object, hobject, rfl, rfl, rfl⟩
      · obtain ⟨rfl, rfl⟩ := yields_pure_iff.mp h₄
        exact ⟨sock, ret, consumed, 0, rfl, by omega, by omega, .inl ⟨rfl, rfl⟩⟩
      · obtain ⟨rfl, rfl⟩ := yields_pure_iff.mp h₄
        exact ⟨sock, ret, consumed, object, rfl, by omega, by omega, .inr ⟨hobject, rfl⟩⟩

/-- A turn of the wait for a notification. -/
theorem yields_waitBody (w : World) (notify : Var) {sock ret : ℤ} (consumed object : ℤ)
    (hsock : 0 ≤ sock) (hret : 0 ≤ ret) :
    (waitBody w notify).Yields [sock, ret, consumed, object]
      (if object = 0 then .inl .null
        else .inr (.inr (w.nextHandle, w.acquire .notify))) := by
  refine yields_next_bind_iff.mpr ⟨sock, _, rfl, ?_⟩
  rw [if_neg (by omega)]
  refine yields_next_bind_iff.mpr ⟨ret, _, rfl, ?_⟩
  rw [if_neg (by omega)]
  refine yields_next_bind_iff.mpr ⟨consumed, _, rfl, ?_⟩
  refine yields_bind_iff.mpr ⟨[object], [],
    if object = 0 then (none, w) else (some w.nextHandle, w.acquire .notify), rfl, ?_, ?_⟩
  · refine yields_next_bind_iff.mpr ⟨object, [], rfl, ?_⟩
    split_ifs with hobject
    all_goals exact yields_pure_iff.mpr ⟨rfl, rfl⟩
  · split_ifs with hobject
    all_goals exact yields_pure_iff.mpr ⟨rfl, rfl⟩

/-- The wait ends with the first notification. -/
theorem Wakes.yields {w : World} {outcomes : List ℤ} (h : Wakes outcomes) :
    ∀ {notify : Var}, (loop (waitBody w) notify).Yields outcomes
      (.inr (w.nextHandle, w.acquire .notify)) := by
  induction h with
  | @notified sock ret consumed object hsock hret hobject =>
      intro notify
      have hbody := yields_waitBody w notify consumed object hsock hret
      rw [if_neg hobject] at hbody
      exact yields_loop_iff.mpr (.inl hbody)
  | @again sock ret consumed rest hsock hret h ih =>
      intro notify
      have hbody := yields_waitBody w notify consumed 0 hsock hret
      exact yields_loop_iff.mpr
        (.inr ⟨[sock, ret, consumed, 0], rest, .null, rfl, by simp, hbody, ih⟩)

/-- **How the wait loop ends**: with its first notification, or at a failure before or
after the variable got its first value. -/
theorem waitLoop_cases {w : World} (n : ℕ) :
    ∀ {notify : Var} {used : List ℤ} {left : Var ⊕ Handle × World}, used.length ≤ n →
      (loop (waitBody w) notify).Yields used left →
      (Wakes used ∧ left = .inr (w.nextHandle, w.acquire .notify)) ∨
        left = .inl notify ∨ left = .inl .null := by
  induction n using Nat.strong_induction_on with
  | _ n ih =>
      intro notify used left hn h
      rcases yields_loop_iff.mp h with hexit | ⟨u, v, s', rfl, hne, hu, hv⟩
      · rcases waitBody_cases hexit with hr | ⟨sock, ret, consumed, object, rfl, hsock, hret, hr⟩
        · exact .inr (.inl (Sum.inr.inj hr))
        · rcases hr with ⟨-, hr⟩ | ⟨hobject, hr⟩
          · exact absurd hr (by simp)
          · exact .inl ⟨.notified consumed hsock hret hobject, Sum.inr.inj hr⟩
      · rcases waitBody_cases hu with hr | ⟨sock, ret, consumed, object, rfl, hsock, hret, hr⟩
        · exact absurd hr (by simp)
        · rcases hr with ⟨rfl, hr⟩ | ⟨-, hr⟩
          · obtain rfl := Sum.inl.inj hr
            have hlt : v.length < n := by
              simp only [List.length_append, List.length_cons, List.length_nil] at hn
              omega
            rcases ih v.length hlt le_rfl hv with ⟨hwakes, hleft⟩ | hleft
            · exact .inl ⟨.again consumed hsock hret hwakes, hleft⟩
            · exact .inr (.inr (hleft.elim id id))
          · exact absurd hr (by simp)

/-! ### What becomes of the objects -/

/-- Follow the objects through a log: those held at its end, or `none` as soon as a
variable is read or released that holds no object or one that was released before. -/
def settle : List (Resource × Handle) → List Event → Option (List (Resource × Handle))
  | held, [] => some held
  | held, .acquire r h :: log => settle ((r, h) :: held) log
  | held, .release r h :: log =>
      if (r, h) ∈ held then settle (held.erase (r, h)) log else none
  | _, .readUnset _ :: _ => none
  | _, .releaseWild _ :: _ => none

/-- From `w` to `w'`, every object obtained is released exactly once, and no variable is
read or released that is unset or holds an object released before. -/
def Clean (w w' : World) : Prop :=
  settle [] (w'.log.drop w.log.length) = some []

instance (w w' : World) : Decidable (Clean w w') :=
  inferInstanceAs (Decidable (_ = _))

/-- **Objects are accounted for**: what was held or obtained is held in the end or was
released. -/
theorem count_settle {held held' : List (Resource × Handle)} {log : List Event}
    (h : settle held log = some held') (r : Resource) (n : Handle) :
    held.count (r, n) + log.count (.acquire r n) =
      held'.count (r, n) + log.count (.release r n) := by
  induction log generalizing held with
  | nil =>
      obtain rfl := Option.some.inj h
      simp
  | cons e log ih =>
      cases e with
      | acquire r' n' =>
          have hrest := ih h
          simp only [List.count_cons, beq_iff_eq, Prod.mk.injEq, Event.acquire.injEq,
            reduceCtorEq, if_false] at hrest ⊢
          omega
      | release r' n' =>
          rw [settle] at h
          split_ifs at h with hmem
          have hrest := ih h
          have hpos := List.count_pos_iff.mpr hmem
          rw [List.count_erase] at hrest
          simp only [List.count_cons, beq_iff_eq, Prod.mk.injEq, Event.release.injEq,
            reduceCtorEq, if_false] at hrest ⊢
          by_cases heq : r' = r ∧ n' = n
          · obtain ⟨rfl, rfl⟩ := heq
            simp only [and_self, if_true] at hrest ⊢
            omega
          · simp only [heq, if_false] at hrest ⊢
            omega
      | readUnset r' => exact absurd h (by simp [settle])
      | releaseWild r' => exact absurd h (by simp [settle])

/-- A log with a read of an unset variable does not settle. -/
theorem settle_of_readUnset {held : List (Resource × Handle)} {log : List Event} {r : Resource}
    (h : .readUnset r ∈ log) : settle held log = none := by
  induction log generalizing held with
  | nil => exact absurd h List.not_mem_nil
  | cons e log ih =>
      cases e with
      | acquire r' n' => exact ih ((List.mem_cons.mp h).resolve_left (by simp))
      | release r' n' =>
          rw [settle, ih ((List.mem_cons.mp h).resolve_left (by simp)), ite_self]
      | readUnset r' => rfl
      | releaseWild r' => rfl

/-- Each object obtained by a clean call is released exactly once. -/
theorem Clean.count {w w' : World} (h : Clean w w') (r : Resource) (n : Handle) :
    (w'.log.drop w.log.length).count (.acquire r n) =
      (w'.log.drop w.log.length).count (.release r n) := by
  simpa using count_settle h r n

/-- So it is not clean. -/
theorem not_clean_of_readUnset {w w' : World} {log : List Event} {r : Resource}
    (hlog : w'.log = w.log ++ log) (h : .readUnset r ∈ log) : ¬ Clean w w' := by
  rw [Clean, hlog, List.drop_left, settle_of_readUnset h]
  simp

/-- The error label of `postgres_insert_concurrent` reads `notify` before it has a value. -/
theorem insertError_unset {w w' : World} {db res : Option Handle} {ret : ℤ} {used : List ℤ}
    (h : (insertError w db res .unset).Yields used (ret, w')) :
    ∃ log, w'.log = w.log ++ log ∧ .readUnset .notify ∈ log := by
  obtain ⟨u, v, w₁, rfl, hfree, h₁⟩ := yields_bind_iff.mp h
  obtain ⟨garbage, rest, rfl, hw₁⟩ := yields_next_bind_iff.mp hfree
  have hclear : ∃ log, (w.clear res).log = w.log ++ log := by
    cases res with
    | none => exact ⟨[], (List.append_nil _).symm⟩
    | some n => exact ⟨[.release .result n], rfl⟩
  obtain ⟨cleared, hcleared⟩ := hclear
  have hread : ∃ log, w₁.log = w.log ++ (cleared ++ .readUnset .notify :: log) := by
    split_ifs at hw₁ with hg
    all_goals
      obtain ⟨rfl, rfl⟩ := yields_pure_iff.mp hw₁
      exact ⟨_, by simp only [World.record, hcleared, List.append_assoc]; rfl⟩
  obtain ⟨log, hlog⟩ := hread
  cases db with
  | none =>
      obtain ⟨rfl, ⟨⟩⟩ := yields_pure_iff.mp h₁
      exact ⟨_, hlog, by simp⟩
  | some n =>
      obtain ⟨rfl, ⟨⟩⟩ := yields_pure_iff.mp h₁
      refine ⟨cleared ++ .readUnset .notify :: log ++ [.release .conn n], ?_, by simp⟩
      simp only [World.finish, hlog, List.append_assoc]

/-- The error label with NULL for the notification. -/
theorem insertError_null {w w' : World} {db : Handle} {res : Option Handle} {ret : ℤ}
    {used : List ℤ} (h : (insertError w (some db) res .null).Yields used (ret, w')) :
    w' = (w.clear res).finish db := by
  obtain ⟨u, v, w₁, rfl, hfree, h₁⟩ := yields_bind_iff.mp h
  obtain ⟨rfl, rfl⟩ := yields_pure_iff.mp hfree
  obtain ⟨rfl, ⟨⟩⟩ := yields_pure_iff.mp h₁
  rfl

/-- The world after an insert in which no call failed. -/
def World.inserted (w : World) : World :=
  let db := w.nextHandle
  let w := (w.acquire .conn).countUp
  let w := (w.acquire .result).clear (some w.nextHandle)
  ((w.acquire .notify).record (.release .notify w.nextHandle)).finish db

/-- What is acquired for an insertion is released once. -/
theorem inserted_clean (w : World) : Clean w w.inserted := by
  have hlog : w.inserted.log = w.log ++
      [.acquire .conn w.nextHandle, .acquire .result (w.nextHandle + 1),
        .release .result (w.nextHandle + 1), .acquire .notify (w.nextHandle + 1 + 1),
        .release .notify (w.nextHandle + 1 + 1), .release .conn w.nextHandle] := by
    simp [World.inserted, World.finish, World.record, World.acquire, World.clear, World.countUp]
  rw [Clean, hlog, List.drop_left]
  simp [settle]

/-- **No failure.** When no call fails, `postgres_insert_concurrent` returns what its first
notification says. -/
theorem Uninterrupted.yields {outcomes : List ℤ} {cmp : ℤ} (h : Uninterrupted outcomes cmp)
    (w : World) :
    (postgresInsertConcurrent w).Yields outcomes (notifyCode cmp, w.inserted) := by
  obtain ⟨opening, object, sent, wakeups, rfl, hopen, hobject, hsent, hwakes⟩ := h
  refine yields_bind_iff.mpr ⟨opening, _, _, rfl, pgOpen_some_iff.mpr ⟨hopen, rfl, rfl⟩, ?_⟩
  have hlisten : (pointerCall .result (w.acquire .conn).countUp).Yields [object]
      (some (w.acquire .conn).countUp.nextHandle,
        (w.acquire .conn).countUp.acquire .result) := by
    refine yields_next_bind_iff.mpr ⟨object, [], rfl, ?_⟩
    rw [if_neg hobject]
    exact yields_pure_iff.mpr ⟨rfl, rfl⟩
  refine yields_bind_iff.mpr ⟨[object], _, _, rfl, hlisten, ?_⟩
  refine yields_next_bind_iff.mpr ⟨commandOk, _, rfl, ?_⟩
  rw [if_neg (not_not_intro rfl)]
  refine yields_next_bind_iff.mpr ⟨sent, _, rfl, ?_⟩
  rw [if_neg hsent]
  refine yields_bind_iff.mpr ⟨wakeups, [cmp], _, rfl, hwakes.yields, ?_⟩
  exact yields_next_bind_iff.mpr ⟨cmp, [], rfl, yields_pure_iff.mpr ⟨rfl, rfl⟩⟩

/-- The error label reads the notification that has not been set. -/
theorem not_clean_of_insertError {w w₁ w' : World} {db res : Option Handle} {ret : ℤ}
    {used : List ℤ} (hpre : w.log <+: w₁.log)
    (h : (insertError w₁ db res .unset).Yields used (ret, w')) : ¬ Clean w w' := by
  obtain ⟨pre, hpre⟩ := hpre
  obtain ⟨log, hlog, hread⟩ := insertError_unset h
  have hlog' : w'.log = w.log ++ (pre ++ log) := by rw [hlog, ← hpre, List.append_assoc]
  exact not_clean_of_readUnset hlog' (List.mem_append_right _ hread)

/-- After a wakeup without a notification, the error label clears the result of `LISTEN`
a second time. -/
theorem not_clean_of_second_clear (w : World) :
    ¬ Clean w (((((w.acquire .conn).countUp.acquire .result).clear
      (some (w.nextHandle + 1))).clear (some (w.nextHandle + 1))).finish w.nextHandle) := by
  intro h
  have hcount := h.count .result (w.nextHandle + 1)
  have hlog : (((((w.acquire .conn).countUp.acquire .result).clear
      (some (w.nextHandle + 1))).clear (some (w.nextHandle + 1))).finish w.nextHandle).log =
      w.log ++ [.acquire .conn w.nextHandle, .acquire .result (w.nextHandle + 1),
        .release .result (w.nextHandle + 1), .release .result (w.nextHandle + 1),
        .release .conn w.nextHandle] := by
    simp [World.finish, World.record, World.acquire, World.clear, World.countUp]
  rw [hlog, List.drop_left] at hcount
  simp at hcount

/-- **Every jump to the error label goes wrong**: whatever call fails, the label reads
`notify` without a value or clears the result of `LISTEN` twice. -/
theorem insert_interrupted {w w' : World} {ret : ℤ} {used : List ℤ}
    (h : (postgresInsertConcurrent w).Yields used (ret, w')) :
    (∃ cmp, Uninterrupted used cmp) ∨ (ret = 0 ∧ ¬ Clean w w') := by
  obtain ⟨opening, v, ⟨db, w₁⟩, rfl, hopen, h₁⟩ := yields_bind_iff.mp h
  cases db with
  | none =>
      refine .inr ⟨insertError_ret h₁, not_clean_of_insertError ?_ h₁⟩
      rcases pgOpen_cases hopen with ⟨-, rfl, -⟩ | ⟨-, rfl, -⟩ | ⟨-, rfl, -⟩ | ⟨hdb, -, -⟩
      · exact List.prefix_rfl
      · exact ⟨_, (List.append_assoc ..).symm⟩
      · exact ⟨_, (List.append_assoc ..).symm⟩
      · exact absurd hdb (by simp)
  | some db =>
      obtain ⟨hopens, rfl, rfl⟩ := pgOpen_some_iff.mp hopen
      obtain ⟨u, v, ⟨res, w₂⟩, rfl, hres, h₂⟩ := yields_bind_iff.mp h₁
      rcases yields_pointerCall hres with ⟨rfl, rfl, rfl⟩ | ⟨object, hobject, rfl, rfl, rfl⟩
      · obtain ⟨u, v, status, rfl, hstatus, h₃⟩ := yields_bind_iff.mp h₂
        obtain ⟨rfl, rfl⟩ := yields_pure_iff.mp hstatus
        rw [if_pos (by decide)] at h₃
        exact .inr ⟨insertError_ret h₃, not_clean_of_insertError ⟨_, rfl⟩ h₃⟩
      · obtain ⟨status, v, rfl, h₃⟩ := yields_next_bind_iff.mp h₂
        split_ifs at h₃ with hst
        · exact .inr ⟨insertError_ret h₃,
            not_clean_of_insertError ⟨_, (List.append_assoc ..).symm⟩ h₃⟩
        · obtain ⟨sent, v, rfl, h₄⟩ := yields_next_bind_iff.mp h₃
          have hpre : w.log <+: (((w.acquire .conn).countUp.acquire .result).clear
              (some (w.acquire .conn).countUp.nextHandle)).log :=
            ⟨[.acquire .conn w.nextHandle, .acquire .result (w.nextHandle + 1),
              .release .result (w.nextHandle + 1)], by
              simp [World.clear, World.record, World.acquire, World.countUp]⟩
          split_ifs at h₄ with hsent
          · exact .inr ⟨insertError_ret h₄, not_clean_of_insertError hpre h₄⟩
          · obtain ⟨wakeups, v, left, rfl, hloop, h₅⟩ := yields_bind_iff.mp h₄
            rcases waitLoop_cases _ le_rfl hloop with ⟨hwakes, rfl⟩ | rfl | rfl
            · obtain ⟨cmp, v, rfl, h₆⟩ := yields_next_bind_iff.mp h₅
              obtain ⟨rfl, -⟩ := yields_pure_iff.mp h₆
              exact .inl ⟨cmp, opening, object, sent, wakeups,
                by rw [not_not.mp hst]; rfl, hopens, hobject, hsent, hwakes⟩
            · exact .inr ⟨insertError_ret h₅, not_clean_of_insertError hpre h₅⟩
            · have hret := insertError_ret h₅
              obtain rfl := insertError_null h₅
              exact .inr ⟨hret, not_clean_of_second_clear w⟩

/-- **An insertion is clean exactly if it does not fail**, that is, unless it returns 0. -/
theorem insert_clean_iff_ret {w w' : World} {ret : ℤ} {used : List ℤ}
    (h : (postgresInsertConcurrent w).Yields used (ret, w')) : Clean w w' ↔ ret ≠ 0 := by
  rcases insert_interrupted h with ⟨cmp, hun⟩ | ⟨hret, hnot⟩
  · obtain ⟨-, heq⟩ := (hun.yields w).unique h (m := []) (n := []) rfl
    obtain ⟨rfl, rfl⟩ := Prod.mk.inj heq
    refine iff_of_true (inserted_clean w) ?_
    rw [notifyCode]
    split_ifs with hcmp
    · decide
    · exact hcmp
  · exact iff_of_false hnot (not_not_intro hret)

/-- **Releasing what was obtained.** For every trace of outcomes, any number of wakeups
included, `postgres_insert_concurrent` releases everything it obtained exactly once and
reads or releases no variable that is unset or released already if and only if no call up
to its first notification fails. -/
theorem insert_clean_iff {w w' : World} {ret : ℤ} {used : List ℤ}
    (h : (postgresInsertConcurrent w).Yields used (ret, w')) :
    Clean w w' ↔ ∃ cmp, Uninterrupted used cmp := by
  constructor
  · exact fun hclean => (insert_interrupted h).resolve_right fun hfails => hfails.2 hclean
  · rintro ⟨cmp, hun⟩
    obtain ⟨-, heq⟩ := (hun.yields w).unique h (m := []) (n := []) rfl
    obtain ⟨-, rfl⟩ := Prod.mk.inj heq
    exact inserted_clean w

/-- An insert that is notified at its second wakeup. -/
theorem insert_clean_second_wakeup :
    ∃ w', (postgresInsertConcurrent (World.init [])).Yields
      [1, 0, 1, 3, 1, 1, 1, 1, 5, 1, 1, 0, 5, 1, 1, 1, 10] (10, w') ∧
      Clean (World.init []) w' := by
  have hun : Uninterrupted [1, 0, 1, 3, 1, 1, 1, 1, 5, 1, 1, 0, 5, 1, 1, 1, 10] 10 :=
    ⟨[1, 0, 1, 3, 1], 1, 1, [5, 1, 1, 0, 5, 1, 1, 1], rfl,
      opens_at_once,
      by decide, by decide,
      .again 1 (by decide) (by decide) (.notified 1 (by decide) (by decide) (by decide))⟩
  have hrun := hun.yields (World.init [])
  exact ⟨_, hrun, (insert_clean_iff hrun).mpr ⟨10, hun⟩⟩

/-- No PGconn object: the error label reads `notify`, which has no value. -/
theorem not_clean_null_connection :
    ∃ w', (postgresInsertConcurrent (World.init [])).Yields [0, 0] (0, w') ∧
      w'.log = [.readUnset .notify] ∧ ¬ Clean (World.init []) w' :=
  ⟨{ World.init [] with log := [.readUnset .notify] },
    yields_iff_run.mpr (by decide +kernel), rfl, by decide⟩

end Yogigen
