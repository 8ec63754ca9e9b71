import Yogigen.Texts

/-!
# Filling in a Template

A template is a text with placeholders between literal pieces. Filling it writes one text
after another in front of what is left of the template. A text can also correct the byte
before it: the byte is replaced by the start of the text.

The loop of `substitute_and_prettify` looks for the first `%` of the whole output, deletes
two bytes and inserts an expression. On a template without further `%` it fills.

## Main results

* `through_prefix_iff`: when a text that has been written is still there at the end.
* `before_plain`: without corrections filling is simultaneous substitution.
* `substituteStep_template`: an iteration of the loop fills one placeholder.
* `loop_fills`: the whole loop, where no article is corrected.
-/

/-! ### Filling -/

namespace Filling

variable {α : Type}

/-- What is written at a placeholder: a text, or a text for the byte before it. -/
inductive Segment (α : Type)
  | plain (text : List α)
  | fixed (text : List α)

/-- The text so far with what is written behind it. Nothing is written if there is no byte
to correct. -/
def Segment.after : Segment α → List α → List α
  | .plain text, p => p ++ text
  | .fixed text, p => if p = [] then [] else p.dropLast ++ text

/-- The text before placeholder `k` when its turn comes; `lit k` is the literal piece before
it. -/
def before (lit : ℕ → List α) (part : ℕ → Segment α) : ℕ → List α
  | 0 => lit 0
  | k + 1 => (part k).after (before lit part k) ++ lit (k + 1)

/-- The text through placeholder `k` when it has been filled. -/
def through (lit : ℕ → List α) (part : ℕ → Segment α) (k : ℕ) : List α :=
  (part k).after (before lit part k)

/-- Texts with the literal pieces after them, `n` of them from placeholder `k` on. -/
def weave (text lit : ℕ → List α) : ℕ → ℕ → List α
  | _, 0 => []
  | k, n + 1 => text k ++ (lit (k + 1) ++ weave text lit (k + 1) n)

/-- One more piece at the end. -/
theorem weave_succ (text lit : ℕ → List α) (k n : ℕ) :
    weave text lit k (n + 1) =
      weave text lit k n ++ (text (k + n) ++ lit (k + n + 1)) := by
  induction n generalizing k with
  | zero => simp [weave]
  | succ n ih =>
      rw [weave, ih (k + 1), weave, Nat.add_right_comm, Nat.add_assoc k n 1]
      simp only [List.append_assoc]

/-- **Without corrections** the texts stand between the literal pieces. -/
theorem before_plain {lit text : ℕ → List α} {part : ℕ → Segment α} {n : ℕ}
    (h : ∀ k < n, part k = .plain (text k)) :
    before lit part n = lit 0 ++ weave text lit 0 n := by
  induction n with
  | zero => exact (List.append_nil _).symm
  | succ n ih =>
      rw [before, h n (Nat.lt_succ_self n), Segment.after, ih fun k hk => h k (by omega),
        weave_succ]
      simp only [List.append_assoc, Nat.zero_add]

/-- Nothing is written between placeholder `k` and placeholder `m`. -/
def BlankTo (lit : ℕ → List α) (part : ℕ → Segment α) (k m : ℕ) : Prop :=
  (∀ i, k < i → i ≤ m → lit i = []) ∧ ∀ i, k < i → i < m → part i = .plain []

/-- The byte before a correction is the last one of the text through placeholder `k`. -/
def Eaten (lit : ℕ → List α) (part : ℕ → Segment α) (k n : ℕ) : Prop :=
  ∃ j, k < j ∧ j < n ∧ (∃ text, part j = .fixed text) ∧ BlankTo lit part k j

section

variable {lit : ℕ → List α} {part : ℕ → Segment α} {k : ℕ}

/-- Blank up to the next position: that one is blank, too. -/
theorem blankTo_succ_iff {m : ℕ} (hk : k < m) :
    BlankTo lit part k (m + 1) ↔
      BlankTo lit part k m ∧ part m = .plain [] ∧ lit (m + 1) = [] := by
  constructor
  · rintro ⟨hlit, hpart⟩
    exact ⟨⟨fun i hi hi' => hlit i hi (by omega), fun i hi hi' => hpart i hi (by omega)⟩,
      hpart m hk (by omega), hlit (m + 1) (by omega) le_rfl⟩
  · rintro ⟨⟨hlit, hpart⟩, hm, hlast⟩
    refine ⟨fun i hi hi' => ?_, fun i hi hi' => ?_⟩
    · by_cases heq : i = m + 1
      · rw [heq, hlast]
      · exact hlit i hi (by omega)
    · by_cases heq : i = m
      · rw [heq, hm]
      · exact hpart i hi (by omega)

/-- A blank is taken at the next position, or before it. -/
theorem eaten_succ_iff {m : ℕ} (hk : k < m) :
    Eaten lit part k (m + 1) ↔
      Eaten lit part k m ∨ ((∃ text, part m = .fixed text) ∧ BlankTo lit part k m) := by
  constructor
  · rintro ⟨j, hkj, hj, hfixed, hblank⟩
    by_cases heq : j = m
    · exact .inr (heq ▸ ⟨hfixed, hblank⟩)
    · exact .inl ⟨j, hkj, by omega, hfixed, hblank⟩
  · rintro (⟨j, hkj, hj, hfixed, hblank⟩ | ⟨hfixed, hblank⟩)
    · exact ⟨j, hkj, by omega, hfixed, hblank⟩
    · exact ⟨m, hk, Nat.lt_succ_self m, hfixed, hblank⟩

/-- What has become of the text through placeholder `k` when the turn of placeholder `m`
comes: it is still there, or its last byte has been replaced and something follows. -/
theorem before_cases {b : α} (hne : through lit part k ≠ [])
    (hfixed : ∀ j text, part j = .fixed text → ∃ c rest, text = b :: c :: rest) {m : ℕ}
    (hm : k < m) :
    (¬ Eaten lit part k m ∧ ∃ r, before lit part m = through lit part k ++ r ∧
        (r = [] ↔ BlankTo lit part k m)) ∨
      (Eaten lit part k m ∧ ∃ r, r ≠ [] ∧
        before lit part m = (through lit part k).dropLast ++ b :: r) := by
  induction m, hm using Nat.le_induction with
  | base =>
      left
      refine ⟨?_, lit (k + 1), rfl, ?_⟩
      · rintro ⟨j, hkj, hj, -⟩
        omega
      · constructor
        · intro hlit
          refine ⟨fun i hi hi' => ?_, fun i hi hi' => by omega⟩
          obtain rfl : i = k + 1 := by omega
          exact hlit
        · exact fun hblank => hblank.1 (k + 1) (Nat.lt_succ_self k) le_rfl
  | succ m hm ih =>
      have hbefore : before lit part (m + 1) =
          (part m).after (before lit part m) ++ lit (m + 1) := rfl
      rw [eaten_succ_iff hm, hbefore]
      rcases ih with ⟨hnot, r, hr, hblank⟩ | ⟨heaten, r, hrne, hr⟩
      · cases hpart : part m with
        | plain text =>
            left
            refine ⟨?_, r ++ text ++ lit (m + 1), ?_, ?_⟩
            · rintro (h | ⟨⟨text', h⟩, -⟩)
              · exact hnot h
              · exact absurd h (by simp)
            · simp only [Segment.after, hr, List.append_assoc]
            · rw [blankTo_succ_iff hm, ← hblank, hpart]
              simp only [List.append_eq_nil_iff, Segment.plain.injEq, and_assoc]
        | fixed text =>
            obtain ⟨c, rest, rfl⟩ := hfixed m text hpart
            by_cases hrnil : r = []
            · -- the byte before the correction is the last one of the text
              right
              refine ⟨.inr ⟨⟨_, rfl⟩, hblank.mp hrnil⟩, c :: rest ++ lit (m + 1), by simp, ?_⟩
              rw [hr, hrnil, List.append_nil, Segment.after, if_neg hne]
              simp only [List.append_assoc, List.cons_append]
            · left
              refine ⟨?_, r.dropLast ++ (b :: c :: rest) ++ lit (m + 1), ?_, ?_⟩
              · rintro (h | ⟨-, h⟩)
                · exact hnot h
                · exact hrnil (hblank.mpr h)
              · rw [hr, Segment.after, if_neg (by simp [hne]), List.dropLast_append_of_ne_nil hrnil]
                simp only [List.append_assoc]
              · rw [blankTo_succ_iff hm, hpart]
                simp
      · right
        refine ⟨.inl heaten, ?_⟩
        cases hpart : part m with
        | plain text =>
            refine ⟨r ++ text ++ lit (m + 1), by simp [hrne], ?_⟩
            simp only [Segment.after, hr, List.append_assoc, List.cons_append]
        | fixed text =>
            obtain ⟨c, rest, rfl⟩ := hfixed m text hpart
            refine ⟨r.dropLast ++ (b :: c :: rest) ++ lit (m + 1), by simp, ?_⟩
            rw [hr, Segment.after, if_neg (by simp), List.dropLast_append_of_ne_nil (by simp),
              List.dropLast_cons_of_ne_nil hrne]
            simp only [List.append_assoc, List.cons_append]

/-- **When a text is still there at the end**, as `g` sees it: unless a correction replaced
its last byte by another one. -/
theorem through_prefix_iff {β : Type} (g : α → β) {b : α} (hne : through lit part k ≠ [])
    (hfixed : ∀ j text, part j = .fixed text → ∃ c rest, text = b :: c :: rest) {n : ℕ}
    (hn : k < n) :
    (through lit part k).map g <+: (before lit part n).map g ↔
      (Eaten lit part k n → ((through lit part k).map g).getLast? = some (g b)) := by
  rcases before_cases hne hfixed hn with ⟨hnot, r, hr, -⟩ | ⟨heaten, r, -, hr⟩
  · rw [hr, List.map_append]
    exact iff_of_true (List.prefix_append _ _) fun h => absurd h hnot
  · rw [hr, List.map_append, List.map_cons, List.map_dropLast]
    have hne' : (through lit part k).map g ≠ [] := fun hnil => hne (List.map_eq_nil_iff.mp hnil)
    generalize (through lit part k).map g = text at hne' ⊢
    have hlast := List.dropLast_append_getLast hne'
    have hlen := congrArg List.length hlast
    rw [List.length_append] at hlen
    constructor
    · intro hprefix _
      have heq : text.dropLast ++ [g b] = text := by
        refine (List.prefix_of_prefix_length_le ⟨r.map g, by simp⟩ hprefix ?_).eq_of_length ?_
        · rw [List.length_append]
          exact hlen.le
        · rw [List.length_append]
          exact hlen
      rw [← heq, List.getLast?_append]
      rfl
    · intro hb
      have hlast' := List.getLast?_eq_some_getLast hne'
      rw [hb heaten, Option.some.injEq] at hlast'
      refine ⟨r.map g, ?_⟩
      conv_lhs => rw [← hlast, ← hlast']
      simp

end

end Filling

open Printf Filling

namespace Yogigen

/-! ### Templates -/

/-- `n` placeholders from placeholder `k` on, each with the literal piece after it. -/
def placeholders (lit : ℕ → Bytes) : ℕ → ℕ → Bytes
  | _, 0 => []
  | k, n + 1 => ascii "%s" ++ (lit (k + 1) ++ placeholders lit (k + 1) n)

/-- The template `L0 %s L1 ... %s Ln`. -/
def template (lit : ℕ → Bytes) (n : ℕ) : Bytes :=
  lit 0 ++ placeholders lit 0 n

/-- No expression of the tables contains a `%`. -/
def NoPercent (y : YogiGen) : Prop :=
  FreeOf 37 y

/-! ### One iteration -/

/-- What an iteration writes: the text of the expression, or `n ` and the text for the
byte before it. -/
def partOf (s : SubstitutionData) (i : Fin 8) (e : Expression) : Segment UInt8 :=
  if s.flags i = .indefArt ∧ e.flags = aOflagAn then .fixed ([110, 32] ++ e.field (s.modes i))
  else .plain (e.field (s.modes i))

/-- The tables after an iteration. -/
def tablesAfter (y : YogiGen) (s : SubstitutionData) (i : Fin 8) (e : Expression) : YogiGen :=
  if s.flags i = .indefArt ∧ e.flags = aOflagAn then
    y.setExpression (s.ins i).toUInt16 (s.types i) (e.withPrefix (s.modes i))
  else y

/-- **An iteration fills the first placeholder.** -/
theorem substituteStep_template (y : YogiGen) {s : SubstitutionData} {i : Fin 8}
    {e : Expression} (he : lookup y s i = some e) {p : Bytes} (hp : 37 ∉ p) (rest : Bytes) :
    substituteStep y s i (p ++ (ascii "%s" ++ rest)) =
      some (tablesAfter y s i e, (partOf s i e).after p ++ rest) := by
  have hascii : ascii "%s" = [37, 115] := by decide
  have hpos : bstrchr (p ++ (ascii "%s" ++ rest)) 37 = p.length := by
    rw [hascii]
    exact bstrchr_append hp
  rw [substituteStep, he]
  dsimp only
  rw [hpos, tablesAfter, partOf]
  split_ifs with hart
  · refine congrArg some (Prod.ext rfl ?_)
    dsimp only
    rw [binsert_zero, hascii, Segment.after]
    rcases List.eq_nil_or_concat p with rfl | ⟨q, c, rfl⟩
    · -- there is no byte before the placeholder: two bytes go, and nothing is inserted
      simp [bdelete, binsert]
    · rw [List.concat_eq_append, if_neg (by simp), List.dropLast_concat, List.length_append,
        List.length_singleton, Nat.cast_add, Nat.cast_one, add_sub_cancel_right]
      have hdel : bdelete (q ++ [c] ++ ([37, 115] ++ rest)) q.length 3 = q ++ rest := by
        rw [List.append_assoc]
        exact bdelete_append q [c, 37, 115] rest (by simp)
      rw [hdel, binsert_append]
  · refine congrArg some (Prod.ext rfl ?_)
    have hdel : bdelete (p ++ (ascii "%s" ++ rest)) p.length 2 = p ++ rest :=
      bdelete_append p (ascii "%s") rest (by decide)
    dsimp only
    rw [hdel, binsert_append, Segment.after]

/-- What is looked up is an entry of the table. -/
theorem lookup_eq_some_iff {y : YogiGen} {s : SubstitutionData} {i : Fin 8} {e : Expression} :
    lookup y s i = some e ↔ (y.table (s.types i)).entries[(s.ins i).toUInt16.toNat]? = some e := by
  rw [lookup, getExpression_eq]

/-- The prefix brings no `%` into the tables. -/
theorem NoPercent.tablesAfter {y : YogiGen} (h : NoPercent y) {s : SubstitutionData}
    {i : Fin 8} {e : Expression} (he : lookup y s i = some e) :
    NoPercent (tablesAfter y s i e) := by
  rw [Yogigen.tablesAfter]
  split_ifs
  · have hfree := FreeOf.lookup h he
    exact FreeOf.setExpression h (notMem_withPrefix (by decide) (by decide) hfree _) _ _
  · exact h

/-- An iteration brings no `%` into the text that is finished. -/
theorem percent_notMem_after {y : YogiGen} (h : NoPercent y) {s : SubstitutionData} {i : Fin 8}
    {e : Expression} (he : lookup y s i = some e) {p : Bytes} (hp : 37 ∉ p) :
    37 ∉ (partOf s i e).after p := by
  have hfree := FreeOf.lookup h he (s.modes i)
  rw [partOf]
  split_ifs with hart
  · rw [Segment.after]
    split_ifs with hnil
    · exact List.not_mem_nil
    · have hdrop : 37 ∉ p.dropLast := fun hmem => hp (List.mem_of_mem_dropLast hmem)
      simp [hdrop, hfree]
  · simp [Segment.after, hp, hfree]

/-! ### The loop -/

/-- The tables and the output when the turn of position `k` comes. -/
def turn (y : YogiGen) (s : SubstitutionData) (out : Bytes) : ℕ → Option (YogiGen × Bytes)
  | 0 => some (y, out)
  | k + 1 =>
      (turn y s out k).bind fun r =>
        if hk : k < 8 then substituteStep r.1 s ⟨k, hk⟩ r.2 else none

/-- Another turn is another step of the loop. -/
theorem turn_succ_iff {y : YogiGen} {s : SubstitutionData} {out : Bytes} {k : ℕ}
    {r : YogiGen × Bytes} :
    turn y s out (k + 1) = some r ↔ ∃ (hk : k < 8) (y₁ : YogiGen) (out₁ : Bytes),
      turn y s out k = some (y₁, out₁) ∧ substituteStep y₁ s ⟨k, hk⟩ out₁ = some r := by
  rw [turn, Option.bind_eq_some_iff]
  constructor
  · rintro ⟨⟨y₁, out₁⟩, hturn, hstep⟩
    split_ifs at hstep with hk
    exact ⟨hk, y₁, out₁, hturn, hstep⟩
  · rintro ⟨hk, y₁, out₁, hturn, hstep⟩
    exact ⟨(y₁, out₁), hturn, by rw [dif_pos hk, hstep]⟩

/-- A turn comes only after the turns before it. -/
theorem turn_of_le {y : YogiGen} {s : SubstitutionData} {out : Bytes} {k m : ℕ} (hkm : k ≤ m)
    {r : YogiGen × Bytes} (h : turn y s out m = some r) : ∃ r', turn y s out k = some r' := by
  induction m, hkm using Nat.le_induction generalizing r with
  | base => exact ⟨r, h⟩
  | succ m _ ih =>
      obtain ⟨-, y₁, out₁, hturn, -⟩ := turn_succ_iff.mp h
      exact ih hturn

/-- **The loop takes the turns one after another.** -/
theorem substituteLoop_iff_turn {y : YogiGen} {s : SubstitutionData} {out : Bytes} {n : ℕ}
    {r : YogiGen × Bytes} :
    substituteLoop s n 0 y out = .ok (some r) ↔ turn y s out (n + 1) = some r := by
  have hall : ∀ n i y' out', turn y s out i = some (y', out') →
      (substituteLoop s n i y' out' = .ok (some r) ↔ turn y s out (i + n + 1) = some r) := by
    intro n
    induction n with
    | zero =>
        intro i y' out' hi
        rw [substituteLoop_zero_iff, Nat.add_zero, turn_succ_iff]
        constructor
        · rintro ⟨hk, hstep⟩
          exact ⟨hk, y', out', hi, hstep⟩
        · rintro ⟨hk, y₁, out₁, hturn, hstep⟩
          obtain ⟨rfl, rfl⟩ := Prod.mk.inj (Option.some.inj (hi.symm.trans hturn))
          exact ⟨hk, hstep⟩
    | succ n ih =>
        intro i y' out' hi
        rw [substituteLoop_succ_iff]
        constructor
        · rintro ⟨hk, y₁, out₁, hstep, hrest⟩
          have hnext := turn_succ_iff.mpr ⟨hk, y', out', hi, hstep⟩
          rw [ih (i + 1) y₁ out₁ hnext, Nat.add_right_comm i 1 n] at hrest
          exact hrest
        · intro hlast
          obtain ⟨⟨y₁, out₁⟩, hnext⟩ := turn_of_le (show i + 1 ≤ i + (n + 1) + 1 by omega) hlast
          obtain ⟨hk, y₂, out₂, hturn, hstep⟩ := turn_succ_iff.mp hnext
          obtain ⟨rfl, rfl⟩ := Prod.mk.inj (Option.some.inj (hi.symm.trans hturn))
          refine ⟨hk, y₁, out₁, hstep, (ih (i + 1) y₁ out₁ hnext).mpr ?_⟩
          rwa [Nat.add_right_comm i 1 n]
  simpa using hall n 0 y out rfl

/-- What the loop writes at position `k`. -/
def partAt (y : YogiGen) (s : SubstitutionData) (out : Bytes) (k : ℕ) : Segment UInt8 :=
  match turn y s out k with
  | none => .plain []
  | some r =>
      if hk : k < 8 then
        match lookup r.1 s ⟨k, hk⟩ with
        | none => .plain []
        | some e => partOf s ⟨k, hk⟩ e
      else .plain []

/-- The part of a position is that of the entry which its turn finds. -/
theorem partAt_eq {y y' : YogiGen} {s : SubstitutionData} {out out' : Bytes} {k : ℕ}
    (hturn : turn y s out k = some (y', out')) {hk : k < 8} {e : Expression}
    (he : lookup y' s ⟨k, hk⟩ = some e) : partAt y s out k = partOf s ⟨k, hk⟩ e := by
  rw [partAt, hturn]
  simp only [hk, dif_pos, he]

/-- **The loop fills the template.** When the turn of a position comes, the placeholders
before it have been filled, and the first `%` of the output is its own. -/
theorem turn_template {y : YogiGen} {s : SubstitutionData} {lit : ℕ → Bytes} {n : ℕ}
    (hy : NoPercent y) (hlit : ∀ k ≤ n, 37 ∉ lit k) {k : ℕ} (hk : k ≤ n) {y' : YogiGen}
    {out : Bytes} (h : turn y s (template lit n) k = some (y', out)) :
    NoPercent y' ∧ 37 ∉ before lit (partAt y s (template lit n)) k ∧
      out = before lit (partAt y s (template lit n)) k ++ placeholders lit k (n - k) := by
  induction k generalizing y' out with
  | zero =>
      obtain ⟨rfl, rfl⟩ := Prod.mk.inj (Option.some.inj h)
      exact ⟨hy, hlit 0 (Nat.zero_le n), rfl⟩
  | succ k ih =>
      obtain ⟨hk8, y₁, out₁, hturn, hstep⟩ := turn_succ_iff.mp h
      obtain ⟨hy₁, hfree, rfl⟩ := ih (by omega) hturn
      obtain ⟨m, hm⟩ : ∃ m, n - k = m + 1 := ⟨n - k - 1, by omega⟩
      obtain ⟨e, he⟩ := Option.isSome_iff_exists.mp (lookup_of_step hstep)
      rw [hm, placeholders, substituteStep_template y₁ he hfree, Option.some.injEq,
        Prod.mk.injEq] at hstep
      obtain ⟨rfl, rfl⟩ := hstep
      have hafter := percent_notMem_after hy₁ he hfree
      have hnext := hlit (k + 1) hk
      have hleft : n - (k + 1) = m := by omega
      refine ⟨hy₁.tablesAfter he, ?_, ?_⟩
      · rw [before, partAt_eq hturn he, List.mem_append]
        exact fun hmem => hmem.elim hafter hnext
      · rw [before, partAt_eq hturn he, hleft, List.append_assoc]

/-! ### Without corrected articles -/

/-- Without corrected articles the tables stay as they are. -/
theorem turn_eq_self {y y' : YogiGen} {s : SubstitutionData} {out out' : Bytes} {k : ℕ}
    (hno : ∀ i : Fin 8, i.val < k → ¬ Articled y s i) (h : turn y s out k = some (y', out')) :
    y' = y := by
  induction k generalizing y' out' with
  | zero => exact (Prod.mk.inj (Option.some.inj h)).1.symm
  | succ k ih =>
      obtain ⟨hk, y₁, out₁, hturn, hstep⟩ := turn_succ_iff.mp h
      obtain rfl := ih (fun i hi => hno i (by omega)) hturn
      exact substituteStep_eq_self hstep (hno ⟨k, hk⟩ (Nat.lt_succ_self k))

/-- Without a correction it is the text of the entry. -/
theorem partOf_of_not_articled {y : YogiGen} {s : SubstitutionData} {i : Fin 8}
    {e : Expression} (he : lookup y s i = some e) (hno : ¬ Articled y s i) :
    partOf s i e = .plain (e.field (s.modes i)) :=
  if_neg fun hart => hno ⟨hart.1, e, he, hart.2⟩

/-- The loop on a template, where every position has an entry. -/
theorem substituteLoop_fills {y : YogiGen} {s : SubstitutionData} {lit text : ℕ → Bytes}
    {n : ℕ} (hn : 0 < n) (hn8 : n ≤ 8) (hlit : ∀ k ≤ n, 37 ∉ lit k) (hy : NoPercent y)
    (hno : ∀ i : Fin 8, i.val < n → ¬ Articled y s i)
    (htext : ∀ i : Fin 8, i.val < n → ∃ e, lookup y s i = some e ∧ text i = e.field (s.modes i)) :
    substituteLoop s (n - 1) 0 y (template lit n) =
      .ok (some (y, lit 0 ++ weave text lit 0 n)) := by
  have hfound : ∀ i : Fin 8, 0 ≤ i.val → i.val ≤ 0 + (n - 1) → (lookup y s i).isSome := by
    intro i _ hi
    obtain ⟨e, he, -⟩ := htext i (by omega)
    exact Option.isSome_of_eq_some he
  obtain ⟨⟨y', out⟩, hloop⟩ :=
    (@substituteLoop_ok_iff s (n - 1) 0 y (template lit n) (by omega)).mpr hfound
  have hturn := substituteLoop_iff_turn.mp hloop
  rw [Nat.sub_add_cancel hn] at hturn
  obtain rfl := turn_eq_self hno hturn
  obtain ⟨-, -, rfl⟩ := turn_template hy hlit le_rfl hturn
  have hpart : ∀ k < n, partAt y' s (template lit n) k = .plain (text k) := by
    intro k hk
    obtain ⟨⟨y₁, out₁⟩, hk'⟩ := turn_of_le hk.le hturn
    obtain rfl := turn_eq_self (fun i hi => hno i (by omega)) hk'
    obtain ⟨e, he, heq⟩ := htext ⟨k, by omega⟩ hk
    rw [partAt_eq hk' he, partOf_of_not_articled he (hno ⟨k, by omega⟩ hk), ← heq]
  rw [hloop, before_plain hpart, Nat.sub_self, placeholders, List.append_nil]

/-- **Simultaneous substitution.** For a template whose placeholders match the count, on
tables without `%` and with a selection that corrects no article: if every selected index
has an entry, the loop ends with the texts of the entries between the literal pieces, and
otherwise it fails. -/
theorem loop_fills {y : YogiGen} {f : FormatString} {s : SubstitutionData}
    {draws : List (Option UInt16)} {lit : ℕ → Bytes} {n : ℕ} (hn : 0 < n)
    (hcount : f.count.toNat = n) (hstr : f.str = template lit n) (hlit : ∀ k ≤ n, 37 ∉ lit k)
    (hy : NoPercent y) (hs : (processFormats y f).Yields draws (some s))
    (hno : ∀ i : Fin 8, i.val < n → ¬ Articled y s i) :
    (∀ text : ℕ → Bytes, (∀ i : Fin 8, i.val < n → ∃ e,
      getExpression y (s.ins i).toUInt16 (s.types i) = some e ∧
        text i = e.field (s.modes i)) →
      substituteLoop s (s.count.toInt - 1).toNat 0 y s.str =
        .ok (some (y, lit 0 ++ weave text lit 0 n))) ∧
      ((∃ i : Fin 8, i.val < n ∧ getExpression y (s.ins i).toUInt16 (s.types i) = none) →
        substituteLoop s (s.count.toInt - 1).toNat 0 y s.str = .ok none) := by
  obtain ⟨s, hsel, rfl⟩ := yields_processFormats_iff.mp hs
  have hle := hsel.count_le
  have hstr' : (s.withFormat f).str = template lit n := hstr
  rw [further_positions_withFormat hle, hcount, hstr']
  constructor
  · exact fun text htext => substituteLoop_fills hn (by omega) hlit hy hno htext
  · rintro ⟨i, hi, hnone⟩
    obtain ⟨r, hr⟩ := substituteLoop_not_error (s.withFormat f) y (template lit n)
      (show 0 + (n - 1) < 8 by omega)
    cases r with
    | none => exact hr
    | some r =>
        have hfound := (substituteLoop_ok_iff (by omega)).mp ⟨r, hr⟩ i (Nat.zero_le _) (by omega)
        rw [lookup, hnone] at hfound
        exact absurd hfound (by simp)

/-- Two verbs, one of which needs no postposition before an object, and one adjective. -/
def twoVerbs : YogiGen where
  verbs := .ofRows [⟨0, 0, ascii "walk", ascii "walks"⟩, ⟨0, 3, ascii "talk", ascii "talks"⟩]
  adjs := .ofRows [⟨1, 0, ascii "calm", ascii "calmly"⟩]
  cepts := .ofRows []
  objs := .ofRows []
  formats := .ofRows []
  conn := ⟨none, [], 0, maxConnNumber, 0⟩

/-- No text of the state has a percent sign. -/
theorem noPercent_twoVerbs : NoPercent twoVerbs := by
  intro type
  cases type with
  | verb | adjective | concept | object => decide

/-- `Yogis %s%s and %s.`: a verb in both of its forms, and an adjective. -/
def formsFormat : FormatString where
  str := ascii "Yogis %s%s and %s."
  data := pack [.first false .verb .noFlags, .first true .verb .noFlags,
    .first false .adjective .noFlags]
  count := 3

/-- The literal pieces of the format. -/
def formsLit (k : ℕ) : Bytes :=
  [ascii "Yogis ", [], ascii " and ", ascii "."].getD k []

/-- The texts for the placeholders. -/
def formsText (k : ℕ) : Bytes :=
  [ascii "talk", ascii "talks", ascii "calm"].getD k []

/-- Two placeholders side by side for one slot, and a third one behind them. -/
theorem loop_fills_yogis :
    ∃ s, (processFormats twoVerbs formsFormat).Yields [some 3, some 0] (some s) ∧
      substituteLoop s (s.count.toInt - 1).toNat 0 twoVerbs s.str =
        .ok (some (twoVerbs, formsLit 0 ++ weave formsText formsLit 0 3)) ∧
      formsLit 0 ++ weave formsText formsLit 0 3 = ascii "Yogis talktalks and calm." := by
  obtain ⟨s, hs, hflags, hfound⟩ : ∃ s,
      (processFormats twoVerbs formsFormat).Yields [some 3, some 0] (some s) ∧
      (∀ i : Fin 8, i.val < 3 → s.flags i = .noFlags) ∧
      ∀ i : Fin 8, i.val < 3 →
        (getExpression twoVerbs (s.ins i).toUInt16 (s.types i)).map (·.field (s.modes i)) =
          some (formsText i) :=
    ⟨_, Supply.Reader.yields_iff_run.mpr rfl, by decide +kernel, by decide +kernel⟩
  refine ⟨s, hs, (loop_fills (by decide) rfl (by decide) (by decide) noPercent_twoVerbs hs
    fun i hi hart => ?_).1 formsText fun i hi => ?_, by decide⟩
  · have hflag := hart.1
    rw [hflags i hi] at hflag
    exact absurd hflag (by decide)
  · obtain ⟨e, he, hfield⟩ := Option.map_eq_some_iff.mp (hfound i hi)
    exact ⟨e, he, hfield.symm⟩

/-- The template `Yogis %s.` -/
def yogisLit (k : ℕ) : Bytes :=
  if k = 0 then ascii "Yogis " else ascii "."

/-- The template with one descriptor. -/
def yogisFormat (d : Descriptor) : FormatString :=
  ⟨ascii "Yogis %s.", pack [d], 1⟩

/-- For an adjective, the post-position flags give an index of the verbs, where there need
not be an adjective. -/
theorem loop_fails_postpos :
    ∃ s, (processFormats twoVerbs (yogisFormat ⟨false, .adjective, 0, .postposCept⟩)).Yields
        [some 0, some 0] (some s) ∧
      (yogisFormat ⟨false, .adjective, 0, .postposCept⟩).count.toNat = 1 ∧
      (yogisFormat ⟨false, .adjective, 0, .postposCept⟩).str = template yogisLit 1 ∧
      (∀ k ≤ 1, 37 ∉ yogisLit k) ∧ NoPercent twoVerbs ∧
      (∀ i : Fin 8, i.val < 1 → ¬ Articled twoVerbs s i) ∧
      ∀ text, substituteLoop s (s.count.toInt - 1).toNat 0 twoVerbs s.str ≠
        .ok (some (twoVerbs, yogisLit 0 ++ weave text yogisLit 0 1)) := by
  obtain ⟨s, hs, hflag, hloop⟩ : ∃ s,
      (processFormats twoVerbs (yogisFormat ⟨false, .adjective, 0, .postposCept⟩)).Yields
        [some 0, some 0] (some s) ∧ s.flags 0 = .noFlags ∧
      substituteLoop s (s.count.toInt - 1).toNat 0 twoVerbs s.str = .ok none :=
    ⟨_, Supply.Reader.yields_iff_run.mpr rfl, rfl, by decide +kernel⟩
  have hzero : ∀ i : Fin 8, i.val < 1 → i = 0 := by decide
  refine ⟨s, hs, rfl, by decide, by decide, noPercent_twoVerbs, fun i hi hart => ?_,
    fun text => ?_⟩
  · rw [hzero i hi, Articled, hflag] at hart
    exact absurd hart.1 (by decide)
  · rw [hloop]
    simp

end Yogigen
