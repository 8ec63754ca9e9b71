import Mathlib.Data.List.Basic

/-!
# Reading SQL Text

Standard lexing of a statement: words, single symbols, and string literals with an
optional mark in front of the quote (`X'..'` for bit strings). A literal ends at an
unpaired single quote, a doubled one stands for one quote. Text in which a literal is
not closed has no tokens. Comments are not skipped; they would only use up more text.

The lexer is a machine that reads one byte at a time, so texts can be lexed piece by
piece (`lexFrom_append`).

## Main results

* `literal_cases`: what text a literal and its contents come from.
* `length_tokens_le`: there are no more tokens than bytes.
* `embedded_iff`: a value put between quotes is read back as that value, with the tokens
  of the text after it, exactly if it contains no quote.
-/

namespace SqlText

/-- The tokens of a statement. -/
inductive Token
  | word (text : List UInt8)
  | symbol (c : UInt8)
  | quoted (mark text : List UInt8)
  deriving DecidableEq

/-- What has been read of the current token. -/
inductive Mode
  | between
  | word (acc : List UInt8)
  | literal (mark acc : List UInt8)
  | quote (mark acc : List UInt8)
  deriving DecidableEq

/-- The bytes of words. -/
def isWordByte (c : UInt8) : Bool :=
  decide (48 ≤ c ∧ c ≤ 57 ∨ 65 ≤ c ∧ c ≤ 90 ∨ 97 ≤ c ∧ c ≤ 122 ∨ c = 95 ∨ 128 ≤ c)

/-- The blanks. -/
def isSpaceByte (c : UInt8) : Bool :=
  decide (c = 32 ∨ 9 ≤ c ∧ c ≤ 13)

/-- A byte that does not continue a token. -/
def start (c : UInt8) : List Token × Mode :=
  if isSpaceByte c then ([], .between)
  else if isWordByte c then ([], .word [c])
  else if c = 39 then ([], .literal [] [])
  else ([.symbol c], .between)

/-- One byte: the tokens it completes and the mode it leaves. -/
def next : Mode → UInt8 → List Token × Mode
  | .between, c => start c
  | .word acc, c =>
      if isWordByte c then ([], .word (acc ++ [c]))
      else if c = 39 then ([], .literal acc [])
      else (.word acc :: (start c).1, (start c).2)
  | .literal mark acc, c =>
      if c = 39 then ([], .quote mark acc) else ([], .literal mark (acc ++ [c]))
  | .quote mark acc, c =>
      if c = 39 then ([], .literal mark (acc ++ [39]))
      else (.quoted mark acc :: (start c).1, (start c).2)

/-- The end of the text. -/
def finish : Mode → Option (List Token)
  | .between => some []
  | .word acc => some [.word acc]
  | .literal _ _ => none
  | .quote mark acc => some [.quoted mark acc]

/-- The tokens a piece of text completes and the mode it leaves. -/
def scan (m : Mode) : List UInt8 → List Token × Mode
  | [] => ([], m)
  | c :: s => ((next m c).1 ++ (scan (next m c).2 s).1, (scan (next m c).2 s).2)

/-- The tokens of a text, read from some mode. -/
def lexFrom (m : Mode) (s : List UInt8) : Option (List Token) :=
  (finish (scan m s).2).map ((scan m s).1 ++ ·)

/-- The tokens of a text. -/
def lex (s : List UInt8) : Option (List Token) :=
  lexFrom .between s

/-- A value with every quote doubled. -/
def escape (v : List UInt8) : List UInt8 :=
  v.flatMap fun c => if c = 39 then [39, 39] else [c]

/-! ### Reading in pieces -/

/-- The scan goes on in the mode that the first part ends in. -/
theorem scan_append (m : Mode) (s t : List UInt8) :
    scan m (s ++ t) =
      ((scan m s).1 ++ (scan (scan m s).2 t).1, (scan (scan m s).2 t).2) := by
  induction s generalizing m with
  | nil => rfl
  | cons c s ih => simp only [List.cons_append, scan, ih, List.append_assoc]

/-- **Texts are lexed piece by piece.** -/
theorem lexFrom_append (m : Mode) (s t : List UInt8) :
    lexFrom m (s ++ t) = (lexFrom (scan m s).2 t).map ((scan m s).1 ++ ·) := by
  simp only [lexFrom, scan_append, Option.map_map]
  congr 1
  funext tail
  exact List.append_assoc ..

/-- Byte by byte. -/
theorem lexFrom_cons (m : Mode) (c : UInt8) (s : List UInt8) :
    lexFrom m (c :: s) = (lexFrom (next m c).2 s).map ((next m c).1 ++ ·) := by
  have h := lexFrom_append m [c] s
  simpa only [List.singleton_append, scan, List.append_nil] using h

/-- After the closing quote of a literal, another byte starts the next token. -/
theorem lexFrom_quote {mark acc s : List UInt8} (h : s.head? ≠ some 39) :
    lexFrom (.quote mark acc) s = (lexFrom .between s).map (.quoted mark acc :: ·) := by
  cases s with
  | nil => rfl
  | cons c s =>
      have hc : c ≠ 39 := fun he => h (congrArg some he)
      simp only [lexFrom_cons, next, if_neg hc, Option.map_map]
      rfl

/-! ### Literals -/

/-- An escaped value stays within the literal. -/
theorem scan_escape (mark acc v : List UInt8) :
    scan (.literal mark acc) (escape v) = ([], .literal mark (acc ++ v)) := by
  induction v generalizing acc with
  | nil => simp [escape, scan]
  | cons c v ih =>
      rw [escape, List.flatMap_cons, scan_append]
      by_cases hc : c = 39
      · subst hc
        have hpair : scan (.literal mark acc) [39, 39] = ([], .literal mark (acc ++ [39])) := rfl
        rw [if_pos rfl, hpair]
        have htail := ih (acc ++ [39])
        rw [escape] at htail
        simp only [htail, List.nil_append, List.append_assoc, List.singleton_append]
      · have hone : scan (.literal mark acc) [c] = ([], .literal mark (acc ++ [c])) := by
          simp only [scan, next, if_neg hc, List.append_nil]
        rw [if_neg hc, hone]
        have htail := ih (acc ++ [c])
        rw [escape] at htail
        simp only [htail, List.nil_append, List.append_assoc, List.singleton_append]

/-- Without a quote there is nothing to escape. -/
theorem escape_eq_self {v : List UInt8} (h : 39 ∉ v) : escape v = v := by
  induction v with
  | nil => rfl
  | cons c v ih =>
      obtain ⟨hc, hv⟩ := not_or.mp (List.mem_cons.not.mp h)
      have htail := ih hv
      rw [escape] at htail ⊢
      rw [List.flatMap_cons, htail, if_neg fun he => hc he.symm, List.singleton_append]

/-- Each quote is doubled. -/
theorem length_escape (v : List UInt8) : (escape v).length = v.length + v.count 39 := by
  induction v with
  | nil => rfl
  | cons c v ih =>
      rw [escape] at ih ⊢
      by_cases hc : c = 39
      · simp only [List.flatMap_cons, hc, if_true, List.length_append, ih, List.length_cons,
          List.length_nil, List.count_cons_self]
        omega
      · have hcount : (c :: v).count 39 = v.count 39 := by
          rw [List.count_cons, if_neg (by simpa using hc), Nat.add_zero]
        simp only [List.flatMap_cons, if_neg hc, List.length_append, ih, hcount,
          List.length_cons, List.length_nil]
        omega

/-- **Inversion of a literal**: its content with quotes doubled, a closing quote, and
whatever comes after it. -/
theorem literal_cases {mark : List UInt8} :
    ∀ (s acc : List UInt8) {tokens : List Token},
      lexFrom (.literal mark acc) s = some tokens →
      ∃ v s' rest, s = escape v ++ 39 :: s' ∧ tokens = .quoted mark (acc ++ v) :: rest ∧
        lexFrom .between s' = some rest
  | [], acc, tokens, h => absurd h (by simp [lexFrom, scan, finish])
  | c :: s, acc, tokens, h => by
      by_cases hc : c = 39
      · subst hc
        by_cases hs : s.head? = some 39
        · obtain ⟨t, rfl⟩ := List.head?_eq_some_iff.mp hs
          have h' : lexFrom (.literal mark (acc ++ [39])) t = some tokens := by
            simpa [lexFrom_cons, next] using h
          obtain ⟨v, s', rest, rfl, htokens, hrest⟩ := literal_cases t (acc ++ [39]) h'
          refine ⟨39 :: v, s', rest, rfl, ?_, hrest⟩
          rw [htokens, List.append_assoc, List.singleton_append]
        · have h' : (lexFrom .between s).map (.quoted mark acc :: ·) = some tokens := by
            rw [← lexFrom_quote hs]
            simpa [lexFrom_cons, next] using h
          obtain ⟨rest, hrest, rfl⟩ := Option.map_eq_some_iff.mp h'
          exact ⟨[], s, rest, rfl, by rw [List.append_nil], hrest⟩
      · have h' : lexFrom (.literal mark (acc ++ [c])) s = some tokens := by
          simpa [lexFrom_cons, next, hc] using h
        obtain ⟨v, s', rest, rfl, htokens, hrest⟩ := literal_cases s (acc ++ [c]) h'
        refine ⟨c :: v, s', rest, ?_, ?_, hrest⟩
        · simp [escape, hc]
        · rw [htokens, List.append_assoc, List.singleton_append]
  termination_by s => s.length

/-! ### Counting tokens -/

/-- The token a mode owes. -/
def Mode.pending : Mode → ℕ
  | .between => 0
  | _ => 1

/-- A byte makes one token more at most. -/
theorem length_next_le (m : Mode) (c : UInt8) :
    (next m c).1.length + (next m c).2.pending ≤ m.pending + 1 := by
  have hstart : (start c).1.length + (start c).2.pending ≤ 1 := by
    simp only [start]
    split_ifs <;> simp [Mode.pending]
  cases m with
  | between => simpa [next, Mode.pending] using hstart
  | word acc =>
      simp only [next]
      split_ifs
      · simp [Mode.pending]
      · simp [Mode.pending]
      · change (start c).1.length + 1 + (start c).2.pending ≤ 1 + 1
        omega
  | literal mark acc =>
      simp only [next]
      split_ifs <;> simp [Mode.pending]
  | quote mark acc =>
      simp only [next]
      split_ifs
      · simp [Mode.pending]
      · change (start c).1.length + 1 + (start c).2.pending ≤ 1 + 1
        omega

/-- So there are no more tokens than bytes. -/
theorem length_scan_le (m : Mode) (s : List UInt8) :
    (scan m s).1.length + (scan m s).2.pending ≤ m.pending + s.length := by
  induction s generalizing m with
  | nil => simp [scan]
  | cons c s ih =>
      have hnext := length_next_le m c
      have htail := ih (next m c).2
      simp only [scan, List.length_append, List.length_cons]
      omega

/-- **There are no more tokens than bytes.** -/
theorem length_tokens_le {s : List UInt8} {tokens : List Token} (h : lex s = some tokens) :
    tokens.length ≤ s.length := by
  have hscan := length_scan_le .between s
  rw [lex, lexFrom] at h
  obtain ⟨tail, htail, rfl⟩ := Option.map_eq_some_iff.mp h
  have hfinish : tail.length ≤ (scan .between s).2.pending := by
    cases hm : (scan .between s).2 with
    | between =>
        obtain rfl : [] = tail := by simpa [hm, finish] using htail
        exact Nat.zero_le _
    | literal mark acc => simp [hm, finish] at htail
    | word acc =>
        obtain rfl : [.word acc] = tail := by simpa [hm, finish] using htail
        exact Nat.le_refl _
    | quote mark acc =>
        obtain rfl : [.quoted mark acc] = tail := by simpa [hm, finish] using htail
        exact Nat.le_refl _
  have hzero : Mode.between.pending = 0 := rfl
  rw [List.length_append]
  omega

/-! ### Values between quotes -/

/-- A value without quotes is read back, followed by the tokens of the text after it. -/
theorem lexFrom_embedded {mark v t : List UInt8} (hv : 39 ∉ v) (ht : t.head? ≠ some 39) :
    lexFrom (.literal mark []) (v ++ 39 :: t) = (lex t).map (.quoted mark v :: ·) := by
  have hscan : scan (.literal mark []) v = ([], .literal mark v) := by
    have h := scan_escape mark [] v
    rwa [escape_eq_self hv, List.nil_append] at h
  rw [lexFrom_append, hscan, lexFrom_cons]
  simp only [next, if_true, List.nil_append, Option.map_id']
  exact lexFrom_quote ht

/-- **Values put between quotes.** When every byte of the text after the value is a token
of its own, the value is read back with exactly these tokens if and only if it contains no
quote: every quote that is read costs a byte of the text that follows. -/
theorem embedded_iff (mark : List UInt8) {v t : List UInt8} {tokens : List Token}
    (ht : lex t = some tokens) (hlen : tokens.length = t.length) (hhead : t.head? ≠ some 39) :
    lexFrom (.literal mark []) (v ++ 39 :: t) = some (.quoted mark v :: tokens) ↔ 39 ∉ v := by
  constructor
  · intro h hmem
    obtain ⟨v', s', rest, htext, heq, hrest⟩ := literal_cases _ _ h
    obtain ⟨hquoted, rfl⟩ := List.cons.inj heq
    obtain ⟨-, rfl⟩ := Token.quoted.inj hquoted
    have hbytes := congrArg List.length htext
    have hcount := List.count_pos_iff.mpr hmem
    have hle := length_tokens_le hrest
    simp only [List.length_append, List.length_cons, length_escape] at hbytes
    omega
  · intro hv
    rw [lexFrom_embedded hv hhead, ht]
    rfl

end SqlText
