import Yogigen.Numeral
import Mathlib.Data.List.Basic

/-!
# Reading HTML Text

The text of an element as HTML reads it. A `<` begins markup when a letter, `/`, `!` or
`?` follows it and is a character otherwise. A `&` begins a character reference when the
name of one, or `#` and digits, or `#x` and hexadecimal digits, follow it and is a
character otherwise. The names are a parameter: of the table nothing is needed except
that no name contains a `<`.

Text is read up to the first markup.

## Main results

* `startsReference_append`: text followed by a `<` has the references it has by itself.
* `content_of_plain`, `plain_of_content`: text put in front of an end tag is read as itself
  exactly if it is plain, with no markup and no reference starting in it.
-/

namespace HtmlText

/-- The names of character references. -/
structure Rules where
  names : List (List UInt8)
  noMarkup : ∀ name ∈ names, 60 ∉ name

/-- What text is read as. -/
inductive Piece
  | text (c : UInt8)
  | reference (name : List UInt8)
  deriving DecidableEq

/-! ### What starts where -/

/-- The letters. -/
def isAlpha (c : UInt8) : Bool :=
  decide (65 ≤ c ∧ c ≤ 90 ∨ 97 ≤ c ∧ c ≤ 122)

/-- The text starts with a tag, an end tag, a comment or a declaration. -/
def startsMarkup : List UInt8 → Bool
  | 60 :: c :: _ => isAlpha c || c == 47 || c == 33 || c == 63
  | _ => false

/-- The length of a run of digits and a semicolon after it, if there are any digits. -/
def numericLength (isDigit : UInt8 → Bool) (s : List UInt8) : Option ℕ :=
  let n := (s.takeWhile isDigit).length
  if n = 0 then none else some (n + if s[n]? = some 59 then 1 else 0)

/-- The length of the longest name the text starts with. -/
def namedLength (r : Rules) (s : List UInt8) : Option ℕ :=
  ((r.names.filter (·.isPrefixOf s)).map List.length).max?

/-- The length of the reference that a `&` in front of the text starts. -/
def referenceLength (r : Rules) : List UInt8 → Option ℕ
  | 35 :: 120 :: s => (numericLength Numeral.isHexDigit s).map (· + 2)
  | 35 :: 88 :: s => (numericLength Numeral.isHexDigit s).map (· + 2)
  | 35 :: s => (numericLength Numeral.isDecDigit s).map (· + 1)
  | s => namedLength r s

/-- The text starts with a character reference. -/
def startsReference (r : Rules) : List UInt8 → Bool
  | 38 :: s => (referenceLength r s).isSome
  | _ => false

/-! ### Reading -/

/-- The pieces of the text up to the first markup, and what is left. The bytes of a
reference are skipped. -/
def content (r : Rules) : ℕ → List UInt8 → List Piece × List UInt8
  | _, [] => ([], [])
  | skip + 1, _ :: s => content r skip s
  | 0, c :: s =>
      if startsMarkup (c :: s) then ([], c :: s)
      else if startsReference r (c :: s) then
        let n := (referenceLength r s).getD 0
        (.reference (s.take n) :: (content r n s).1, (content r n s).2)
      else (.text c :: (content r 0 s).1, (content r 0 s).2)

/-- The text after the first occurrence of a mark. -/
def after (mark : List UInt8) : List UInt8 → Option (List UInt8)
  | [] => if mark = [] then some [] else none
  | c :: s =>
      if mark.isPrefixOf (c :: s) then some ((c :: s).drop mark.length) else after mark s

/-- No markup and no reference starts in the text. -/
def Plain (r : Rules) (s : List UInt8) : Prop :=
  ∀ t ∈ s.tails, startsMarkup t = false ∧ startsReference r t = false

instance (r : Rules) (s : List UInt8) : Decidable (Plain r s) :=
  inferInstanceAs (Decidable (∀ t ∈ s.tails, _))

/-- The empty text is plain. -/
theorem plain_nil (r : Rules) : Plain r [] := by
  intro t ht
  obtain rfl := List.mem_singleton.mp ht
  exact ⟨rfl, rfl⟩

/-- A text is plain when nothing begins at its first byte and the rest is plain. -/
theorem plain_cons_iff {r : Rules} {c : UInt8} {s : List UInt8} :
    Plain r (c :: s) ↔
      startsMarkup (c :: s) = false ∧ startsReference r (c :: s) = false ∧ Plain r s := by
  rw [Plain, List.tails_cons, List.forall_mem_cons, Plain, and_assoc]

/-! ### Text in front of markup -/

/-- Markup behind a text ends what is taken from it. -/
theorem takeWhile_append_markup {p : UInt8 → Bool} (hp : p 60 = false) (s t : List UInt8) :
    (s ++ 60 :: t).takeWhile p = s.takeWhile p := by
  induction s with
  | nil => simp [hp]
  | cons c s ih =>
      rw [List.cons_append, List.takeWhile_cons, List.takeWhile_cons, ih]

/-- So it adds no numeric reference. -/
theorem numericLength_append {p : UInt8 → Bool} (hp : p 60 = false) (s t : List UInt8) :
    (numericLength p (s ++ 60 :: t)).isSome = (numericLength p s).isSome := by
  simp only [numericLength, takeWhile_append_markup hp]
  split_ifs <;> rfl

/-- No name goes on into it. -/
theorem isPrefixOf_append_markup {name : List UInt8} (h : 60 ∉ name) (s t : List UInt8) :
    name.isPrefixOf (s ++ 60 :: t) = name.isPrefixOf s := by
  induction name generalizing s with
  | nil => simp
  | cons d name ih =>
      obtain ⟨hd, hname⟩ := not_or.mp (List.mem_cons.not.mp h)
      cases s with
      | nil => simp [List.isPrefixOf, beq_eq_false_iff_ne.mpr fun he : d = 60 => hd he.symm]
      | cons c s => simp only [List.cons_append, List.isPrefixOf, ih hname]

/-- So it changes no named reference. -/
theorem namedLength_append (r : Rules) (s t : List UInt8) :
    namedLength r (s ++ 60 :: t) = namedLength r s := by
  have hfilter : r.names.filter (·.isPrefixOf (s ++ 60 :: t)) =
      r.names.filter (·.isPrefixOf s) :=
    List.filter_congr fun name hname => isPrefixOf_append_markup (r.noMarkup name hname) s t
  rw [namedLength, hfilter, namedLength]

/-- And no reference at all. -/
theorem referenceLength_append (r : Rules) (s t : List UInt8) :
    (referenceLength r (s ++ 60 :: t)).isSome = (referenceLength r s).isSome := by
  have hex : Numeral.isHexDigit 60 = false := by decide
  have dec : Numeral.isDecDigit 60 = false := by decide
  have hnamed := namedLength_append r s t
  rcases s with _ | ⟨c, s⟩
  · exact congrArg Option.isSome hnamed
  · by_cases h35 : c = 35
    · subst h35
      rcases s with _ | ⟨d, s⟩
      · have h := numericLength_append dec [] t
        simpa [referenceLength] using h
      · by_cases h120 : d = 120
        · subst h120
          have h := numericLength_append hex s t
          simpa [referenceLength] using h
        · by_cases h88 : d = 88
          · subst h88
            have h := numericLength_append hex s t
            simpa [referenceLength] using h
          · have h := numericLength_append dec (d :: s) t
            simpa [referenceLength, h120, h88] using h
    · have h := congrArg Option.isSome hnamed
      simpa [referenceLength, h35] using h

/-- **References do not reach beyond the text.** -/
theorem startsReference_append (r : Rules) (s t : List UInt8) (hs : s ≠ []) :
    startsReference r (s ++ 60 :: t) = startsReference r s := by
  obtain ⟨c, s, rfl⟩ := List.exists_cons_of_ne_nil hs
  by_cases hc : c = 38
  · subst hc
    exact referenceLength_append r s t
  · simp [startsReference, hc]

/-- Nor does it make markup of what was none. -/
theorem startsMarkup_append (s t : List UInt8) (hs : s ≠ []) :
    startsMarkup (s ++ 60 :: t) = startsMarkup s := by
  match s, hs with
  | [c], _ =>
      by_cases hc : c = 60
      · subst hc
        rfl
      · simp [startsMarkup, hc]
  | c :: d :: s, _ =>
      by_cases hc : c = 60
      · subst hc
        rfl
      · simp [startsMarkup, hc]

/-! ### Plain text -/

/-- Reading stops at an end tag. -/
theorem content_endTag (r : Rules) (t : List UInt8) :
    content r 0 (60 :: 47 :: t) = ([], 60 :: 47 :: t) :=
  rfl

/-- One byte in which nothing starts is read as itself. -/
theorem content_text {r : Rules} {c : UInt8} {s : List UInt8}
    (hm : startsMarkup (c :: s) = false) (hr : startsReference r (c :: s) = false) :
    content r 0 (c :: s) = (.text c :: (content r 0 s).1, (content r 0 s).2) := by
  rw [content, if_neg (by rw [hm]; exact Bool.false_ne_true),
    if_neg (by rw [hr]; exact Bool.false_ne_true)]

/-- **Plain text is read as itself**, up to the end tag after it. -/
theorem content_of_plain {r : Rules} {s t : List UInt8} (h : Plain r s) :
    content r 0 (s ++ 60 :: 47 :: t) = (s.map .text, 60 :: 47 :: t) := by
  induction s with
  | nil => exact content_endTag r t
  | cons c s ih =>
      obtain ⟨hm, hr, hplain⟩ := plain_cons_iff.mp h
      have hne : c :: s ≠ [] := List.cons_ne_nil c s
      rw [← startsMarkup_append (c :: s) (47 :: t) hne] at hm
      rw [← startsReference_append r (c :: s) (47 :: t) hne] at hr
      rw [List.cons_append] at hm hr ⊢
      rw [content_text hm hr, ih hplain, List.map_cons]

/-- **Only plain text is read as itself.** -/
theorem plain_of_content {r : Rules} {s t : List UInt8}
    (h : (content r 0 (s ++ 60 :: 47 :: t)).1 = s.map .text) : Plain r s := by
  induction s with
  | nil => exact plain_nil r
  | cons c s ih =>
      have hne : c :: s ≠ [] := List.cons_ne_nil c s
      have hmark := startsMarkup_append (c :: s) (47 :: t) hne
      have href := startsReference_append r (c :: s) (47 :: t) hne
      rw [List.cons_append] at hmark href h
      cases hm : startsMarkup (c :: s) with
      | true =>
          rw [hm] at hmark
          rw [content, if_pos hmark] at h
          exact absurd h (by simp)
      | false =>
          rw [hm] at hmark
          cases hr : startsReference r (c :: s) with
          | true =>
              rw [hr] at href
              rw [content, if_neg (by rw [hmark]; exact Bool.false_ne_true), if_pos href] at h
              exact absurd (List.cons.inj h).1 (by simp)
          | false =>
              rw [hr] at href
              rw [content_text hmark href] at h
              exact plain_cons_iff.mpr ⟨hm, hr, ih (List.cons.inj h).2⟩

/-- Text that is read byte for byte is what comes first. -/
theorem prefix_of_content {r : Rules} {s t w : List UInt8}
    (h : (content r 0 (s ++ 60 :: 47 :: t)).1 = w.map .text) : w <+: s := by
  induction s generalizing w with
  | nil =>
      rw [List.nil_append, content_endTag] at h
      rw [List.map_eq_nil_iff.mp h.symm]
  | cons c s ih =>
      cases w with
      | nil => exact List.nil_prefix
      | cons d w =>
          rw [List.cons_append, List.map_cons] at h
          cases hm : startsMarkup (c :: (s ++ 60 :: 47 :: t)) with
          | true =>
              rw [content, if_pos hm] at h
              cases h
          | false =>
              cases hr : startsReference r (c :: (s ++ 60 :: 47 :: t)) with
              | true =>
                  rw [content, if_neg (by rw [hm]; exact Bool.false_ne_true), if_pos hr] at h
                  exact absurd (List.cons.inj h).1 (by simp)
              | false =>
                  rw [content_text hm hr] at h
                  obtain ⟨hc, hw⟩ := List.cons.inj h
                  rw [Piece.text.inj hc]
                  exact List.cons_prefix_cons.mpr ⟨rfl, ih hw⟩

/-! ### Finding an element -/

/-- A mark is at the start of what begins with it. -/
theorem isPrefixOf_append (mark t : List UInt8) : mark.isPrefixOf (mark ++ t) = true :=
  List.isPrefixOf_iff_prefix.mpr (List.prefix_append mark t)

/-- A mark that does not occur earlier is found where it stands, whatever follows. -/
theorem after_append {mark front : List UInt8} (hmark : mark ≠ [])
    (h : ∀ u ∈ front.tails, u ≠ [] → mark.isPrefixOf (u ++ mark) = false) (t : List UInt8) :
    after mark (front ++ (mark ++ t)) = some t := by
  induction front with
  | nil =>
      obtain ⟨d, mark, rfl⟩ := List.exists_cons_of_ne_nil hmark
      have hpre := isPrefixOf_append (d :: mark) t
      rw [List.cons_append] at hpre
      rw [List.nil_append, List.cons_append, after, if_pos hpre, ← List.cons_append,
        List.drop_left]
  | cons c front ih =>
      rw [List.tails_cons, List.forall_mem_cons] at h
      have hnot : ¬ mark.isPrefixOf (c :: (front ++ (mark ++ t))) = true := by
        intro hpre
        have hlong : mark <+: (c :: front ++ mark) ++ t := by
          simpa using List.isPrefixOf_iff_prefix.mp hpre
        have hshort := List.prefix_of_prefix_length_le hlong
          (List.prefix_append (c :: front ++ mark) t)
          (by simp only [List.length_append, List.length_cons]; omega)
        have hfalse := h.1 (List.cons_ne_nil c front)
        rw [List.isPrefixOf_iff_prefix.mpr hshort] at hfalse
        exact absurd hfalse (by simp)
      rw [List.cons_append, after, if_neg hnot]
      exact ih h.2

end HtmlText
