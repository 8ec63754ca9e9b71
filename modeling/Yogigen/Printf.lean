import Yogigen.Numeral

/-!
# Formatted Output

The part of C formatted output that templates with `%s`, `%lx` and `%d` use, on byte
strings. A C string argument ends at its first NUL; a conversion whose argument is
missing or of another kind is copied as it stands.

## Main results

* `format_append`: text without a percent sign is copied.
* `format_str`: the conversion `%s` prints its argument.
-/

namespace Printf

/-- The bytes of an ASCII text. -/
def ascii (s : String) : List UInt8 :=
  s.toList.map fun c => c.toNat.toUInt8

/-- The bytes a C string function reads: those before the first NUL. -/
def cstr (bytes : List UInt8) : List UInt8 :=
  bytes.takeWhile (· ≠ 0)

/-- An argument of a conversion. -/
inductive Arg
  | str (bytes : List UInt8)
  | ulong (n : UInt64)
  | int (z : ℤ)

/-- The text of a template and its arguments. -/
def format : List UInt8 → List Arg → List UInt8
  | 37 :: 115 :: template, .str bytes :: args => cstr bytes ++ format template args
  | 37 :: 108 :: 120 :: template, .ulong n :: args =>
      Numeral.text 16 n.toNat ++ format template args
  | 37 :: 100 :: template, .int z :: args => Numeral.intText z ++ format template args
  | c :: template, args => c :: format template args
  | [], _ => []

/-- Bytes without NUL are a C string as a whole. -/
theorem cstr_eq_self {bytes : List UInt8} (h : 0 ∉ bytes) : cstr bytes = bytes := by
  rw [cstr, List.takeWhile_eq_self_iff]
  intro c hc
  exact decide_eq_true fun h0 => h (h0 ▸ hc)

/-- A C string has no NUL. -/
theorem zero_notMem_cstr (bytes : List UInt8) : 0 ∉ cstr bytes := by
  intro h
  have h0 := List.mem_takeWhile_imp h
  exact absurd rfl (of_decide_eq_true h0)

/-- What stands behind a terminator is not read. -/
theorem cstr_append_zero (bytes rest : List UInt8) : cstr (bytes ++ 0 :: rest) = cstr bytes := by
  induction bytes with
  | nil => rfl
  | cons c bytes ih =>
      simp only [cstr, List.cons_append, List.takeWhile_cons] at ih ⊢
      rw [ih]

/-- Text without a percent sign is copied. -/
theorem format_append {text : List UInt8} (h : 37 ∉ text) (template : List UInt8)
    (args : List Arg) : format (text ++ template) args = text ++ format template args := by
  induction text with
  | nil => rfl
  | cons c text ih =>
      obtain ⟨hc, ht⟩ := not_or.mp (List.mem_cons.not.mp h)
      rw [List.cons_append, format, ih ht, List.cons_append]
      all_goals
        intro _ _ _ _ h37
        exact absurd h37.symm hc

/-- `%s` copies a C string. -/
theorem format_str (template bytes : List UInt8) (args : List Arg) :
    format (ascii "%s" ++ template) (.str bytes :: args) = cstr bytes ++ format template args :=
  rfl

/-- Text without a percent sign is its own format. -/
theorem format_eq_self {text : List UInt8} (h : 37 ∉ text) (args : List Arg) :
    format text args = text := by
  have happend := format_append h [] args
  rwa [List.append_nil, format, List.append_nil] at happend

end Printf
