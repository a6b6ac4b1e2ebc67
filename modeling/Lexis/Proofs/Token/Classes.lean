import Lexis.Token.Coercion

/-!
# Classes of tokens

Every token belongs to exactly one class.  The classes of literals decide which tokens have
a number.
-/

namespace Lexis.Token

variable {t : Token}

theorem count_classes (t : Token) :
    [t.kind == .invalid, t.isNewline, t.isIdentifier, t.isComment, t.isLiteral,
      t.isPunctuation].count true = 1 := by
  obtain ⟨kind, position, first, last, value⟩ := t
  cases kind <;> rfl

theorem isLiteral_eq (t : Token) :
    t.isLiteral = (t.isBoolean || t.isNull || t.isInteger || t.isFloat || t.isString) := by
  obtain ⟨kind, position, first, last, value⟩ := t
  cases kind <;> rfl

theorem literals_eq_contains (t : Token) :
    t.isBoolean = Kind.booleans.contains t.kind ∧ t.isInteger = Kind.integers.contains t.kind ∧
      t.isFloat = Kind.floats.contains t.kind ∧ t.isString = Kind.strings.contains t.kind := by
  obtain ⟨kind, position, first, last, value⟩ := t
  cases kind <;> exact ⟨rfl, rfl, rfl, rfl⟩

/-! ## Numbers -/

/-- An integer literal has a value, whatever it is. -/
theorem exists_exactInteger (h : t.kind ∈ Kind.integers) : ∃ n, t.exactInteger = .ok n := by
  have hinteger : t.isInteger = true := by
    rw [t.literals_eq_contains.2.1]
    exact List.contains_iff_mem.mpr h
  obtain ⟨kind, position, first, last, value⟩ := t
  cases kind with
  | integer | integerExp | hex | binary => exact ⟨_, rfl⟩
  | _ => simp [isInteger] at hinteger

theorem exists_float (h : t.kind ∈ Kind.floats ++ Kind.integers) : ∃ x, t.float = .ok x := by
  have hnumber : (t.isFloat || t.isInteger) = true := by
    rw [t.literals_eq_contains.2.1, t.literals_eq_contains.2.2.1, Bool.or_eq_true,
      List.contains_iff_mem, List.contains_iff_mem]
    exact List.mem_append.mp h
  obtain ⟨kind, position, first, last, value⟩ := t
  cases kind with
  | integer | integerExp | hex | binary | float | floatExp => exact ⟨_, rfl⟩
  | _ => simp [isInteger, isFloat] at hnumber

/-- Numbers and strings are read as integers, and no other tokens are. -/
theorem exactInteger_eq_error_iff :
    t.exactInteger = .error (.notInteger t.kind) ↔
      (t.isInteger || t.isFloat || t.isString) = false := by
  obtain ⟨kind, position, first, last, value⟩ := t
  cases kind with
  | float | floatExp =>
      simp only [exactInteger, isInteger, isFloat, isString]
      split <;> simp
  | _ => simp [exactInteger, isInteger, isFloat, isString]

theorem float_eq_error_iff :
    t.float = .error (.notFloat t.kind) ↔ (t.isInteger || t.isFloat || t.isString) = false := by
  obtain ⟨kind, position, first, last, value⟩ := t
  cases kind <;> simp [float, exactInteger, isInteger, isFloat, isString, Except.map]

end Lexis.Token
