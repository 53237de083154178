import MipsLowering.Proofs.Machine

/-! # Names and integers as operands

A variable name is fetched as a name and an integer as an immediate, each spelled as it stands
(`ofString_of_isVariableName`, `ofString_of_decimal?`).  The classes of operands overlap in general, so
this needs that the first character of a name begins no literal and that a name holds no blanks. -/

namespace MipsLowering

namespace Text

/-- The code points of the blanks, one by one. -/
def blankCodes : List Nat :=
  [0x9, 0xA, 0xB, 0xC, 0xD, 0x1C, 0x1D, 0x1E, 0x1F, 0x20, 0x85, 0xA0, 0x1680, 0x2000, 0x2001, 0x2002,
    0x2003, 0x2004, 0x2005, 0x2006, 0x2007, 0x2008, 0x2009, 0x200A, 0x2028, 0x2029, 0x202F, 0x205F,
    0x3000]

theorem mem_blankCodes {c : Char} (blank : isBlank c = true) : c.toNat ∈ blankCodes := by
  simp only [isBlank, blankRanges, Ranges.contains, Bool.and_eq_true, Bool.or_eq_true,
    decide_eq_true_eq, Bool.false_eq_true, or_false] at blank
  simp only [blankCodes, List.mem_cons, List.not_mem_nil, or_false]
  omega

/-- No blank is part of a name. -/
theorem not_word_of_isBlank {c : Char} (blank : isBlank c = true) :
    isWordChar c = false ∧ c ≠ '.' := by
  have checked : ∀ n ∈ blankCodes, isWordChar (Char.ofNat n) = false ∧ Char.ofNat n ≠ '.' := by
    decide +kernel
  simpa using checked c.toNat (mem_blankCodes blank)

/-- A character that begins a name begins no literal. -/
theorem letter_spec {c : Char} (letter : (c.isAlpha || c == '_') = true) :
    isDecimal c = false ∧ isBlank c = false ∧ c ≠ '-' ∧ c ≠ '\'' ∧ c ≠ '"' ∧ c ≠ '.' := by
  have range : 65 ≤ c.toNat ∧ c.toNat < 123 := by
    have classes : c.isAlpha = (decide (c.val ≥ 'A'.val ∧ c.val ≤ 'Z'.val) ||
      decide (c.val ≥ 'a'.val) && decide (c.val ≤ 'z'.val)) := rfl
    simp only [classes, Bool.or_eq_true, Bool.and_eq_true, decide_eq_true_eq, beq_iff_eq,
      UInt32.le_iff_toNat_le, ge_iff_le] at letter
    rcases letter with (upper | lower) | rfl
    · exact ⟨upper.1, Nat.lt_of_le_of_lt upper.2 (by decide)⟩
    · exact ⟨Nat.le_trans (by decide) lower.1, Nat.lt_of_le_of_lt lower.2 (by decide)⟩
    · decide
  have checked : ∀ n < 123, 65 ≤ n → isDecimal (Char.ofNat n) = false ∧
      isBlank (Char.ofNat n) = false ∧ Char.ofNat n ≠ '-' ∧ Char.ofNat n ≠ '\'' ∧
      Char.ofNat n ≠ '"' ∧ Char.ofNat n ≠ '.' := by
    decide +kernel
  simpa using checked c.toNat range.2 range.1

/-- The minus sign and the digits: none of them is a blank, a quote or a letter. -/
theorem digit_spec {c : Char} (integral : c = '-' ∨ c.isDigit = true) :
    isBlank c = false ∧ c ≠ '\'' ∧ c ≠ '"' ∧ c.toLower ≠ 't' ∧ c.toLower ≠ 'f' ∧
      (c.isAlpha || c == '_') = false := by
  have range : 45 ≤ c.toNat ∧ c.toNat < 58 := by
    simp only [Char.isDigit, Bool.and_eq_true, decide_eq_true_eq, UInt32.le_iff_toNat_le,
      ge_iff_le] at integral
    rcases integral with rfl | digit
    · decide
    · exact ⟨Nat.le_trans (by decide) digit.1, Nat.lt_of_le_of_lt digit.2 (by decide)⟩
  have checked : ∀ n < 58, 45 ≤ n → isBlank (Char.ofNat n) = false ∧ Char.ofNat n ≠ '\'' ∧
      Char.ofNat n ≠ '"' ∧ (Char.ofNat n).toLower ≠ 't' ∧ (Char.ofNat n).toLower ≠ 'f' ∧
      ((Char.ofNat n).isAlpha || Char.ofNat n == '_') = false := by
    decide +kernel
  simpa using checked c.toNat range.2 range.1

theorem isDecimal_of_isDigit {c : Char} (digit : c.isDigit = true) : isDecimal c = true := by
  simp [isDecimal, digitValue?, digit]

theorem strip_of_solid {cs : List Char} (solid : ∀ c ∈ cs, isBlank c = false) : strip cs = cs := by
  have kept : ∀ ds : List Char, (∀ c ∈ ds, isBlank c = false) → ds.dropWhile isBlank = ds := by
    intro ds solid
    cases ds with
    | nil => rfl
    | cons c rest => simp [solid c List.mem_cons_self]
  rw [strip, stripStart, kept cs solid, stripEnd, kept _ (by simpa using solid), List.reverse_reverse]

/-- No blank is part of a number or of a truth value. -/
theorem not_literal_of_isBlank {c : Char} (blank : isBlank c = true) :
    isDecimal c = false ∧ c ≠ '-' ∧ c.toLower ∉ ['t', 'r', 'u', 'e'] ∧
      c.toLower ∉ ['f', 'a', 'l', 's', 'e'] := by
  have checked : ∀ n ∈ blankCodes, isDecimal (Char.ofNat n) = false ∧ Char.ofNat n ≠ '-' ∧
      (Char.ofNat n).toLower ∉ ['t', 'r', 'u', 'e'] ∧
      (Char.ofNat n).toLower ∉ ['f', 'a', 'l', 's', 'e'] := by
    decide +kernel
  simpa using checked c.toNat (mem_blankCodes blank)

end Text

/-! ## Names -/

/-- A variable name begins with a letter and holds no blanks. -/
theorem isVariableName_spec {s : String} (named : isVariableName s = true) :
    (∃ c rest, s.toList = c :: rest ∧ (c.isAlpha || c == '_') = true) ∧
      (∀ c ∈ s.toList, Text.isBlank c = false) ∧ Lexeme.isBoolean s.toList = false := by
  simp only [isVariableName, Bool.and_eq_true, Bool.not_eq_true'] at named
  obtain ⟨identifier, notBoolean⟩ := named
  cases shape : s.toList with
  | nil => rw [shape] at identifier; cases identifier
  | cons c rest =>
    rw [shape] at identifier notBoolean
    simp only [Lexeme.isIdentifier, Bool.and_eq_true, List.all_eq_true] at identifier
    refine ⟨⟨c, rest, rfl, identifier.1⟩, fun d member => ?_, notBoolean⟩
    rcases List.mem_cons.mp member with rfl | later
    · exact (Text.letter_spec identifier.1).2.1
    · by_contra blank
      obtain ⟨notWord, notPoint⟩ := Text.not_word_of_isBlank (by simpa using blank)
      simpa [notWord, notPoint] using identifier.2 d later

theorem stripped_of_isVariableName {s : String} (named : isVariableName s = true) :
    Text.stripped s = s := by
  rw [Text.stripped, Text.strip_of_solid (isVariableName_spec named).2.1, String.ofList_toList]

theorem ofString_of_isVariableName {s : String} (named : isVariableName s = true) :
    Operand.ofString s = .name s := by
  obtain ⟨⟨c, rest, shape, letter⟩, solid, notBoolean⟩ := isVariableName_spec named
  obtain ⟨notDecimal, _, notMinus, notQuote, notDouble, notPoint⟩ := Text.letter_spec letter
  -- The first character is a letter, and no literal other than a truth value begins with one.
  have sameMinus : Lexeme.dropMinus (c :: rest) = c :: rest := by
    unfold Lexeme.dropMinus
    split
    next same => exact absurd (List.cons.inj same).1 notMinus
    next => rfl
  have notInteger : Lexeme.isInteger s.toList = false := by
    simp [shape, Lexeme.isInteger, sameMinus, Lexeme.isNumeral, notDecimal]
  have notChar : Lexeme.isCharLiteral s.toList = false := by
    rw [shape]
    rcases rest with _ | ⟨d, _ | ⟨e, _ | ⟨f, rest⟩⟩⟩ <;>
      simp [Lexeme.isCharLiteral, Lexeme.charLiteral?, notQuote]
  have notFloat : Lexeme.isFloat s.toList = false := by
    simp only [shape, Lexeme.isFloat, sameMinus, List.dropWhile_cons, notDecimal, Bool.false_eq_true,
      if_false]
    split
    next same => exact absurd (List.cons.inj same).1 notPoint
    next => rfl
  have notText : Lexeme.isText s.toList = false := by
    rw [Lexeme.isText, Bool.or_eq_false_iff]
    refine ⟨?_, ?_⟩
    · rw [shape]
      unfold Lexeme.isQuoted
      split
      next same => exact absurd (List.cons.inj same).1 notDouble
      next => rfl
    · simpa using solid
  simp [Operand.ofString, notInteger, notBoolean, notChar, notFloat, notText]

/-! ## Immediate operands -/

theorem Lexeme.isQuoted_iff (cs : List Char) : isQuoted cs = true ↔ ∃ inner, cs = '"' :: inner ++ ['"'] := by
  unfold isQuoted
  split
  next rest => simp [List.getLast?_eq_some_iff]
  next other =>
    constructor
    · intro absurdity
      cases absurdity
    · rintro ⟨inner, rfl⟩
      exact absurd rfl (other (inner ++ ['"']))

theorem Lexeme.charLiteral?_eq_some_iff {cs : List Char} {c : Char} :
    charLiteral? cs = some c ↔ cs = ['\'', c, '\''] := by
  unfold charLiteral?
  split
  next a d b => simp [and_left_comm, and_comm]
  next other =>
    constructor
    · intro absurdity
      cases absurdity
    · rintro rfl
      exact absurd rfl (other _ _ _)

theorem Lexeme.isCharLiteral_iff (cs : List Char) : isCharLiteral cs = true ↔ ∃ c, cs = ['\'', c, '\''] := by
  simp only [isCharLiteral, Option.isSome_iff_exists, charLiteral?_eq_some_iff]

theorem Lexeme.integral_of_isInteger {cs : List Char} (integer : isInteger cs = true) :
    ∀ c ∈ cs, c = '-' ∨ Text.isDecimal c = true := by
  simp only [isInteger, isNumeral, Bool.and_eq_true, List.all_eq_true] at integer
  intro c member
  unfold dropMinus at integer
  split at integer
  · exact (List.mem_cons.mp member).imp_right (integer.2 c)
  · exact .inr (integer.2 c member)

theorem Lexeme.solid_of_isInteger {cs : List Char} (integer : isInteger cs = true) :
    ∀ c ∈ cs, Text.isBlank c = false := by
  intro c member
  by_contra blank
  obtain ⟨notDecimal, notMinus, _, _⟩ := Text.not_literal_of_isBlank (by simpa using blank)
  rcases integral_of_isInteger integer c member with minus | decimal
  · exact notMinus minus
  · rw [notDecimal] at decimal
    cases decimal

theorem Lexeme.solid_of_isBoolean {cs : List Char} (truth : isBoolean cs = true) :
    ∀ c ∈ cs, Text.isBlank c = false := by
  simp only [isBoolean, isTrue, isFalse, Bool.or_eq_true, beq_iff_eq] at truth
  intro c member
  by_contra blank
  obtain ⟨_, _, notTrue, notFalse⟩ := Text.not_literal_of_isBlank (by simpa using blank)
  have lower : c.toLower ∈ cs.map Char.toLower := List.mem_map_of_mem member
  rcases truth with isTrue | isFalse
  · exact notTrue (isTrue ▸ lower)
  · exact notFalse (isFalse ▸ lower)

theorem Lexeme.strip_of_isCharLiteral {cs : List Char} (char : isCharLiteral cs = true) :
    Text.strip cs = cs := by
  have quote : Text.isBlank '\'' = false := by decide
  obtain ⟨c, rfl⟩ := (isCharLiteral_iff cs).mp char
  simp [Text.strip, Text.stripStart, Text.stripEnd, quote]

/-- An immediate operand is an integer, a truth value or a character. -/
theorem immediate_spec {s value : String} (sort : Operand.ofString s = .immediate value) :
    (Lexeme.isInteger s.toList = true ∨ Lexeme.isBoolean s.toList = true ∨
      Lexeme.isCharLiteral s.toList = true) ∧ value = Lexeme.immediate s.toList := by
  simp only [Operand.ofString] at sort
  split at sort
  next literal =>
    simp only [Bool.or_eq_true, or_assoc] at literal
    cases sort
    exact ⟨literal, rfl⟩
  next =>
    split at sort
    · cases sort
    · split at sort <;> cases sort

/-- There are no blanks around an immediate operand. -/
theorem stripped_of_immediate {s value : String} (sort : Operand.ofString s = .immediate value) :
    Text.stripped s = s := by
  have unchanged : Text.strip s.toList = s.toList := by
    rcases (immediate_spec sort).1 with integer | truth | char
    · exact Text.strip_of_solid (Lexeme.solid_of_isInteger integer)
    · exact Text.strip_of_solid (Lexeme.solid_of_isBoolean truth)
    · exact Lexeme.strip_of_isCharLiteral char
  rw [Text.stripped, unchanged, String.ofList_toList]

/-! ## Integers -/

theorem decimal?_spec {cs : List Char} {n : Int} (decimal : Text.decimal? cs = some n) :
    ∃ digits, (cs = '-' :: digits ∨ cs = digits) ∧ digits ≠ [] ∧ ∀ c ∈ digits, c.isDigit = true := by
  have digital : ∀ ds m, Text.natural? ds = some m → ds ≠ [] ∧ ∀ c ∈ ds, c.isDigit = true := by
    intro ds m natural
    unfold Text.natural? at natural
    split at natural
    next shape =>
      simp only [Bool.and_eq_true, Bool.not_eq_true', List.all_eq_true] at shape
      exact ⟨by simpa using shape.1, shape.2⟩
    next => cases natural
  unfold Text.decimal? at decimal
  split at decimal
  next digits =>
    obtain ⟨m, natural, _⟩ := Option.map_eq_some_iff.mp decimal
    exact ⟨digits, .inl rfl, digital digits _ natural⟩
  next =>
    obtain ⟨m, natural, _⟩ := Option.map_eq_some_iff.mp decimal
    exact ⟨cs, .inr rfl, digital cs _ natural⟩

/-- The spelling of an integer as characters. -/
theorem integer_spec {cs : List Char} {n : Int} (decimal : Text.decimal? cs = some n) :
    Lexeme.isInteger cs = true ∧ (∀ c ∈ cs, c = '-' ∨ c.isDigit = true) ∧ cs ≠ [] := by
  obtain ⟨digits, shape, nonempty, digital⟩ := decimal?_spec decimal
  have numeral : Lexeme.isNumeral digits = true := by
    have all : ∀ c ∈ digits, Text.isDecimal c = true :=
      fun c member => Text.isDecimal_of_isDigit (digital c member)
    simpa [Lexeme.isNumeral, nonempty] using all
  rcases shape with rfl | rfl
  · refine ⟨numeral, fun c member => ?_, by simp⟩
    rcases List.mem_cons.mp member with rfl | later
    · exact .inl rfl
    · exact .inr (digital c later)
  · refine ⟨?_, fun c member => .inr (digital c member), nonempty⟩
    have sameMinus : Lexeme.dropMinus cs = cs := by
      unfold Lexeme.dropMinus
      split
      next rest =>
        have minus := digital '-' List.mem_cons_self
        cases minus
      next => rfl
    rw [Lexeme.isInteger, sameMinus]
    exact numeral

variable {s : String} {n : Int}

/-- What the first character of an integer rules out. -/
theorem integer_classes {cs : List Char} (decimal : Text.decimal? cs = some n) :
    Lexeme.isTrue cs = false ∧ Lexeme.isFalse cs = false ∧ Lexeme.charLiteral? cs = none ∧
      Lexeme.isQuoted cs = false ∧ Lexeme.isIdentifier cs = false := by
  obtain ⟨_, integral, nonempty⟩ := integer_spec decimal
  cases cs with
  | nil => exact absurd rfl nonempty
  | cons c rest =>
    obtain ⟨_, notQuote, notDouble, notT, notF, notLetter⟩ :=
      Text.digit_spec (integral c List.mem_cons_self)
    refine ⟨?_, ?_, ?_, ?_, ?_⟩
    · simp [Lexeme.isTrue, notT]
    · simp [Lexeme.isFalse, notF]
    · rcases rest with _ | ⟨d, _ | ⟨e, _ | ⟨f, rest⟩⟩⟩ <;> simp [Lexeme.charLiteral?, notQuote]
    · unfold Lexeme.isQuoted
      split
      next same => exact absurd (List.cons.inj same).1 notDouble
      next => rfl
    · simp [Lexeme.isIdentifier, notLetter]

theorem stripped_of_decimal? (decimal : Text.decimal? s.toList = some n) : Text.stripped s = s := by
  obtain ⟨_, integral, _⟩ := integer_spec decimal
  rw [Text.stripped, Text.strip_of_solid fun c member => (Text.digit_spec (integral c member)).1,
    String.ofList_toList]

theorem ofString_of_decimal? (decimal : Text.decimal? s.toList = some n) :
    Operand.ofString s = .immediate s := by
  obtain ⟨notTrue, notFalse, notChar, _, _⟩ := integer_classes decimal
  simp [Operand.ofString, (integer_spec decimal).1, Lexeme.immediate, notTrue, notFalse, notChar]

theorem isVariableName_of_decimal? (decimal : Text.decimal? s.toList = some n) :
    isVariableName s = false := by
  simp [isVariableName, (integer_classes decimal).2.2.2.2]

theorem inferType_of_decimal? {cs : List Char} (decimal : Text.decimal? cs = some n) :
    Lexeme.inferType cs = .int := by
  obtain ⟨_, _, notChar, notQuoted, _⟩ := integer_classes decimal
  obtain ⟨integer, _, nonempty⟩ := integer_spec decimal
  simp [Lexeme.inferType, nonempty, notQuoted, Lexeme.isCharLiteral, notChar, integer]

end MipsLowering
