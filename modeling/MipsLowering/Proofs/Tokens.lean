import Mathlib.Data.List.Basic
import Mathlib.Data.List.TakeWhile
import MipsLowering.Proofs.Operands
import MipsLowering.Proofs.Reading

/-! # The parts of a line

Names, words and integers are tokens: they hold no blank and none of the marks by which a line is
divided.  So a token is found again wherever blanks and marks stand around it, and a numeral is read as
the number that it was written for. -/

namespace MipsLowering

/-! ## Words -/

namespace Text

/-- One character or more, and no blank among them. -/
structure OneWord (cs : List Char) : Prop where
  nonempty : cs ≠ []
  solid : ∀ c ∈ cs, isBlank c = false

namespace OneWord

variable {w : List Char} (word : OneWord w)

include word

theorem filled : w.isEmpty = false := by
  simpa using word.nonempty

theorem words_append (rest : List Char) : words (w ++ ' ' :: rest) = w :: words rest := by
  rw [words, List.splitOnP_append_cons_of_forall_mem word.solid ' ' rfl, List.filter_cons, word.filled]
  rfl

theorem words_eq : words w = [w] := by
  rw [words, List.splitOnP_eq_singleton word.solid, List.filter_cons, word.filled]
  rfl

theorem isOneWord_eq : isOneWord w = true := by
  rw [isOneWord, word.words_eq]
  rfl

theorem stripStart_append (rest : List Char) : stripStart (w ++ rest) = w ++ rest := by
  obtain ⟨c, tail, rfl⟩ := List.exists_cons_of_ne_nil word.nonempty
  simp [stripStart, word.solid c List.mem_cons_self]

theorem stripEnd_append (front : List Char) : stripEnd (front ++ w) = front ++ w := by
  obtain ⟨tail, c, rfl⟩ := List.eq_nil_or_concat w |>.resolve_left word.nonempty
  simp [stripEnd, word.solid c (by simp)]

theorem strip_eq : strip w = w :=
  strip_of_solid word.solid

theorem strip_append_blank : strip (w ++ [' ']) = w := by
  rw [strip, word.stripStart_append, stripEnd, List.reverse_append, List.reverse_singleton,
    List.singleton_append, List.dropWhile_cons_of_pos rfl]
  exact word.stripEnd_append []

theorem strip_between {last : List Char} (ends : OneWord last) (middle : List Char) :
    strip (w ++ (middle ++ last)) = w ++ (middle ++ last) := by
  rw [strip, word.stripStart_append, ← List.append_assoc, ends.stripEnd_append]

theorem cutWord_append (rest : List Char) : cutWord (w ++ ' ' :: rest) = (w, strip rest) := by
  have inside : ∀ c ∈ w, (!isBlank c) = true := fun c member => by simp [word.solid c member]
  have blank : isBlank ' ' = true := rfl
  rw [cutWord, word.stripStart_append, List.takeWhile_append_of_pos inside,
    List.dropWhile_append_of_pos inside]
  simp [blank, strip_cons_of_isBlank]

theorem cutWord_eq : cutWord w = (w, []) := by
  have inside : ∀ c ∈ w, (!isBlank c) = true := fun c member => by simp [word.solid c member]
  have whole : stripStart w = w := by simpa using word.stripStart_append []
  rw [cutWord, whole, List.takeWhile_eq_self_iff.mpr inside, List.dropWhile_eq_nil_iff.mpr inside]
  rfl

end OneWord

end Text

/-! ## Names, words and integers -/

namespace Lexeme

/-- One word character or more. -/
def isWord (cs : List Char) : Bool :=
  !cs.isEmpty && cs.all Text.isWordChar

/-- A name or an integer. -/
def isValue (cs : List Char) : Bool :=
  isIdentifier cs || isInteger cs

/-- A name other than the keywords of jumps. -/
def isTarget (cs : List Char) : Bool :=
  isIdentifier cs && cs != "goto".toList && cs != "if".toList

theorem isIdentifier_of_isTarget {cs : List Char} (target : isTarget cs = true) : isIdentifier cs = true := by
  simp only [isTarget, Bool.and_eq_true] at target
  exact target.1.1

/-- A character that can stand in a name, a word or an integer. -/
def isTokenChar (c : Char) : Bool :=
  Text.isWordChar c || Text.isDecimal c || c == '.' || c == '-'

/-- The characters by which the rules divide a line. -/
def marks : List Char :=
  [':', '=', ',', '[', '\'', '"', '#', '/', '!']

theorem isTokenChar_of_isBlank {c : Char} (blank : Text.isBlank c = true) : isTokenChar c = false := by
  obtain ⟨notWord, notPoint⟩ := Text.not_word_of_isBlank blank
  obtain ⟨notDecimal, notMinus, _, _⟩ := Text.not_literal_of_isBlank blank
  simp [isTokenChar, notWord, notPoint, notDecimal, notMinus]

theorem isTokenChar_of_mem_marks {mark : Char} (isMark : mark ∈ marks) : isTokenChar mark = false := by
  have checked : marks.all (!isTokenChar ·) = true := by decide +kernel
  simpa using List.all_eq_true.mp checked mark isMark

/-- A name, a word or an integer: no blank and no mark stands in it. -/
structure Token (cs : List Char) : Prop where
  nonempty : cs ≠ []
  chars : ∀ c ∈ cs, isTokenChar c = true

theorem Token.oneWord {cs : List Char} (token : Token cs) : Text.OneWord cs where
  nonempty := token.nonempty
  solid := by
    intro c member
    by_contra blank
    have none := isTokenChar_of_isBlank (by simpa using blank)
    rw [token.chars c member] at none
    cases none

theorem Token.not_mem {cs : List Char} {mark : Char} (token : Token cs) (isMark : mark ∈ marks) :
    mark ∉ cs := by
  intro member
  have none := isTokenChar_of_mem_marks isMark
  rw [token.chars mark member] at none
  cases none

theorem Token.ne_of_mem {cs : List Char} {c mark : Char} (token : Token cs) (member : c ∈ cs)
    (isMark : mark ∈ marks) : c ≠ mark :=
  fun same => token.not_mem isMark (same ▸ member)

section

variable {cs : List Char} (token : Token cs)

include token

theorem Token.colonless : ':' ∉ cs :=
  token.not_mem (by decide)

theorem Token.signless : '=' ∉ cs :=
  token.not_mem (by decide)

theorem Token.commaless : ',' ∉ cs :=
  token.not_mem (by decide)

theorem Token.bracketless : '[' ∉ cs :=
  token.not_mem (by decide)

theorem Token.unquoted : '"' ∉ cs ∧ '\'' ∉ cs :=
  ⟨token.not_mem (by decide), token.not_mem (by decide)⟩

end

theorem isWordChar_of_letter {c : Char} (letter : (c.isAlpha || c == '_') = true) :
    Text.isWordChar c = true := by
  simp only [Bool.or_eq_true] at letter
  rcases letter with alpha | underscore
  · simp [Text.isWordChar, Char.isAlphanum, alpha]
  · simp [Text.isWordChar, underscore]

/-- A name begins with a letter. -/
theorem exists_letter {cs : List Char} (name : isIdentifier cs = true) :
    ∃ c rest, cs = c :: rest ∧ (c.isAlpha || c == '_') = true := by
  cases cs with
  | nil => cases name
  | cons c rest =>
    simp only [isIdentifier, Bool.and_eq_true] at name
    exact ⟨c, rest, rfl, name.1⟩

theorem token_of_isIdentifier {cs : List Char} (name : isIdentifier cs = true) : Token cs := by
  cases cs with
  | nil => cases name
  | cons c rest =>
    simp only [isIdentifier, Bool.and_eq_true, List.all_eq_true, Bool.or_eq_true (Text.isWordChar _)] at name
    refine ⟨by simp, fun d member => ?_⟩
    rcases List.mem_cons.mp member with rfl | later
    · simp [isTokenChar, isWordChar_of_letter name.1]
    · rcases name.2 d later with word | point
      · simp [isTokenChar, word]
      · simp [isTokenChar, point]

theorem token_of_isInteger {cs : List Char} (integer : isInteger cs = true) : Token cs := by
  refine ⟨fun empty => ?_, fun c member => ?_⟩
  · rw [empty] at integer
    cases integer
  · rcases integral_of_isInteger integer c member with minus | decimal
    · simp [isTokenChar, minus]
    · simp [isTokenChar, decimal]

theorem token_of_isWord {cs : List Char} (word : isWord cs = true) : Token cs := by
  simp only [isWord, Bool.and_eq_true, List.all_eq_true] at word
  refine ⟨by simpa using word.1, fun c member => ?_⟩
  simp [isTokenChar, word.2 c member]

theorem token_of_isValue {cs : List Char} (value : isValue cs = true) : Token cs := by
  rcases Bool.or_eq_true_iff.mp value with name | integer
  · exact token_of_isIdentifier name
  · exact token_of_isInteger integer

/-! ### Operators -/

theorem oneWord_of_isOperator {cs : List Char} (operator : isOperator cs = true) : Text.OneWord cs := by
  have checked : operatorChars.all (!Text.isBlank ·) = true := by decide
  simp only [isOperator, Bool.and_eq_true, List.all_eq_true, List.contains_iff_mem] at operator
  refine ⟨by simpa using operator.1, fun c member => ?_⟩
  simpa using List.all_eq_true.mp checked c (operator.2 c member)

theorem not_mem_of_isOperator {cs : List Char} {mark : Char} (operator : isOperator cs = true)
    (other : mark ∉ operatorChars) : mark ∉ cs := by
  simp only [isOperator, Bool.and_eq_true, List.all_eq_true, List.contains_iff_mem] at operator
  exact fun member => other (operator.2 mark member)

/-- A name holds a letter and an integer a digit, and neither is part of an operator. -/
theorem not_isOperator_of_isValue {cs : List Char} (value : isValue cs = true) : isOperator cs = false := by
  have letters : operatorChars.all (fun c => !(c.isAlpha || c == '_')) = true := by decide
  have digits : operatorChars.all (!Text.isDecimal ·) = true := by decide
  by_contra operator
  simp only [isOperator, Bool.not_eq_false, Bool.and_eq_true, List.all_eq_true,
    List.contains_iff_mem] at operator
  rcases Bool.or_eq_true_iff.mp value with name | integer
  · obtain ⟨c, rest, rfl, letter⟩ := exists_letter name
    have none := List.all_eq_true.mp letters c (operator.2 c List.mem_cons_self)
    rw [letter] at none
    cases none
  · simp only [isInteger, isNumeral, Bool.and_eq_true, List.all_eq_true] at integer
    obtain ⟨c, rest, shape⟩ := List.exists_cons_of_ne_nil (by simpa using integer.1)
    have member : c ∈ dropMinus cs := shape ▸ List.mem_cons_self
    have none := List.all_eq_true.mp digits c (operator.2 c ((Stmt.dropMinus_suffix cs).subset member))
    rw [integer.2 c member] at none
    cases none

/-! ### The sign of assignment -/

theorem findAssignmentFrom_eq_none {cs : List Char} (missing : '=' ∉ cs) (scan : Scan)
    (previous : Option Char) (index : Nat) : findAssignmentFrom scan previous index cs = none := by
  induction cs generalizing scan previous index with
  | nil => rfl
  | cons c rest ih =>
    have other : (c == '=') = false := by
      simpa using fun same : c = '=' => missing (same ▸ List.mem_cons_self)
    simp only [findAssignmentFrom, other, Bool.and_false, Bool.false_and]
    exact ih (fun later => missing (List.mem_cons_of_mem c later)) _ _ _

theorem findAssignment_eq_none {cs : List Char} (missing : '=' ∉ cs) : findAssignment cs = none :=
  findAssignmentFrom_eq_none missing _ _ _

/-- A scan goes through a name without a stop. -/
theorem findAssignmentFrom_append {t : List Char} (token : ∀ c ∈ t, c ≠ '=' ∧ c ≠ '\'' ∧ c ≠ '"')
    (rest : List Char) (previous : Option Char) (index : Nat) :
    ∃ last, findAssignmentFrom .plain previous index (t ++ rest) =
      findAssignmentFrom .plain last (index + t.length) rest := by
  induction t generalizing previous index with
  | nil => exact ⟨previous, rfl⟩
  | cons c t ih =>
    obtain ⟨notSign, notQuote, notDouble⟩ := token c List.mem_cons_self
    obtain ⟨last, through⟩ := ih (fun d later => token d (List.mem_cons_of_mem c later)) (some c) (index + 1)
    refine ⟨last, ?_⟩
    have step : Scan.plain.step c = .plain := by simp [Scan.step, notQuote, notDouble]
    rw [List.cons_append, findAssignmentFrom, step, through, List.length_cons, Nat.add_assoc,
      Nat.add_comm 1]
    simp [notSign]

/-- Behind a text without quotes and equals signs, the first sign of assignment is the one that follows. -/
theorem findAssignment_append {t : List Char} (plain : ∀ c ∈ t, c ≠ '=' ∧ c ≠ '\'' ∧ c ≠ '"') (value : List Char) :
    findAssignment (t ++ ' ' :: '=' :: ' ' :: value) = some (t.length + 1) := by
  obtain ⟨last, same⟩ := findAssignmentFrom_append plain (' ' :: '=' :: ' ' :: value) none 0
  rw [findAssignment, same, Nat.zero_add]
  rfl

theorem Token.plain {t : List Char} (token : Token t) : ∀ c ∈ t, c ≠ '=' ∧ c ≠ '\'' ∧ c ≠ '"' := fun _ member =>
  ⟨token.ne_of_mem member (by decide), token.ne_of_mem member (by decide), token.ne_of_mem member (by decide)⟩

end Lexeme

/-! ## Numerals -/

namespace Text

theorem natOfDigits_toDigits (n : Nat) : natOfDigits (Nat.toDigits 10 n) = n := by
  have digits : ∀ c ∈ Nat.toDigits 10 n, (digitValue? c).getD 0 = c.toNat - '0'.toNat := by
    intro c member
    have digit := Nat.isDigit_of_mem_toDigits (by decide) (by decide) member
    simp [digitValue?, digit]
  calc natOfDigits (Nat.toDigits 10 n)
      = Nat.ofDigitChars 10 (Nat.toDigits 10 n) 0 :=
        List.foldl_ext _ _ 0 fun m c member => by rw [digits c member]
    _ = n := Nat.ofDigitChars_toDigits (by decide) (by decide)

/-- A numeral as it is written is read as its number, if it is not too long. -/
theorem readNat_toDigits (n : Nat) : readNat (Nat.toDigits 10 n) =
    if isWritable n then .ok n else .error (.read (Nat.toDigits 10 n).length) := by
  simp only [readNat, isWritable, natOfDigits_toDigits, Int.natAbs_natCast, decide_eq_true_eq]

theorem toList_toString (n : Nat) : (toString (n : Int)).toList = Nat.toDigits 10 n := by
  rw [Int.toString_eq_repr, Int.repr_eq_if, if_pos (Int.natCast_nonneg n), Int.toNat_natCast,
    Nat.toList_repr]

theorem isNumeral_toDigits (n : Nat) : Lexeme.isNumeral (Nat.toDigits 10 n) = true := by
  simp only [Lexeme.isNumeral, Bool.and_eq_true, List.all_eq_true]
  refine ⟨by simp, fun c member => ?_⟩
  exact isDecimal_of_isDigit (Nat.isDigit_of_mem_toDigits (by decide) (by decide) member)

theorem isInteger_toDigits (n : Nat) : Lexeme.isInteger (Nat.toDigits 10 n) = true := by
  have positive : Lexeme.dropMinus (Nat.toDigits 10 n) = Nat.toDigits 10 n := by
    unfold Lexeme.dropMinus
    split
    next rest shape =>
      have digit : '-'.isDigit = true :=
        Nat.isDigit_of_mem_toDigits (by decide) (by decide) (shape ▸ List.mem_cons_self)
      cases digit
    next => rfl
  rw [Lexeme.isInteger, positive, isNumeral_toDigits]

theorem readInt_toDigits (n : Nat) : readInt (Nat.toDigits 10 n) =
    if isWritable n then .ok (n : Int) else .error (.read (Nat.toDigits 10 n).length) := by
  unfold readInt
  split
  next rest shape =>
    have digit : '-'.isDigit = true :=
      Nat.isDigit_of_mem_toDigits (by decide) (by decide) (shape ▸ List.mem_cons_self)
    cases digit
  next =>
    rw [readNat_toDigits]
    split <;> rfl

end Text

end MipsLowering
