import MipsLowering.Proofs.ElementLines

/-! # Lines with two operands

The right side of an assignment is tried as one quoted text before it is cut into words, and that test looks at
its two ends only.  Two operands with an operator between them pass it if both are quoted texts, and are then
copied as one text.  With any other operands the line is read as a binary operation (`Stmt.ofLine_operands`). -/

namespace MipsLowering

namespace Lexeme

/-! ## Operands that are words -/

/-- An operand without blanks: a name, a number, a character or a quoted text. -/
def isWordOperand (cs : List Char) : Bool :=
  isOperand cs && cs.all (!Text.isBlank ·)

theorem point_of_isFloat {cs : List Char} (float : isFloat cs = true) : '.' ∈ cs := by
  simp only [isFloat] at float
  split at float
  next tail behind =>
    have member : '.' ∈ (dropMinus cs).dropWhile Text.isDecimal := behind ▸ List.mem_cons_self
    exact (Stmt.dropMinus_suffix cs).subset ((List.dropWhile_suffix _).subset member)
  next => cases float

/-- Every operand has a character that no operator has. -/
theorem not_isOperator_of_isOperand {cs : List Char} (operand : isOperand cs = true) : isOperator cs = false := by
  have other : ∀ {c : Char}, c ∈ cs → c ∉ operatorChars → isOperator cs = false := by
    intro c member unknown
    by_contra operator
    exact not_mem_of_isOperator (by simpa using operator) unknown member
  simp only [isOperand, Bool.or_eq_true] at operand
  rcases operand with (((name | integer) | float) | char) | quoted
  · exact not_isOperator_of_isValue (by simp [isValue, name])
  · exact not_isOperator_of_isValue (by simp [isValue, integer])
  · exact other (point_of_isFloat float) (by decide)
  · obtain ⟨c, rfl⟩ := (isCharLiteral_iff cs).mp char
    exact other List.mem_cons_self (by decide)
  · obtain ⟨inner, rfl⟩ := (isQuoted_iff cs).mp quoted
    exact other List.mem_cons_self (by decide)

/-- A double quote at one end of an operand belongs to a quoted text. -/
theorem isQuoted_of_end {cs : List Char} (operand : isOperand cs = true)
    (ends : cs.head? = some '"' ∨ cs.getLast? = some '"') : isQuoted cs = true := by
  have present : '"' ∈ cs := by
    rcases ends with first | last
    · exact List.mem_of_head? first
    · exact List.mem_of_getLast? last
  have unmarked : (∀ c ∈ cs, isTokenChar c = true ∨ c = '+') → isQuoted cs = true := by
    intro chars
    rcases chars _ present with char | plus
    · rw [isTokenChar_of_mem_marks (by decide)] at char
      cases char
    · cases plus
  simp only [isOperand, Bool.or_eq_true] at operand
  rcases operand with (((name | integer) | float) | char) | quoted
  · exact unmarked fun c member => .inl ((token_of_isIdentifier name).chars c member)
  · exact unmarked fun c member => .inl ((token_of_isInteger integer).chars c member)
  · exact unmarked (char_of_isFloat float)
  · obtain ⟨c, rfl⟩ := (isCharLiteral_iff cs).mp char
    simp at ends
  · exact quoted

section

variable {cs : List Char} (operand : isWordOperand cs = true)

include operand

theorem isOperand_of_isWordOperand : isOperand cs = true :=
  (Bool.and_eq_true_iff.mp operand).1

theorem oneWord_of_isWordOperand : Text.OneWord cs where
  nonempty := (Stmt.isCopied_of_isOperand (isOperand_of_isWordOperand operand)).nonempty
  solid c member := by
    have solid := List.all_eq_true.mp (Bool.and_eq_true_iff.mp operand).2 c member
    simpa using solid

end

/-! ## The two ends of a right side -/

section

variable {left op right : List Char}

/-- Two operands with something between them look like a quoted text if they are quoted texts. -/
theorem isQuoted_append (first : isOperand left = true) (second : isOperand right = true) (middle : List Char) :
    isQuoted (left ++ ' ' :: (middle ++ ' ' :: right)) = (isQuoted left && isQuoted right) := by
  have filled : ∀ {cs}, isOperand cs = true → cs ≠ [] := fun operand => (Stmt.isCopied_of_isOperand operand).nonempty
  have last : (' ' :: (middle ++ ' ' :: right)).getLast? = right.getLast? := by
    have ends := List.getLast?_append_of_ne_nil (' ' :: middle ++ [' ']) (filled second)
    simpa using ends
  rw [Bool.eq_iff_iff, Bool.and_eq_true]
  constructor
  · intro quoted
    obtain ⟨inner, same⟩ := (isQuoted_iff _).mp quoted
    constructor
    · refine isQuoted_of_end first (.inl ?_)
      have head := congrArg List.head? same
      rwa [List.head?_append_of_ne_nil _ (filled first)] at head
    · refine isQuoted_of_end second (.inr ?_)
      have tail := congrArg List.getLast? same
      rwa [List.getLast?_append_of_ne_nil _ (by simp), last, List.getLast?_concat] at tail
  · rintro ⟨quoted, quoted'⟩
    obtain ⟨inner, rfl⟩ := (isQuoted_iff left).mp quoted
    obtain ⟨inner', rfl⟩ := (isQuoted_iff right).mp quoted'
    exact (isQuoted_iff _).mpr ⟨inner ++ '"' :: ' ' :: (middle ++ ' ' :: '"' :: inner'), by simp⟩

end

end Lexeme

namespace Stmt

section

variable {left op right : List Char} (first : Lexeme.isWordOperand left = true)
  (operator : Lexeme.isOperator op = true) (second : Lexeme.isWordOperand right = true)

include first operator second

theorem words_operands : Text.words (left ++ ' ' :: (op ++ ' ' :: right)) = [left, op, right] := by
  rw [(Lexeme.oneWord_of_isWordOperand first).words_append, (Lexeme.oneWord_of_isOperator operator).words_append,
    (Lexeme.oneWord_of_isWordOperand second).words_eq]

theorem readValue_operands (target : String) :
    readValue target (left ++ ' ' :: (op ++ ' ' :: right)) =
      if Lexeme.isQuoted left && Lexeme.isQuoted right then copy target (left ++ ' ' :: (op ++ ' ' :: right))
      else .assign target (some (String.ofList left)) (some (String.ofList op)) (some (String.ofList right)) := by
  have isLeft := Lexeme.isOperand_of_isWordOperand first
  have noChar : Lexeme.isCharLiteral (left ++ ' ' :: (op ++ ' ' :: right)) = false := by
    by_contra char
    obtain ⟨c, same⟩ := (Lexeme.isCharLiteral_iff _).mp (by simpa using char)
    -- There are two blanks and at least three other characters.
    have length := congrArg List.length same
    have filled := List.length_pos_of_ne_nil (Lexeme.oneWord_of_isWordOperand first).nonempty
    have filled' := List.length_pos_of_ne_nil (Lexeme.oneWord_of_isOperator operator).nonempty
    simp only [List.length_append, List.length_cons, List.length_nil] at length
    omega
  have binary : readBinary target (left ++ ' ' :: (op ++ ' ' :: right)) =
      some (.assign target (some (String.ofList left)) (some (String.ofList op)) (some (String.ofList right))) := by
    rw [readBinary, words_operands first operator second]
    simp [operator, Lexeme.not_isOperator_of_isOperand isLeft]
  rw [readValue, noChar, Bool.or_false, binary,
    Lexeme.isQuoted_append isLeft (Lexeme.isOperand_of_isWordOperand second)]
  rfl

end

/-- A line that assigns an operator's result, from any two operands without blanks, is read as such, unless both
    operands are quoted texts: then the right side is taken for one text, from the first quote to the last. -/
theorem ofLine_operands {target left op right : String} (named : Lexeme.isTarget target.toList = true)
    (first : Lexeme.isWordOperand left.toList = true) (noKeyword : left ≠ "call")
    (operator : Lexeme.isOperator op.toList = true) (second : Lexeme.isWordOperand right.toList = true) :
    ofLine (target ++ " = " ++ left ++ " " ++ op ++ " " ++ right) =
      .ok (if Lexeme.isQuoted left.toList && Lexeme.isQuoted right.toList then
          .assign target (some (left ++ " " ++ op ++ " " ++ right)) none none
        else .assign target (some left) (some op) (some right)) := by
  have leftWord := Lexeme.oneWord_of_isWordOperand first
  have rightWord := Lexeme.oneWord_of_isWordOperand second
  have leftCopied := isCopied_of_isOperand (Lexeme.isOperand_of_isWordOperand first)
  have rightCopied := isCopied_of_isOperand (Lexeme.isOperand_of_isWordOperand second)
  have token := Lexeme.token_of_isIdentifier (Lexeme.isIdentifier_of_isTarget named)
  have shape : (target ++ " = " ++ left ++ " " ++ op ++ " " ++ right).toList =
      target.toList ++ ' ' :: '=' :: ' ' :: (left.toList ++ ' ' :: (op.toList ++ ' ' :: right.toList)) := by
    simp
  have whole : Text.strip (left.toList ++ ' ' :: (op.toList ++ ' ' :: right.toList)) =
      left.toList ++ ' ' :: (op.toList ++ ' ' :: right.toList) := by
    simpa using leftWord.strip_between rightWord (' ' :: (op.toList ++ [' ']))
  have noCall : (Text.cutWord (left.toList ++ ' ' :: (op.toList ++ ' ' :: right.toList))).1 ≠ "call".toList := by
    rw [leftWord.cutWord_append]
    exact mt String.toList_inj.mp noKeyword
  have passed : Passed (target.toList ++ ' ' :: '=' :: ' ' ::
      (left.toList ++ ' ' :: (op.toList ++ ' ' :: right.toList))) := by
    refine .of_sign token.oneWord ?_ ⟨token.not_mem (by decide), token.not_mem (by decide)⟩ ?_
    · obtain ⟨c, rest, same, solid, notColon⟩ := leftCopied.opens
      exact ⟨c, rest ++ ' ' :: (op.toList ++ ' ' :: right.toList), by rw [same]; rfl, solid, notColon⟩
    · have last := List.getLast?_append_of_ne_nil (left.toList ++ ' ' :: (op.toList ++ [' '])) rightWord.nonempty
      simp only [List.append_assoc, List.cons_append, List.nil_append] at last
      rw [last]
      exact rightCopied.ends
  have read := readAssignment_value (Lexeme.isIdentifier_of_isTarget named) (by simp) whole noCall
  rw [ofLine, shape, ofChars_of_passed named passed read, readValue_operands first operator second]
  have joined : String.ofList (left.toList ++ ' ' :: (op.toList ++ ' ' :: right.toList)) =
      left ++ " " ++ op ++ " " ++ right := by
    apply String.toList_injective
    simp
  simp only [copy, joined, String.ofList_toList]

/-- Operands of different kinds are told apart, whatever characters stand between their quotes. -/
theorem ofLine_operands_mixed :
    ofLine "x = \"a:=b\" == ':'" = .ok (.assign "x" (some "\"a:=b\"") (some "==") (some "':'")) :=
  @ofLine_operands "x" "\"a:=b\"" "==" "':'" (by decide +kernel) (by decide +kernel) (by decide) (by decide)
    (by decide +kernel)

/-- Two quoted texts are not: their operator becomes part of one text. -/
theorem ofLine_quoted_pair :
    Lexeme.isWordOperand "\"a\"".toList = true ∧ Lexeme.isWordOperand "\"b\"".toList = true ∧
      ofLine "x = \"a\" + \"b\"" = .ok (.assign "x" (some "\"a\" + \"b\"") none none) ∧
      ofLine "x = \"a\" + \"b\"" ≠ .ok (.assign "x" (some "\"a\"") (some "+") (some "\"b\"")) := by
  refine ⟨by decide +kernel, by decide +kernel, by decide +kernel, by decide +kernel⟩

end Stmt

end MipsLowering
