import MipsLowering.Proofs.Spelling

/-! # Lines that name an element

An element is written as the name of its array with the index in brackets.  On the right side of an assignment
this is read as an element, if the name is an identifier (`Stmt.ofLine_fromElement`).  On the left side it is no
identifier, and the last rule for assignments takes it as a name of its own, brackets and all
(`Stmt.ofLine_toElement`). -/

namespace MipsLowering

/-- How an element is written. -/
def elementText (array index : String) : String :=
  array ++ "[" ++ index ++ "]"

theorem toList_elementText (array index : String) :
    (elementText array index).toList = array.toList ++ '[' :: (index.toList ++ [']']) := by
  simp [elementText]

namespace Lexeme

/-- A name of an array: an identifier, or a word as declarations take it. -/
def isArrayName (cs : List Char) : Bool :=
  isIdentifier cs || isWord cs

/-- An index: a name, or a number without a sign. -/
def isIndex (cs : List Char) : Bool :=
  isIdentifier cs || isNumeral cs

/-- A text that is an operand as it stands: a name, a number, a character or a quoted text.  The truth values are
    among the names. -/
def isOperand (cs : List Char) : Bool :=
  isIdentifier cs || isInteger cs || isFloat cs || isCharLiteral cs || isQuoted cs

theorem token_of_isArrayName {cs : List Char} (name : isArrayName cs = true) : Token cs := by
  rcases Bool.or_eq_true_iff.mp name with identifier | word
  · exact token_of_isIdentifier identifier
  · exact token_of_isWord word

theorem isValue_of_isIndex {cs : List Char} (index : isIndex cs = true) : isValue cs = true := by
  rcases Bool.or_eq_true_iff.mp index with name | numeral
  · simp [isValue, name]
  · have unsigned : dropMinus cs = cs := by
      unfold dropMinus
      split
      next rest =>
        simp only [isNumeral, Bool.and_eq_true, List.all_eq_true] at numeral
        cases numeral.2 '-' List.mem_cons_self
      next => rfl
    simp [isValue, isInteger, unsigned, numeral]

/-! ## Words -/

theorem char_of_isNumeral {cs : List Char} (numeral : isNumeral cs = true) : ∀ c ∈ cs, isTokenChar c = true := by
  simp only [isNumeral, Bool.and_eq_true, List.all_eq_true] at numeral
  intro c member
  simp [isTokenChar, numeral.2 c member]

theorem char_of_isExponent {cs : List Char} (exponent : isExponent cs = true) :
    ∀ c ∈ cs, isTokenChar c = true ∨ c = '+' := by
  cases cs with
  | nil => simp
  | cons e rest =>
    simp only [isExponent, Bool.and_eq_true, Bool.or_eq_true, beq_iff_eq] at exponent
    have letter : isTokenChar e = true := by
      rcases exponent.1 with rfl | rfl <;> decide +kernel
    have minus : isTokenChar '-' = true := by simp [isTokenChar]
    have digits := char_of_isNumeral exponent.2
    intro c member
    rcases List.mem_cons.mp member with rfl | later
    · exact .inl letter
    · unfold dropSign at digits
      split at digits
      · rcases List.mem_cons.mp later with rfl | later
        · exact .inl minus
        · exact .inl (digits c later)
      · rcases List.mem_cons.mp later with rfl | later
        · exact .inr rfl
        · exact .inl (digits c later)
      · exact .inl (digits c later)

/-- A float is a word without marks, like an integer; only its exponent may have a plus sign. -/
theorem char_of_isFloat {cs : List Char} (float : isFloat cs = true) :
    ∀ c ∈ cs, isTokenChar c = true ∨ c = '+' := by
  have minus : isTokenChar '-' = true := by simp [isTokenChar]
  have point : isTokenChar '.' = true := by simp [isTokenChar]
  have digits : ∀ (part : List Char), ∀ c ∈ part.takeWhile Text.isDecimal, isTokenChar c = true := by
    intro part c member
    simp [isTokenChar, List.mem_takeWhile_imp member]
  -- Without its sign a float is digits, a point, digits again and perhaps an exponent.
  have body : ∀ c ∈ dropMinus cs, isTokenChar c = true ∨ c = '+' := by
    simp only [isFloat] at float
    split at float
    next tail behind =>
      simp only [Bool.and_eq_true] at float
      intro c member
      rw [← List.takeWhile_append_dropWhile (p := Text.isDecimal) (l := dropMinus cs), behind] at member
      rcases List.mem_append.mp member with first | later
      · exact .inl (digits _ c first)
      · rcases List.mem_cons.mp later with rfl | later
        · exact .inl point
        · rw [← List.takeWhile_append_dropWhile (p := Text.isDecimal) (l := tail)] at later
          rcases List.mem_append.mp later with second | last
          · exact .inl (digits _ c second)
          · exact char_of_isExponent float.2 c last
    next => cases float
  intro c member
  unfold dropMinus at body
  split at body
  · rcases List.mem_cons.mp member with rfl | later
    · exact .inl minus
    · exact body c later
  · exact body c member

end Lexeme

namespace Stmt

open Lexeme (Token)

/-! ## Right sides -/

/-- A right side that is read as a copy, unless it is the keyword of a call. -/
structure IsCopied (value : List Char) : Prop where
  opens : ∃ c rest, value = c :: rest ∧ Text.isBlank c = false ∧ c ≠ ':'
  ends : value.getLast? ≠ some ':'
  whole : Text.strip value = value
  call : (Text.cutWord value).1 = "call".toList → value = "call".toList
  copied : ∀ target, readValue target value = copy target value

theorem IsCopied.nonempty {value : List Char} (copied : IsCopied value) : value ≠ [] := by
  obtain ⟨c, rest, rfl, -⟩ := copied.opens
  simp

/-- A word of a number or a name. -/
theorem isCopied_of_chars {value : List Char} (nonempty : value ≠ [])
    (chars : ∀ c ∈ value, Lexeme.isTokenChar c = true ∨ c = '+')
    (signless : (Lexeme.isInteger value || Lexeme.isFloat value) = true ∨
      ∀ target, readUnary target value = none) : IsCopied value := by
  have others : ∀ mark ∈ Lexeme.marks, mark ∉ value := by
    intro mark isMark member
    rcases chars mark member with char | rfl
    · rw [Lexeme.isTokenChar_of_mem_marks isMark] at char
      cases char
    · exact absurd isMark (by decide)
  have word : Text.OneWord value := by
    refine ⟨nonempty, fun c member => ?_⟩
    rcases chars c member with char | rfl
    · by_contra blank
      rw [Lexeme.isTokenChar_of_isBlank (by simpa using blank)] at char
      cases char
    · rfl
  -- A single word without marks has nothing for the other rules to read, so it is copied as it is.
  refine ⟨?_, ?_, word.strip_eq, ?_, fun target => ?_⟩
  · obtain ⟨c, rest, rfl⟩ := List.exists_cons_of_ne_nil nonempty
    refine ⟨c, rest, rfl, word.solid c List.mem_cons_self, ?_⟩
    rintro rfl
    exact others ':' (by decide) List.mem_cons_self
  · exact fun colon => others ':' (by decide) (List.mem_of_getLast? colon)
  · rw [word.cutWord_eq]
    exact id
  · rw [readValue_of_oneWord word (others _ (by decide)) (others _ (by decide)) (others _ (by decide))]
    rcases signless with number | plain
    · rw [number]
      rfl
    · rw [plain]
      exact ite_self _

/-- A text between two quotes. -/
theorem isCopied_of_quoted {quote : Char} (isQuote : quote = '"' ∨ quote = '\'') (inner : List Char)
    (literal : (Lexeme.isQuoted (quote :: inner ++ [quote]) || Lexeme.isCharLiteral (quote :: inner ++ [quote])) =
      true) : IsCopied (quote :: inner ++ [quote]) := by
  have solid : Text.isBlank quote = false ∧ quote ≠ ':' ∧ quote ≠ 'c' := by
    rcases isQuote with rfl | rfl <;> decide +kernel
  have word : Text.OneWord [quote] := ⟨by simp, by simp [solid.1]⟩
  refine ⟨⟨quote, _, rfl, solid.1, solid.2.1⟩, ?_, ?_, fun called => ?_, fun target => ?_⟩
  · rw [List.getLast?_concat]
    simp [solid.2.1]
  · simpa using word.strip_between word inner
  · -- The first word begins with the quote.
    have start : Text.stripStart (quote :: inner ++ [quote]) = quote :: inner ++ [quote] :=
      word.stripStart_append (inner ++ [quote])
    rw [Text.cutWord, start, List.cons_append, List.takeWhile_cons_of_pos (by simp [solid.1])] at called
    exact absurd (List.cons.inj called).1 solid.2.2
  · rw [readValue, literal]
    rfl

theorem isCopied_of_isOperand {value : List Char} (operand : Lexeme.isOperand value = true) : IsCopied value := by
  simp only [Lexeme.isOperand, Bool.or_eq_true] at operand
  rcases operand with (((name | integer) | float) | char) | quoted
  · have token := Lexeme.token_of_isIdentifier name
    exact isCopied_of_chars token.nonempty (fun c member => .inl (token.chars c member))
      (.inr fun target => readUnary_eq_none name target)
  · have token := Lexeme.token_of_isInteger integer
    exact isCopied_of_chars token.nonempty (fun c member => .inl (token.chars c member)) (.inl (by simp [integer]))
  · have nonempty : value ≠ [] := by
      rintro rfl
      cases float
    exact isCopied_of_chars nonempty (Lexeme.char_of_isFloat float) (.inl (by simp [float]))
  · obtain ⟨c, rfl⟩ := (Lexeme.isCharLiteral_iff value).mp char
    exact isCopied_of_quoted (.inr rfl) [c] (by simp [char])
  · obtain ⟨inner, rfl⟩ := (Lexeme.isQuoted_iff value).mp quoted
    exact isCopied_of_quoted (.inl rfl) inner (by rw [quoted, Bool.true_or])

/-! ## Left sides -/

section

variable {w value : List Char} (word : Text.OneWord w)
  (opens : ∃ c rest, value = c :: rest ∧ Text.isBlank c = false ∧ c ≠ ':')

include word opens

/-- The name of a declaration would be the sign of assignment, and no colon follows this. -/
theorem readDeclare_eq_none_of_sign : readDeclare (w ++ ' ' :: '=' :: ' ' :: value) = none := by
  obtain ⟨c, rest, rfl, solid, notColon⟩ := opens
  have sign : takeSome (fun d => d != ':' && !Text.isBlank d) (Text.stripStart ('=' :: ' ' :: c :: rest)) =
      some (['='], ' ' :: c :: rest) := rfl
  have next : Text.stripStart (' ' :: c :: rest) = c :: rest := by
    rw [Text.stripStart, List.dropWhile_cons_of_pos rfl, List.dropWhile_cons_of_neg (by simp [solid])]
  refine Option.eq_none_iff_forall_ne_some.mpr fun s read => ?_
  simp only [readDeclare, Option.bind_eq_bind, Option.bind_eq_some_iff] at read
  obtain ⟨⟨_, r₁⟩, declared, r₂, blanks, ⟨_, r₃⟩, named, r₄, colon, _⟩ := read
  obtain ⟨front, parts, clear⟩ := exists_of_dropDeclare declared
  obtain ⟨blank, tail, behind, rfl⟩ := dropWhile_of_dropBlanks clear blanks
  rw [← parts, List.dropWhile_append_of_pos fun c member => by simp [word.solid c member]] at behind
  cases behind
  rw [sign] at named
  cases named
  simp [dropMark, next, notColon] at colon

/-- A word and a sign of assignment, where what follows neither begins nor ends with a colon. -/
theorem Passed.of_sign (noRemark : '#' ∉ w ∧ '/' ∉ w) (ends : value.getLast? ≠ some ':') :
    Passed (w ++ ' ' :: '=' :: ' ' :: value) := by
  refine ⟨readDeclareArray_eq_none ?_, readDeclare_eq_none_of_sign word opens, ?_, ?_⟩
  · intro blank tail c rest split start
    rw [List.dropWhile_append_of_pos fun c member => by simp [word.solid c member]] at split
    cases split
    cases start
    rfl
  · obtain ⟨c, rest, rfl, -⟩ := opens
    have last := List.getLast?_append_of_ne_nil (w ++ [' ', '=', ' ']) (List.cons_ne_nil c rest)
    simp only [List.append_assoc, List.cons_append, List.nil_append] at last
    rw [readLabel, if_neg]
    simp only [last, Bool.and_eq_true, beq_iff_eq, ends, false_and, not_false_iff]
  · obtain ⟨c, rest, rfl⟩ := List.exists_cons_of_ne_nil word.nonempty
    exact readComment_eq_none (fun same => noRemark.1 (same ▸ List.mem_cons_self))
      (fun same => noRemark.2 (same ▸ List.mem_cons_self)) (by simp)

end

theorem Passed.of_element {array index value : List Char} (arrayToken : Token array) (indexToken : Token index)
    (copied : IsCopied value) : Passed (array ++ '[' :: (index ++ [']']) ++ ' ' :: '=' :: ' ' :: value) := by
  refine .of_sign (oneWord_element arrayToken indexToken) copied.opens ⟨?_, ?_⟩ copied.ends
  · simp [arrayToken.not_mem (show '#' ∈ Lexeme.marks by decide), indexToken.not_mem (show '#' ∈ Lexeme.marks by decide)]
  · simp [arrayToken.not_mem (show '/' ∈ Lexeme.marks by decide), indexToken.not_mem (show '/' ∈ Lexeme.marks by decide)]

/-- A word with a bracket is no keyword and no identifier, and an assignment to it is read by the last rule. -/
theorem ofChars_of_bracket {w value : List Char} (word : Text.OneWord w) (bracket : '[' ∈ w)
    (plain : ∀ c ∈ w, c ≠ '=' ∧ c ≠ '\'' ∧ c ≠ '"') (copied : IsCopied value)
    (passed : Passed (w ++ ' ' :: '=' :: ' ' :: value)) :
    ofChars (w ++ ' ' :: '=' :: ' ' :: value) =
      .ok (if value = "call".toList then flawed (w ++ ' ' :: '=' :: ' ' :: value) .callName
        else copy (String.ofList w) value) := by
  -- No keyword has a bracket, and no identifier has one either.
  have differs : ∀ keyword ∈ keywords, w ≠ keyword.toList := by
    have bracketless : ∀ keyword ∈ keywords, '[' ∉ keyword.toList := by decide
    rintro keyword known rfl
    exact bracketless keyword known bracket
  have noName : Lexeme.isIdentifier w = false := by
    by_contra name
    exact (Lexeme.token_of_isIdentifier (by simpa using name)).bracketless bracket
  -- The first rule for assignments wants an identifier as its target, the last one takes any text.
  have assignment := readAssignment_append word plain copied.nonempty copied.whole
  have first := (assignment false).trans (if_pos (by simp [noName]))
  have last := (assignment true).trans (if_neg (by simp))
  have keyword : readKeyword (w ++ ' ' :: '=' :: ' ' :: value) = none := by
    rw [readKeyword, word.cutWord_append]
    dsimp only
    split
    case h_7 => rfl
    all_goals
      next same => exact absurd (String.ofList_injective (same.trans String.ofList_toList.symm)) (differs _ (by decide))
  have call : readCallLine (w ++ ' ' :: '=' :: ' ' :: value) = none := by
    rw [readCallLine, word.cutWord_append]
    simpa using differs "call" (by decide)
  have plainly : readPlain (w ++ ' ' :: '=' :: ' ' :: value) = none :=
    passed.readPlain_eq_none word (differs "goto" (by decide)) (differs "if" (by decide))
  simp only [ofChars, passed.array, plainly, first, keyword, call, last, Option.map_none, Option.none_or,
    Option.orElse_eq_orElse, Option.orElse_eq_or, Option.getD_some]
  by_cases called : value = "call".toList
  · rw [called]
    rfl
  · have other : ((Text.cutWord value).1 == "call".toList) = false := beq_eq_false_iff_ne.mpr (mt copied.call called)
    rw [if_neg called, other, copied.copied]
    rfl

/-- An assignment to an element is read as an assignment to a name of its own.  A value that looks like a call is
    remarked on. -/
theorem ofLine_toElement {array index operand : String} (isArray : Lexeme.isArrayName array.toList = true)
    (isIndex : Lexeme.isIndex index.toList = true) (isOperand : Lexeme.isOperand operand.toList = true) :
    ofLine (elementText array index ++ " = " ++ operand) =
      .ok (if operand = "call" then .malformed (elementText array index ++ " = " ++ operand) Flaw.callName.reason
        else .assign (elementText array index) (some operand) none none) := by
  have arrayToken := Lexeme.token_of_isArrayName isArray
  have indexToken := Lexeme.token_of_isValue (Lexeme.isValue_of_isIndex isIndex)
  have copied := isCopied_of_isOperand isOperand
  have shape : (elementText array index ++ " = " ++ operand).toList =
      array.toList ++ '[' :: (index.toList ++ [']']) ++ ' ' :: '=' :: ' ' :: operand.toList := by
    simp [elementText]
  have plain : ∀ c ∈ array.toList ++ '[' :: (index.toList ++ [']']), c ≠ '=' ∧ c ≠ '\'' ∧ c ≠ '"' := by
    intro c member
    have others : ∀ mark ∈ [':', '=', '"', '\''], c ≠ mark := fun mark isMark same =>
      not_mem_element arrayToken indexToken isMark (same ▸ member)
    exact ⟨others _ (by decide), others _ (by decide), others _ (by decide)⟩
  rw [ofLine, shape, ofChars_of_bracket (oneWord_element arrayToken indexToken) (by simp) plain copied
    (Passed.of_element arrayToken indexToken copied)]
  by_cases called : operand = "call"
  · subst called
    rw [if_pos rfl, if_pos rfl, flawed, ← shape, String.ofList_toList]
  · rw [if_neg (mt String.toList_inj.mp called), if_neg called, copy, ← toList_elementText, String.ofList_toList,
      String.ofList_toList]

/-- Without an identifier before the bracket, the text of an element is one more name. -/
theorem readValue_element {array index : List Char} (isWord : Lexeme.isWord array = true)
    (noName : Lexeme.isIdentifier array = false) (indexToken : Token index) (target : String) :
    readValue target (array ++ '[' :: (index ++ [']'])) = copy target (array ++ '[' :: (index ++ [']'])) := by
  have arrayToken := Lexeme.token_of_isWord isWord
  have others : ∀ mark ∈ [':', '=', '"', '\''], mark ∉ array ++ '[' :: (index ++ [']']) :=
    fun _ isMark => not_mem_element arrayToken indexToken isMark
  have noElement : readElement target (array ++ '[' :: (index ++ [']'])) = none := by
    simp only [readElement, takeWhile_element arrayToken, dropWhile_element arrayToken, noName, Bool.false_and,
      Bool.false_eq_true, if_false]
  have noSign : readUnary target (array ++ '[' :: (index ++ [']'])) = none := by
    obtain ⟨c, rest, rfl⟩ := List.exists_cons_of_ne_nil arrayToken.nonempty
    have noBang : c ≠ '!' := arrayToken.ne_of_mem List.mem_cons_self (by decide)
    have noMinus : c ≠ '-' := by
      rintro rfl
      simp only [Lexeme.isWord, Bool.and_eq_true, List.all_eq_true] at isWord
      exact absurd (isWord.2 '-' List.mem_cons_self) (by decide +kernel)
    cases rest <;> simp [readUnary, noBang, noMinus]
  rw [readValue, not_literal_of_unquoted (others _ (by decide)) (others _ (by decide)),
    readBinary_of_oneWord (oneWord_element arrayToken indexToken), noElement, noSign]
  exact ite_self _

/-- An assignment from an element is read as such if the name of the array is an identifier. -/
theorem ofLine_fromElement {target array index : String} (isTarget : Lexeme.isTarget target.toList = true)
    (isArray : Lexeme.isArrayName array.toList = true) (isIndex : Lexeme.isIndex index.toList = true) :
    ofLine (target ++ " = " ++ elementText array index) =
      .ok (if Lexeme.isIdentifier array.toList then .arrayLoad target array index
        else .assign target (some (elementText array index)) none none) := by
  have arrayToken := Lexeme.token_of_isArrayName isArray
  have indexValue := Lexeme.isValue_of_isIndex isIndex
  have indexToken := Lexeme.token_of_isValue indexValue
  by_cases named : Lexeme.isIdentifier array.toList = true
  · have spelled : target ++ " = " ++ elementText array index = text (.arrayLoad target array index) := by
      show _ = target ++ " = " ++ array ++ "[" ++ index ++ "]"
      simp [elementText, String.append_assoc]
    rw [if_pos named, spelled]
    exact ofLine_arrayLoad isTarget named indexValue
  · have noName : Lexeme.isIdentifier array.toList = false := by simpa using named
    have isWord : Lexeme.isWord array.toList = true := by simpa [Lexeme.isArrayName, noName] using isArray
    have word := oneWord_element arrayToken indexToken
    have shape : (target ++ " = " ++ elementText array index).toList =
        target.toList ++ ' ' :: '=' :: ' ' :: (array.toList ++ '[' :: (index.toList ++ [']'])) := by
      simp [elementText]
    have noCall : (Text.cutWord (array.toList ++ '[' :: (index.toList ++ [']']))).1 ≠ "call".toList := by
      rw [word.cutWord_eq]
      exact element_ne_of_bracketless (by decide)
    rw [ofLine, shape, ofChars_value isTarget word.nonempty (not_mem_element arrayToken indexToken (by decide))
      word.strip_eq noCall, readValue_element isWord noName indexToken, if_neg named, copy, ← toList_elementText,
      String.ofList_toList, String.ofList_toList]

end Stmt

end MipsLowering
