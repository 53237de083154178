import MipsLowering.Proofs.Precedence

/-! # Statements read back from their spelling

`Stmt.spell` spells a statement and `Stmt.ofLine` reads a line.  A statement whose parts are names, words,
integers and operators is spelled and read back as it was (`Stmt.ofLine_spell`), unless its number has too many
digits to be written.  A line that holds such a number all the same is not read. -/

namespace MipsLowering

namespace Stmt

open Lexeme (Token)

variable {line : List Char} {s : Stmt}

/-! ## Spelled statements -/

/-- The statements whose parts are names, words, integers and operators. -/
inductive Spelled : Stmt → Prop where
  | declare {name typeName : String} (isGlobal : Bool) (named : Lexeme.isIdentifier name.toList = true)
      (typed : Lexeme.isWord typeName.toList = true) : Spelled (.declare name (some typeName) isGlobal)
  | declareArray {name typeName : String} {length : Int} (isGlobal : Bool)
      (named : Lexeme.isWord name.toList = true) (sized : 0 ≤ length)
      (typed : Lexeme.isWord typeName.toList = true) :
      Spelled (.declareArray name length (some typeName) isGlobal)
  | label {name : String} (named : Lexeme.isIdentifier name.toList = true) : Spelled (.label name)
  | comment {text : String} (stripped : Text.stripped text = text) : Spelled (.comment text)
  | goto {place : String} (named : Lexeme.isIdentifier place.toList = true) : Spelled (.goto place)
  | test {condition place : String} (value : Lexeme.isValue condition.toList = true)
      (noKeyword : condition ≠ "goto") (named : Lexeme.isIdentifier place.toList = true) :
      Spelled (.branch condition place none none)
  | relation {left op right place : String} (first : Lexeme.isValue left.toList = true)
      (noKeyword : left ≠ "goto") (operator : Lexeme.isOperator op.toList = true)
      (second : Lexeme.isValue right.toList = true) (noKeyword' : right ≠ "goto")
      (named : Lexeme.isIdentifier place.toList = true) :
      Spelled (.branch left place (some right) (some op))
  | copy {target value : String} (named : Lexeme.isTarget target.toList = true)
      (read : Lexeme.isValue value.toList = true) (noKeyword : value ≠ "call") :
      Spelled (.assign target (some value) none none)
  | unary {target op operand : String} (named : Lexeme.isTarget target.toList = true)
      (operator : op = "-" ∨ op = "!") (read : Lexeme.isIdentifier operand.toList = true) :
      Spelled (.assign target (some operand) (some op) none)
  | binary {target left op right : String} (named : Lexeme.isTarget target.toList = true)
      (first : Lexeme.isValue left.toList = true) (noKeyword : left ≠ "call")
      (operator : Lexeme.isOperator op.toList = true) (second : Lexeme.isValue right.toList = true) :
      Spelled (.assign target (some left) (some op) (some right))
  | arrayLoad {target array index : String} (named : Lexeme.isTarget target.toList = true)
      (indexed : Lexeme.isIdentifier array.toList = true) (place : Lexeme.isValue index.toList = true) :
      Spelled (.arrayLoad target array index)
  | arrayStore {array index value : String} (indexed : Lexeme.isIdentifier array.toList = true)
      (place : Lexeme.isValue index.toList = true) (stored : Lexeme.isValue value.toList = true) :
      Spelled (.arrayStore array index value)
  | zeroFill {array start stop : String} (indexed : Lexeme.isIdentifier array.toList = true)
      (first : Lexeme.isValue start.toList = true) (second : Lexeme.isValue stop.toList = true) :
      Spelled (.zeroFill array start stop)
  | param {operand : String} (passed : Lexeme.isValue operand.toList = true) : Spelled (.param operand)
  | call {function : String} {count : Option Int} {target : Option String}
      (called : Lexeme.isIdentifier function.toList = true) (counted : ∀ n ∈ count, 0 ≤ n)
      (named : ∀ name ∈ target, Lexeme.isTarget name.toList = true) :
      Spelled (.call function count target none)
  | ret {value : Option String} (returned : ∀ operand ∈ value, Lexeme.isValue operand.toList = true) :
      Spelled (.ret value)
  | print {value : String} (printed : Lexeme.isValue value.toList = true) : Spelled (.print value)
  | read {target : String} (named : Lexeme.isIdentifier target.toList = true) : Spelled (.read target)

/-- What is read from the line of a statement: the statement, unless its number is too long. -/
def reread (s : Stmt) : Reading :=
  match s.numeral? with
  | none => .ok s
  | some n => if Text.isWritable n then .ok s else .error (.read (Nat.toDigits 10 n.natAbs).length)

theorem map_readNat_toDigits (make : Nat → Stmt) (n : Nat) :
    (Text.readNat (Nat.toDigits 10 n)).map make =
      if Text.isWritable n then .ok (make n) else .error (.read (Nat.toDigits 10 n).length) := by
  rw [Text.readNat_toDigits]
  split <;> rfl

/-! ### Declarations -/

theorem takeSome_append {inClass : Char → Bool} {front rest : List Char} {c : Char} (nonempty : front ≠ [])
    (inside : ∀ d ∈ front, inClass d = true) (stop : inClass c = false) :
    takeSome inClass (front ++ c :: rest) = some (front, c :: rest) := by
  obtain ⟨first, more, rfl⟩ := List.exists_cons_of_ne_nil nonempty
  have taken : (first :: more ++ c :: rest).takeWhile inClass = first :: more := by
    rw [List.takeWhile_append_of_pos inside, List.takeWhile_cons_of_neg (by simp [stop]), List.append_nil]
  have left : (first :: more ++ c :: rest).dropWhile inClass = c :: rest := by
    rw [List.dropWhile_append_of_pos inside, List.dropWhile_cons_of_neg (by simp [stop])]
  rw [takeSome, taken, left]

theorem dropBlanks_append {w : List Char} (word : Text.OneWord w) (rest : List Char) :
    dropBlanks (' ' :: (w ++ rest)) = some (w ++ rest) :=
  congrArg some (word.stripStart_append rest)

theorem wordOnly?_eq {cs : List Char} (word : Lexeme.isWord cs = true) :
    wordOnly? cs = some (String.ofList cs) :=
  if_pos word

theorem readDeclare_append {name typeName : List Char} (named : Lexeme.isIdentifier name = true)
    (typed : Lexeme.isWord typeName = true) {isGlobal : Bool}
    (opening : dropDeclare line = some (isGlobal, ' ' :: (name ++ ':' :: typeName))) :
    readDeclare line = some (.declare (String.ofList name) (some (String.ofList typeName)) isGlobal) := by
  have token := Lexeme.token_of_isIdentifier named
  have inside : ∀ c ∈ name, (c != ':' && !Text.isBlank c) = true := by
    intro c member
    have noColon : c ≠ ':' := token.ne_of_mem member (by decide)
    simp [noColon, token.oneWord.solid c member]
  have colon : dropMark ':' (':' :: typeName) = some typeName :=
    congrArg some (by simpa using (Lexeme.token_of_isWord typed).oneWord.stripStart_append [])
  rw [readDeclare, opening]
  simp only [Option.bind_eq_bind, Option.bind_some, dropBlanks_append token.oneWord,
    takeSome_append token.nonempty inside (show (':' != ':' && !Text.isBlank ':') = false from rfl), colon,
    wordOnly?_eq typed, Option.pure_def]

theorem ofLine_declare {name typeName : String} (isGlobal : Bool)
    (named : Lexeme.isIdentifier name.toList = true) (typed : Lexeme.isWord typeName.toList = true) :
    ofLine (text (.declare name (some typeName) isGlobal)) =
      .ok (.declare name (some typeName) isGlobal) := by
  have opening : dropDeclare (text (.declare name (some typeName) isGlobal)).toList =
      some (isGlobal, ' ' :: (name.toList ++ ':' :: typeName.toList)) := by
    show dropDeclare (declareKeyword isGlobal ++ " " ++ name ++ ":" ++ typeName).toList = _
    cases isGlobal <;> simp [declareKeyword, dropDeclare, dropKeyword]
  -- Here a blank follows where the keyword of an array declaration goes on.
  have noArray : readDeclareArray (text (.declare name (some typeName) isGlobal)).toList = none := by
    rw [readDeclareArray, opening]
    rfl
  apply ofChars_of_readPlain noArray
  rw [readPlain, readDeclare_append named typed opening, String.ofList_toList, String.ofList_toList]
  rfl

theorem readDeclareArray_append {name typeName : List Char} (named : Lexeme.isWord name = true)
    (typed : Lexeme.isWord typeName = true) {isGlobal : Bool} (length : Nat)
    (opening : dropDeclare line = some (isGlobal,
      "_arr".toList ++ ' ' :: (name ++ '[' :: (Nat.toDigits 10 length ++ ']' :: ' ' :: typeName)))) :
    readDeclareArray line = some ((Text.readNat (Nat.toDigits 10 length)).map fun n =>
      .declareArray (String.ofList name) n (some (String.ofList typeName)) isGlobal) := by
  have word := Lexeme.token_of_isWord named
  have numeral := Text.isNumeral_toDigits length
  simp only [Lexeme.isNumeral, Bool.and_eq_true, List.all_eq_true] at numeral
  have digits : Text.OneWord (Nat.toDigits 10 length) :=
    (Lexeme.token_of_isInteger (Text.isInteger_toDigits length)).oneWord
  have chars : ∀ c ∈ name, Text.isWordChar c = true := by
    simp only [Lexeme.isWord, Bool.and_eq_true, List.all_eq_true] at named
    exact named.2
  have keyword : ∀ rest, dropKeyword "_arr".toList ("_arr".toList ++ rest) = some rest := fun _ => rfl
  have bracket : ∀ rest, dropMark '[' ('[' :: (Nat.toDigits 10 length ++ rest)) =
      some (Nat.toDigits 10 length ++ rest) :=
    fun rest => congrArg some (digits.stripStart_append rest)
  have closing : ∀ rest, dropBracket (']' :: rest) = some rest := fun _ => rfl
  have last : dropBlanks (' ' :: typeName) = some typeName := by
    simpa using dropBlanks_append (Lexeme.token_of_isWord typed).oneWord []
  rw [readDeclareArray, opening]
  simp only [Option.bind_eq_bind, Option.bind_some, keyword, dropBlanks_append word.oneWord,
    takeSome_append word.nonempty chars (show Text.isWordChar '[' = false by decide +kernel), bracket,
    takeSome_append digits.nonempty numeral.2 (show Text.isDecimal ']' = false from rfl), closing, last,
    wordOnly?_eq typed, Option.pure_def]
  cases Text.readNat (Nat.toDigits 10 length) <;> rfl

theorem ofLine_declareArray {name typeName : String} {length : Int} (isGlobal : Bool)
    (named : Lexeme.isWord name.toList = true) (sized : 0 ≤ length)
    (typed : Lexeme.isWord typeName.toList = true) :
    ofLine (text (.declareArray name length (some typeName) isGlobal)) =
      reread (.declareArray name length (some typeName) isGlobal) := by
  obtain ⟨n, rfl⟩ := Int.eq_ofNat_of_zero_le sized
  have opening : dropDeclare (text (.declareArray name n (some typeName) isGlobal)).toList =
      some (isGlobal, "_arr".toList ++ ' ' ::
        (name.toList ++ '[' :: (Nat.toDigits 10 n ++ ']' :: ' ' :: typeName.toList))) := by
    show dropDeclare (declareArrayKeyword isGlobal ++ " " ++ name ++ "[" ++ toString (n : Int) ++ "] " ++
      typeName).toList = _
    rw [← Text.toList_toString]
    cases isGlobal <;> simp [declareArrayKeyword, declareKeyword, dropDeclare, dropKeyword]
  rw [ofLine, ofChars, readDeclareArray_append named typed n opening, String.ofList_toList,
    String.ofList_toList, map_readNat_toDigits]
  rfl

/-! ### Labels, remarks and jumps -/

theorem ofLine_label {name : String} (named : Lexeme.isIdentifier name.toList = true) :
    ofLine (text (.label name)) = .ok (.label name) := by
  have token := Lexeme.token_of_isIdentifier named
  have shape : (text (.label name)).toList = name.toList ++ [':'] := String.toList_append
  -- A label is a single word, and a declaration goes on behind its first one.
  have behind : (name.toList ++ [':']).dropWhile (!Text.isBlank ·) = [] := by
    rw [List.dropWhile_append_of_pos fun c member => by simp [token.oneWord.solid c member]]
    rfl
  have noArray : readDeclareArray (name.toList ++ [':']) = none :=
    readDeclareArray_eq_none fun _ _ _ _ split => by
      rw [behind] at split
      cases split
  have noScalar : readDeclare (name.toList ++ [':']) = none :=
    readDeclare_eq_none (by simp [behind])
  have noRemark : beginsRemark (name.toList ++ [':']) = false := by
    obtain ⟨c, rest, same⟩ := List.exists_cons_of_ne_nil token.nonempty
    have first : c ∈ name.toList := same ▸ List.mem_cons_self
    rw [same, List.cons_append]
    exact beginsRemark_eq_false (token.ne_of_mem first (by decide)) (token.ne_of_mem first (by decide))
  have isLabel : readLabel (name.toList ++ [':']) = some (.label name) := by
    rw [readLabel, noRemark, List.getLast?_concat, List.dropLast_concat, token.oneWord.strip_eq,
      String.ofList_toList]
    rfl
  rw [ofLine, shape]
  apply ofChars_of_readPlain noArray
  rw [readPlain, noScalar, isLabel]
  rfl

theorem ofLine_comment {remark : String} (stripped : Text.stripped remark = remark) :
    ofLine (text (.comment remark)) = .ok (.comment remark) := by
  have shape : (text (.comment remark)).toList = '#' :: ' ' :: remark.toList := String.toList_append
  have noLabel : readLabel ('#' :: ' ' :: remark.toList) = none := by
    simp [readLabel, beginsRemark]
  have isRemark : readComment ('#' :: ' ' :: remark.toList) = some (.comment remark) := by
    rw [readComment, Text.strip_cons_of_isBlank rfl]
    exact congrArg (some ∘ Stmt.comment) stripped
  rw [ofLine, shape]
  apply ofChars_of_readPlain rfl
  rw [readPlain, noLabel, isRemark]
  rfl

theorem ofLine_goto {place : String} (named : Lexeme.isIdentifier place.toList = true) :
    ofLine (text (.goto place)) = .ok (.goto place) := by
  have token := Lexeme.token_of_isIdentifier named
  have shape : (text (.goto place)).toList = "goto".toList ++ ' ' :: ([] ++ place.toList) :=
    String.toList_append
  have passed : Passed ("goto".toList ++ ' ' :: ([] ++ place.toList)) :=
    .of_keyword (by decide) token.nonempty token.colonless
  have jump : readGoto ("goto".toList ++ ' ' :: ([] ++ place.toList)) = some (.goto place) := by
    rw [readGoto, (oneWord_of_keyword (by decide)).cutWord_append, List.nil_append, token.oneWord.strip_eq]
    simp [token.oneWord.isOneWord_eq]
  rw [ofLine, shape]
  apply ofChars_of_readPlain passed.array
  rw [passed.readPlain_eq, jump]
  rfl

theorem readBranch_append {rest place : List Char} {condition : List (List Char)} (nonempty : condition ≠ [])
    (tokens : Text.words (Text.strip rest) = condition ++ ["goto".toList, place])
    (noKeyword : "goto".toList ∉ condition) :
    readBranch ("if".toList ++ ' ' :: rest) = some (readCondition condition place) := by
  have before : ∀ word ∈ condition, (word != "goto".toList) = true := by
    intro word member
    exact bne_iff_ne.mpr fun same => noKeyword (same ▸ member)
  have taken : (condition ++ ["goto".toList, place]).takeWhile (· != "goto".toList) = condition := by
    rw [List.takeWhile_append_of_pos before]
    exact List.append_nil condition
  have left : (condition ++ ["goto".toList, place]).dropWhile (· != "goto".toList) =
      ["goto".toList, place] := by
    rw [List.dropWhile_append_of_pos before]
    rfl
  rw [readBranch, (oneWord_of_keyword (by decide)).cutWord_append]
  simp only [tokens, taken, left, bne_self_eq_false, List.isEmpty_eq_false_iff.mpr nonempty]
  rfl

theorem ofChars_branch {middle place : List Char} (token : Token place)
    (read : readBranch ("if".toList ++ ' ' :: (middle ++ place)) = some s) :
    ofChars ("if".toList ++ ' ' :: (middle ++ place)) = .ok s := by
  have passed : Passed ("if".toList ++ ' ' :: (middle ++ place)) :=
    .of_keyword (by decide) token.nonempty token.colonless
  apply ofChars_of_readPlain passed.array
  rw [passed.readPlain_eq, readGoto_eq_none (oneWord_of_keyword (by decide)) (by decide), read]
  rfl

theorem ofLine_test {condition place : String} (value : Lexeme.isValue condition.toList = true)
    (noKeyword : condition ≠ "goto") (named : Lexeme.isIdentifier place.toList = true) :
    ofLine (text (.branch condition place none none)) = .ok (.branch condition place none none) := by
  have tested := (Lexeme.token_of_isValue value).oneWord
  have token := Lexeme.token_of_isIdentifier named
  have shape : (text (.branch condition place none none)).toList =
      "if".toList ++ ' ' :: ((condition.toList ++ ' ' :: ("goto".toList ++ [' '])) ++ place.toList) := by
    show ("if " ++ condition ++ " goto " ++ place).toList = _
    simp
  have whole : Text.strip ((condition.toList ++ ' ' :: ("goto".toList ++ [' '])) ++ place.toList) =
      condition.toList ++ ' ' :: ("goto".toList ++ ' ' :: place.toList) := by
    simpa using tested.strip_between token.oneWord (' ' :: ("goto".toList ++ [' ']))
  have keyword : Text.OneWord "goto".toList := oneWord_of_keyword (by decide)
  have tokens := tested.words_append ("goto".toList ++ ' ' :: place.toList)
  rw [keyword.words_append, token.oneWord.words_eq, ← whole] at tokens
  have other : "goto".toList ∉ [condition.toList] := by
    simpa only [List.mem_singleton, String.toList_inj] using noKeyword.symm
  rw [ofLine, shape]
  apply ofChars_branch token
  rw [readBranch_append (List.cons_ne_nil _ _) tokens other]
  simp [readCondition, relation?]

theorem given_of_nonempty {operand : String} (nonempty : operand.toList ≠ []) :
    given (some operand) = some operand := by
  unfold given
  split
  next same =>
    cases same
    exact absurd rfl nonempty
  next => rfl

theorem ofLine_relation {left op right place : String} (first : Lexeme.isValue left.toList = true)
    (noKeyword : left ≠ "goto") (operator : Lexeme.isOperator op.toList = true)
    (second : Lexeme.isValue right.toList = true) (noKeyword' : right ≠ "goto")
    (named : Lexeme.isIdentifier place.toList = true) :
    ofLine (text (.branch left place (some right) (some op))) =
      .ok (.branch left place (some right) (some op)) := by
  have leftWord := (Lexeme.token_of_isValue first).oneWord
  have opWord := Lexeme.oneWord_of_isOperator operator
  have rightWord := (Lexeme.token_of_isValue second).oneWord
  have token := Lexeme.token_of_isIdentifier named
  have shape : (text (.branch left place (some right) (some op))).toList = "if".toList ++ ' ' ::
      ((left.toList ++ ' ' :: (op.toList ++ ' ' :: (right.toList ++ ' ' :: ("goto".toList ++ [' '])))) ++
        place.toList) := by
    show ("if " ++ conditionText left (some right) (some op) ++ " goto " ++ place).toList = _
    simp [conditionText, given_of_nonempty opWord.nonempty, given_of_nonempty rightWord.nonempty]
  have whole : Text.strip ((left.toList ++ ' ' :: (op.toList ++ ' ' :: (right.toList ++ ' ' ::
        ("goto".toList ++ [' '])))) ++ place.toList) =
      left.toList ++ ' ' :: (op.toList ++ ' ' :: (right.toList ++ ' ' ::
        ("goto".toList ++ ' ' :: place.toList))) := by
    simpa using leftWord.strip_between token.oneWord
      (' ' :: (op.toList ++ ' ' :: (right.toList ++ ' ' :: ("goto".toList ++ [' ']))))
  have keyword : Text.OneWord "goto".toList := oneWord_of_keyword (by decide)
  have tokens := leftWord.words_append
    (op.toList ++ ' ' :: (right.toList ++ ' ' :: ("goto".toList ++ ' ' :: place.toList)))
  rw [opWord.words_append, rightWord.words_append, keyword.words_append, token.oneWord.words_eq,
    ← whole] at tokens
  have opOther : op ≠ "goto" := by
    rintro rfl
    cases operator
  have other : "goto".toList ∉ [left.toList, op.toList, right.toList] := by
    simpa only [List.mem_cons, List.not_mem_nil, or_false, not_or, String.toList_inj] using
      ⟨noKeyword.symm, opOther.symm, noKeyword'.symm⟩
  rw [ofLine, shape]
  apply ofChars_branch token
  rw [readBranch_append (List.cons_ne_nil _ _) tokens other]
  simp [readCondition, relation?, operator]

/-! ### Assignments -/

theorem readAssignment_append {t value : List Char} (word : Text.OneWord t)
    (plain : ∀ c ∈ t, c ≠ '=' ∧ c ≠ '\'' ∧ c ≠ '"') (nonempty : value ≠ []) (whole : Text.strip value = value)
    (anyTarget : Bool) :
    readAssignment anyTarget (t ++ ' ' :: '=' :: ' ' :: value) =
      if !anyTarget && !Lexeme.isIdentifier t then none
      else some (if (Text.cutWord value).1 == "call".toList then
          readCall (t ++ ' ' :: '=' :: ' ' :: value) (Text.cutWord value).2 (some (String.ofList t))
        else .ok (readValue (String.ofList t) value)) := by
  have front : (t ++ ' ' :: '=' :: ' ' :: value).take (t.length + 1) = t ++ [' '] := by
    rw [List.take_length_add_append]
    rfl
  have back : (t ++ ' ' :: '=' :: ' ' :: value).drop (t.length + 1 + 1) = ' ' :: value := by
    rw [Nat.add_assoc, List.drop_length_add_append]
    rfl
  have assigned : Text.strip (' ' :: value) = value := by
    rw [Text.strip_cons_of_isBlank rfl, whole]
  rw [readAssignment, Lexeme.findAssignment_append plain]
  simp only [front, back, word.strip_append_blank, assigned, List.isEmpty_eq_false_iff.mpr nonempty,
    Bool.false_eq_true, if_false]
  split
  · rfl
  · split <;> rfl

theorem readAssignment_value {t value : List Char} (name : Lexeme.isIdentifier t = true) (nonempty : value ≠ [])
    (whole : Text.strip value = value) (noCall : (Text.cutWord value).1 ≠ "call".toList) :
    readAssignment false (t ++ ' ' :: '=' :: ' ' :: value) = some (.ok (readValue (String.ofList t) value)) := by
  have token := Lexeme.token_of_isIdentifier name
  rw [readAssignment_append token.oneWord token.plain nonempty whole, if_neg (by simp [name]),
    if_neg (by simpa using noCall)]

/-- An assignment of a value that is no call. -/
theorem ofChars_value {t value : List Char} (target : Lexeme.isTarget t = true) (nonempty : value ≠ [])
    (colonless : ':' ∉ value) (whole : Text.strip value = value)
    (noCall : (Text.cutWord value).1 ≠ "call".toList) :
    ofChars (t ++ ' ' :: '=' :: ' ' :: value) = .ok (readValue (String.ofList t) value) :=
  ofChars_assignment target nonempty colonless
    (readAssignment_value (Lexeme.isIdentifier_of_isTarget target) nonempty whole noCall)

theorem not_literal_of_unquoted {value : List Char} (noDouble : '"' ∉ value) (noQuote : '\'' ∉ value) :
    (Lexeme.isQuoted value || Lexeme.isCharLiteral value) = false := by
  have notQuoted : Lexeme.isQuoted value = false := by
    unfold Lexeme.isQuoted
    split
    · exact absurd List.mem_cons_self noDouble
    · rfl
  have notChar : Lexeme.isCharLiteral value = false := by
    unfold Lexeme.isCharLiteral Lexeme.charLiteral?
    split
    next a c b =>
      have other : a ≠ '\'' := by
        rintro rfl
        exact noQuote List.mem_cons_self
      simp [other]
    next => rfl
  rw [notQuoted, notChar]
  rfl

theorem readBinary_of_oneWord {value : List Char} (word : Text.OneWord value) (target : String) :
    readBinary target value = none := by
  rw [readBinary, word.words_eq]

theorem readElement_eq_none {value : List Char} (bracketless : '[' ∉ value) (target : String) :
    readElement target value = none := by
  have none : value.dropWhile (· != '[') = [] := by
    refine List.dropWhile_eq_nil_iff.mpr fun c member => bne_iff_ne.mpr ?_
    rintro rfl
    exact bracketless member
  simp only [readElement, none]

/-- One word without quotes and brackets is a copy, unless it begins like a unary operator. -/
theorem readValue_of_oneWord {value : List Char} (word : Text.OneWord value) (noDouble : '"' ∉ value)
    (noQuote : '\'' ∉ value) (bracketless : '[' ∉ value) (target : String) :
    readValue target value = if Lexeme.isInteger value || Lexeme.isFloat value then copy target value
      else (readUnary target value).getD (copy target value) := by
  rw [readValue, not_literal_of_unquoted noDouble noQuote, readBinary_of_oneWord word,
    readElement_eq_none bracketless]
  rfl

theorem readUnary_eq_none {name : List Char} (named : Lexeme.isIdentifier name = true) (target : String) :
    readUnary target name = none := by
  have token := Lexeme.token_of_isIdentifier named
  obtain ⟨c, rest, rfl, letter⟩ := Lexeme.exists_letter named
  have notMinus := (Text.letter_spec letter).2.2.1
  have notBang : c ≠ '!' := token.ne_of_mem List.mem_cons_self (by decide)
  cases rest with
  | nil => rfl
  | cons d rest => simp [readUnary, notMinus, notBang]

theorem ofLine_copy {target value : String} (named : Lexeme.isTarget target.toList = true)
    (read : Lexeme.isValue value.toList = true) (noKeyword : value ≠ "call") :
    ofLine (text (.assign target (some value) none none)) = .ok (.assign target (some value) none none) := by
  have token := Lexeme.token_of_isValue read
  have shape : (text (.assign target (some value) none none)).toList =
      target.toList ++ ' ' :: '=' :: ' ' :: value.toList := by
    show (target ++ " = " ++ value).toList = _
    simp
  have noCall : (Text.cutWord value.toList).1 ≠ "call".toList := by
    rw [token.oneWord.cutWord_eq]
    exact mt String.toList_inj.mp noKeyword
  have copied : readValue (String.ofList target.toList) value.toList = copy target value.toList := by
    rw [readValue_of_oneWord token.oneWord token.unquoted.1 token.unquoted.2 token.bracketless,
      String.ofList_toList]
    -- A name has no sign in front, and an integer is taken as a whole before its sign is looked at.
    rcases Bool.or_eq_true_iff.mp read with name | integer
    · rw [readUnary_eq_none name]
      exact ite_self _
    · rw [integer]
      rfl
  rw [ofLine, shape, ofChars_value named token.nonempty token.colonless token.oneWord.strip_eq noCall,
    copied, copy, String.ofList_toList]

/-- A sign before a name makes no number. -/
theorem not_number_of_sign {op : Char} {name : List Char} (operator : op = '-' ∨ op = '!')
    (named : Lexeme.isIdentifier name = true) :
    Lexeme.isInteger (op :: name) = false ∧ Lexeme.isFloat (op :: name) = false := by
  obtain ⟨c, rest, rfl, letter⟩ := Lexeme.exists_letter named
  obtain ⟨notDecimal, _, _, _, _, notPoint⟩ := Text.letter_spec letter
  -- What the digits of a number are looked for in begins with a character that is neither digit nor point.
  have body : ∃ d more, Lexeme.dropMinus (op :: c :: rest) = d :: more ∧ Text.isDecimal d = false ∧
      d ≠ '.' := by
    rcases operator with rfl | rfl
    · exact ⟨c, rest, rfl, notDecimal, notPoint⟩
    · exact ⟨'!', c :: rest, rfl, rfl, by decide⟩
  obtain ⟨d, more, same, noDigit, noPoint⟩ := body
  refine ⟨by simp [Lexeme.isInteger, same, Lexeme.isNumeral, noDigit], ?_⟩
  simp only [Lexeme.isFloat, same, List.dropWhile_cons, noDigit, Bool.false_eq_true, if_false]
  split
  next point => exact absurd (List.cons.inj point).1 noPoint
  next => rfl

theorem readUnary_append {op : Char} {name : List Char} (operator : op = '-' ∨ op = '!')
    (named : Lexeme.isIdentifier name = true) (target : String) :
    readUnary target (op :: name) =
      some (.assign target (some (String.ofList name)) (some (String.ofList [op])) none) := by
  have token := Lexeme.token_of_isIdentifier named
  obtain ⟨c, rest, rfl⟩ := List.exists_cons_of_ne_nil token.nonempty
  have notSign : c ≠ '=' := token.ne_of_mem List.mem_cons_self (by decide)
  have sign : (op == '-' || op == '!') = true := by simpa using operator
  rw [readUnary, sign, bne_iff_ne.mpr notSign, token.oneWord.isOneWord_eq, token.oneWord.strip_eq]
  rfl

theorem ofLine_unary {target op operand : String} (named : Lexeme.isTarget target.toList = true)
    (operator : op = "-" ∨ op = "!") (read : Lexeme.isIdentifier operand.toList = true) :
    ofLine (text (.assign target (some operand) (some op) none)) =
      .ok (.assign target (some operand) (some op) none) := by
  have token := Lexeme.token_of_isIdentifier read
  obtain ⟨sign, rfl, isSign⟩ : ∃ sign, op = String.ofList [sign] ∧ (sign = '-' ∨ sign = '!') := by
    rcases operator with rfl | rfl
    · exact ⟨'-', rfl, .inl rfl⟩
    · exact ⟨'!', rfl, .inr rfl⟩
  have shape : (text (.assign target (some operand) (some (String.ofList [sign])) none)).toList =
      target.toList ++ ' ' :: '=' :: ' ' :: (sign :: operand.toList) := by
    show (target ++ " = " ++ (String.ofList [sign] ++ operand)).toList = _
    simp
  have others : ∀ mark ∈ [':', '"', '\'', '['], mark ∉ sign :: operand.toList := by
    intro mark isMark
    have isOther : mark ∈ Lexeme.marks ∧ mark ≠ '-' ∧ mark ≠ '!' := by
      simp only [List.mem_cons, List.not_mem_nil, or_false] at isMark
      rcases isMark with rfl | rfl | rfl | rfl <;> decide
    have notSign : mark ≠ sign := by
      rcases isSign with rfl | rfl
      · exact isOther.2.1
      · exact isOther.2.2
    simp [notSign, token.not_mem isOther.1]
  have word : Text.OneWord (sign :: operand.toList) := by
    refine ⟨by simp, fun c member => ?_⟩
    rcases List.mem_cons.mp member with rfl | later
    · rcases isSign with rfl | rfl <;> rfl
    · exact token.oneWord.solid c later
  have noCall : (Text.cutWord (sign :: operand.toList)).1 ≠ "call".toList := by
    rw [word.cutWord_eq]
    rcases isSign with rfl | rfl <;> simp
  obtain ⟨notInteger, notFloat⟩ := not_number_of_sign isSign read
  have value : readValue (String.ofList target.toList) (sign :: operand.toList) =
      .assign target (some operand) (some (String.ofList [sign])) none := by
    rw [readValue_of_oneWord word (others _ (by decide)) (others _ (by decide)) (others _ (by decide)),
      notInteger, notFloat, readUnary_append isSign read, String.ofList_toList, String.ofList_toList]
    rfl
  rw [ofLine, shape, ofChars_value named word.nonempty (others _ (by decide)) word.strip_eq noCall, value]

theorem ofLine_binary {target left op right : String} (named : Lexeme.isTarget target.toList = true)
    (first : Lexeme.isValue left.toList = true) (noKeyword : left ≠ "call")
    (operator : Lexeme.isOperator op.toList = true) (second : Lexeme.isValue right.toList = true) :
    ofLine (text (.assign target (some left) (some op) (some right))) =
      .ok (.assign target (some left) (some op) (some right)) := by
  have leftToken := Lexeme.token_of_isValue first
  have opWord := Lexeme.oneWord_of_isOperator operator
  have rightToken := Lexeme.token_of_isValue second
  have shape : (text (.assign target (some left) (some op) (some right))).toList =
      target.toList ++ ' ' :: '=' :: ' ' :: (left.toList ++ ' ' :: (op.toList ++ ' ' :: right.toList)) := by
    show (target ++ " = " ++ (left ++ " " ++ op ++ " " ++ right)).toList = _
    simp
  have others : ∀ mark ∈ [':', '"', '\''],
      mark ∉ left.toList ++ ' ' :: (op.toList ++ ' ' :: right.toList) := by
    intro mark isMark
    have isOther : mark ∈ Lexeme.marks ∧ mark ∉ Lexeme.operatorChars ∧ mark ≠ ' ' := by
      simp only [List.mem_cons, List.not_mem_nil, or_false] at isMark
      rcases isMark with rfl | rfl | rfl <;> decide
    simp [leftToken.not_mem isOther.1, Lexeme.not_mem_of_isOperator operator isOther.2.1, isOther.2.2,
      rightToken.not_mem isOther.1]
  have whole : Text.strip (left.toList ++ ' ' :: (op.toList ++ ' ' :: right.toList)) =
      left.toList ++ ' ' :: (op.toList ++ ' ' :: right.toList) := by
    simpa using leftToken.oneWord.strip_between rightToken.oneWord (' ' :: (op.toList ++ [' ']))
  have noCall : (Text.cutWord (left.toList ++ ' ' :: (op.toList ++ ' ' :: right.toList))).1 ≠
      "call".toList := by
    rw [leftToken.oneWord.cutWord_append]
    exact mt String.toList_inj.mp noKeyword
  have value : readValue (String.ofList target.toList)
      (left.toList ++ ' ' :: (op.toList ++ ' ' :: right.toList)) =
      .assign target (some left) (some op) (some right) := by
    have tokens := leftToken.oneWord.words_append (op.toList ++ ' ' :: right.toList)
    rw [opWord.words_append, rightToken.oneWord.words_eq] at tokens
    rw [readValue, not_literal_of_unquoted (others _ (by decide)) (others _ (by decide)), readBinary, tokens]
    simp [operator, Lexeme.not_isOperator_of_isValue first]
  rw [ofLine, shape, ofChars_value named (by simp) (others _ (by decide)) whole noCall, value]

theorem takeWhile_element {array index : List Char} (arrayToken : Token array) :
    (array ++ '[' :: (index ++ [']'])).takeWhile (· != '[') = array := by
  have inside : ∀ c ∈ array, (c != '[') = true := fun c member =>
    bne_iff_ne.mpr (arrayToken.ne_of_mem member (by decide))
  rw [List.takeWhile_append_of_pos inside]
  exact List.append_nil array

theorem dropWhile_element {array index : List Char} (arrayToken : Token array) :
    (array ++ '[' :: (index ++ [']'])).dropWhile (· != '[') = '[' :: (index ++ [']']) := by
  have inside : ∀ c ∈ array, (c != '[') = true := fun c member =>
    bne_iff_ne.mpr (arrayToken.ne_of_mem member (by decide))
  rw [List.dropWhile_append_of_pos inside]
  rfl

theorem readElement_append {array index : List Char} (indexed : Lexeme.isIdentifier array = true)
    (place : Token index) (target : String) :
    readElement target (array ++ '[' :: (index ++ [']'])) =
      some (.arrayLoad target (String.ofList array) (String.ofList index)) := by
  have arrayToken := Lexeme.token_of_isIdentifier indexed
  have oneLine : index.contains '\n' = false := by
    by_contra broken
    have member : '\n' ∈ index := by simpa using broken
    cases place.oneWord.solid '\n' member
  simp only [readElement, takeWhile_element arrayToken, dropWhile_element arrayToken, indexed,
    List.getLast?_concat, List.dropLast_concat, place.oneWord.filled, oneLine, place.oneWord.strip_eq]
  rfl

section

variable {array index : List Char} (arrayToken : Token array) (indexToken : Token index)

include arrayToken indexToken

/-- An element is a single word. -/
theorem oneWord_element : Text.OneWord (array ++ '[' :: (index ++ [']'])) := by
  refine ⟨by simp, fun c member => ?_⟩
  simp only [List.mem_append, List.mem_cons, List.not_mem_nil, or_false] at member
  rcases member with inArray | rfl | inIndex | rfl
  · exact arrayToken.oneWord.solid c inArray
  · rfl
  · exact indexToken.oneWord.solid c inIndex
  · rfl

theorem not_mem_element {mark : Char} (isMark : mark ∈ [':', '=', '"', '\'']) :
    mark ∉ array ++ '[' :: (index ++ [']']) := by
  have isOther : mark ∈ Lexeme.marks ∧ mark ≠ '[' ∧ mark ≠ ']' := by
    simp only [List.mem_cons, List.not_mem_nil, or_false] at isMark
    rcases isMark with rfl | rfl | rfl | rfl <;> decide
  simp [arrayToken.not_mem isOther.1, isOther.2, indexToken.not_mem isOther.1]

end

/-- No keyword has a bracket. -/
theorem element_ne_of_bracketless {array index word : List Char} (bracketless : '[' ∉ word) :
    array ++ '[' :: (index ++ [']']) ≠ word := by
  rintro rfl
  exact bracketless (by simp)

theorem ofLine_arrayLoad {target array index : String} (named : Lexeme.isTarget target.toList = true)
    (indexed : Lexeme.isIdentifier array.toList = true) (place : Lexeme.isValue index.toList = true) :
    ofLine (text (.arrayLoad target array index)) = .ok (.arrayLoad target array index) := by
  have arrayToken := Lexeme.token_of_isIdentifier indexed
  have indexToken := Lexeme.token_of_isValue place
  have shape : (text (.arrayLoad target array index)).toList =
      target.toList ++ ' ' :: '=' :: ' ' :: (array.toList ++ '[' :: (index.toList ++ [']'])) := by
    show (target ++ " = " ++ array ++ "[" ++ index ++ "]").toList = _
    simp
  have others : ∀ mark ∈ [':', '=', '"', '\''], mark ∉ array.toList ++ '[' :: (index.toList ++ [']']) :=
    fun _ isMark => not_mem_element arrayToken indexToken isMark
  have word := oneWord_element arrayToken indexToken
  have noCall : (Text.cutWord (array.toList ++ '[' :: (index.toList ++ [']']))).1 ≠ "call".toList := by
    rw [word.cutWord_eq]
    exact element_ne_of_bracketless (by decide)
  have value : readValue (String.ofList target.toList) (array.toList ++ '[' :: (index.toList ++ [']'])) =
      .arrayLoad target array index := by
    rw [readValue, not_literal_of_unquoted (others _ (by decide)) (others _ (by decide)),
      readBinary_of_oneWord word, readElement_append indexed indexToken, String.ofList_toList,
      String.ofList_toList, String.ofList_toList]
    rfl
  rw [ofLine, shape, ofChars_value named word.nonempty (others _ (by decide)) word.strip_eq noCall, value]

/-! ### Statements with a keyword -/

theorem ofChars_of_readKeyword {verb : String} (known : verb ∈ verbs) {middle last : List Char}
    (ends : Token last) (signless : '=' ∉ middle) (shape : line = verb.toList ++ ' ' :: (middle ++ last))
    (read : Text.cutWord line = (verb.toList, Text.strip (middle ++ last)) → readKeyword line = some s) :
    ofChars line = .ok s := by
  rw [ofChars_verb known ends signless shape, read (shape ▸ cutWord_verb known _)]
  rfl

/-- One operand behind a verb. -/
theorem ofChars_operand {verb : String} (known : verb ∈ verbs) {operand : List Char} (token : Token operand)
    (shape : line = verb.toList ++ ' ' :: operand)
    (read : Text.cutWord line = (verb.toList, operand) → readKeyword line = some s) :
    ofChars line = .ok s := by
  refine ofChars_of_readKeyword known token List.not_mem_nil shape fun cut => read ?_
  rw [cut, List.nil_append, token.oneWord.strip_eq]

theorem ofLine_param {operand : String} (passed : Lexeme.isValue operand.toList = true) :
    ofLine (text (.param operand)) = .ok (.param operand) := by
  have token := Lexeme.token_of_isValue passed
  have shape : (text (.param operand)).toList = "param".toList ++ ' ' :: operand.toList := String.toList_append
  refine ofChars_operand (by decide) token shape fun cut => ?_
  rw [readKeyword, cut]
  simp only [String.ofList_toList, token.oneWord.filled]
  rfl

theorem ofLine_print {value : String} (printed : Lexeme.isValue value.toList = true) :
    ofLine (text (.print value)) = .ok (.print value) := by
  have token := Lexeme.token_of_isValue printed
  have shape : (text (.print value)).toList = "print".toList ++ ' ' :: value.toList := String.toList_append
  refine ofChars_operand (by decide) token shape fun cut => ?_
  rw [readKeyword, cut]
  simp only [String.ofList_toList, token.oneWord.filled]
  rfl

theorem ofLine_read {target : String} (named : Lexeme.isIdentifier target.toList = true) :
    ofLine (text (.read target)) = .ok (.read target) := by
  have token := Lexeme.token_of_isIdentifier named
  have shape : (text (.read target)).toList = "read".toList ++ ' ' :: target.toList := String.toList_append
  refine ofChars_operand (by decide) token shape fun cut => ?_
  rw [readKeyword, cut]
  simp only [String.ofList_toList, named]
  rfl

theorem ofLine_ret {value : Option String}
    (returned : ∀ operand ∈ value, Lexeme.isValue operand.toList = true) :
    ofLine (text (.ret value)) = .ok (.ret value) := by
  cases value with
  | none => rfl
  | some operand =>
    have token := Lexeme.token_of_isValue (returned operand rfl)
    have shape : (text (.ret (some operand))).toList = "return".toList ++ ' ' :: operand.toList := by
      unfold text
      dsimp only
      rw [given_of_nonempty token.nonempty]
      exact String.toList_append
    refine ofChars_operand (by decide) token shape fun cut => ?_
    rw [readKeyword, cut]
    simp only [String.ofList_toList, token.oneWord.filled]
    rfl

theorem cutComma_append {before : List Char} (commaless : ',' ∉ before) (rest : List Char) :
    cutComma (before ++ ',' :: rest) = (before, some rest) := by
  have inside : ∀ c ∈ before, (c != ',') = true := by
    intro c member
    refine bne_iff_ne.mpr ?_
    rintro rfl
    exact commaless member
  have front : (before ++ ',' :: rest).takeWhile (· != ',') = before := by
    rw [List.takeWhile_append_of_pos inside]
    exact List.append_nil before
  have back : (before ++ ',' :: rest).dropWhile (· != ',') = ',' :: rest := by
    rw [List.dropWhile_append_of_pos inside]
    rfl
  rw [cutComma, back, front]

theorem cutComma_eq {cs : List Char} (commaless : ',' ∉ cs) : cutComma cs = (cs, none) := by
  have none : cs.dropWhile (· != ',') = [] := by
    refine List.dropWhile_eq_nil_iff.mpr fun c member => bne_iff_ne.mpr ?_
    rintro rfl
    exact commaless member
  rw [cutComma, none]

theorem threeOperands?_append {a b c : List Char} (first : Token a) (second : Token b) (third : Token c) :
    threeOperands? (a ++ ',' :: ' ' :: (b ++ ',' :: ' ' :: c)) =
      some (String.ofList a, String.ofList b, String.ofList c) := by
  have blank : ∀ {cs : List Char}, Text.strip (' ' :: cs) = Text.strip cs := Text.strip_cons_of_isBlank rfl _
  have commaless : ',' ∉ ' ' :: b := by simpa using second.commaless
  have cut := cutComma_append commaless (' ' :: c)
  rw [List.cons_append] at cut
  simp only [threeOperands?, cutComma_append first.commaless, cut, blank, first.oneWord.strip_eq,
    second.oneWord.strip_eq, third.oneWord.strip_eq, first.oneWord.filled, second.oneWord.filled,
    third.oneWord.filled]
  rfl

/-- Three operands behind a verb. -/
theorem ofChars_operands {verb : String} (known : verb ∈ verbs) {a b c : List Char} (first : Token a)
    (second : Token b) (third : Token c)
    (shape : line = verb.toList ++ ' ' :: ((a ++ ',' :: ' ' :: (b ++ [',', ' '])) ++ c))
    (read : ∀ rest, Text.cutWord line = (verb.toList, rest) →
      threeOperands? rest = some (String.ofList a, String.ofList b, String.ofList c) →
        readKeyword line = some s) : ofChars line = .ok s := by
  have signless : '=' ∉ a ++ ',' :: ' ' :: (b ++ [',', ' ']) := by
    simp [first.signless, second.signless]
  have whole : Text.strip ((a ++ ',' :: ' ' :: (b ++ [',', ' '])) ++ c) =
      a ++ ',' :: ' ' :: (b ++ ',' :: ' ' :: c) := by
    simpa using first.oneWord.strip_between third.oneWord (',' :: ' ' :: (b ++ [',', ' ']))
  refine ofChars_of_readKeyword known third signless shape fun cut => read _ cut ?_
  rw [whole]
  exact threeOperands?_append first second third

theorem ofLine_arrayStore {array index value : String} (indexed : Lexeme.isIdentifier array.toList = true)
    (place : Lexeme.isValue index.toList = true) (stored : Lexeme.isValue value.toList = true) :
    ofLine (text (.arrayStore array index value)) = .ok (.arrayStore array index value) := by
  have shape : (text (.arrayStore array index value)).toList = "astore".toList ++ ' ' ::
      ((array.toList ++ ',' :: ' ' :: (index.toList ++ [',', ' '])) ++ value.toList) := by
    show ("astore " ++ array ++ ", " ++ index ++ ", " ++ value).toList = _
    simp
  refine ofChars_operands (by decide) (Lexeme.token_of_isIdentifier indexed) (Lexeme.token_of_isValue place)
    (Lexeme.token_of_isValue stored) shape fun rest cut operands => ?_
  rw [readKeyword, cut]
  simp only [operands, String.ofList_toList]

theorem ofLine_zeroFill {array start stop : String} (indexed : Lexeme.isIdentifier array.toList = true)
    (first : Lexeme.isValue start.toList = true) (second : Lexeme.isValue stop.toList = true) :
    ofLine (text (.zeroFill array start stop)) = .ok (.zeroFill array start stop) := by
  have shape : (text (.zeroFill array start stop)).toList = "arr_pad_zero".toList ++ ' ' ::
      ((array.toList ++ ',' :: ' ' :: (start.toList ++ [',', ' '])) ++ stop.toList) := by
    show ("arr_pad_zero " ++ array ++ ", " ++ start ++ ", " ++ stop).toList = _
    simp
  refine ofChars_operands (by decide) (Lexeme.token_of_isIdentifier indexed) (Lexeme.token_of_isValue first)
    (Lexeme.token_of_isValue second) shape fun rest cut operands => ?_
  rw [readKeyword, cut]
  simp only [operands, String.ofList_toList]

/-! ### Calls -/

/-- What follows the keyword in the spelling of a call. -/
def callRest (function : String) : Option Int → List Char
  | none => function.toList
  | some n => function.toList ++ ',' :: ' ' :: (toString n).toList

theorem toList_callText (function : String) (count : Option Int) :
    (callText function count none).toList = "call".toList ++ ' ' :: callRest function count := by
  cases count <;> simp [callText, callRest]

section

variable {function : String} {count : Option Int} (called : Lexeme.isIdentifier function.toList = true)
  (counted : ∀ n ∈ count, 0 ≤ n)

include called counted

/-- The last part of a call is the name of the function or the count. -/
theorem exists_callRest : ∃ middle last, callRest function count = middle ++ last ∧ Token last ∧
    '=' ∉ middle ∧ ':' ∉ middle ∧ Text.strip (middle ++ last) = middle ++ last := by
  have token := Lexeme.token_of_isIdentifier called
  cases count with
  | none => exact ⟨[], _, rfl, token, by simp, by simp, token.oneWord.strip_eq⟩
  | some n =>
    obtain ⟨n, rfl⟩ := Int.eq_ofNat_of_zero_le (counted n rfl)
    have digits : Token (Nat.toDigits 10 n) := Lexeme.token_of_isInteger (Text.isInteger_toDigits n)
    refine ⟨function.toList ++ [',', ' '], Nat.toDigits 10 n, ?_, digits, by simp [token.signless],
      by simp [token.colonless], ?_⟩
    · rw [callRest, Text.toList_toString, List.append_assoc]
      rfl
    · simpa using token.oneWord.strip_between digits.oneWord [',', ' ']

theorem readCall_callRest (target : Option String) :
    readCall line (callRest function count) target = reread (.call function count target none) := by
  have token := Lexeme.token_of_isIdentifier called
  cases count with
  | none =>
    rw [callRest, readCall, cutComma_eq token.commaless]
    simp only [token.oneWord.strip_eq, token.oneWord.filled, String.ofList_toList]
    rfl
  | some n =>
    obtain ⟨n, rfl⟩ := Int.eq_ofNat_of_zero_le (counted n rfl)
    have digits : Token (Nat.toDigits 10 n) := Lexeme.token_of_isInteger (Text.isInteger_toDigits n)
    have count : Text.strip (' ' :: Nat.toDigits 10 n) = Nat.toDigits 10 n := by
      rw [Text.strip_cons_of_isBlank rfl, digits.oneWord.strip_eq]
    rw [callRest, Text.toList_toString, readCall, cutComma_append token.commaless]
    simp only [token.oneWord.strip_eq, token.oneWord.filled, Option.getD_some, count, digits.oneWord.filled,
      Text.isInteger_toDigits, Text.readInt_toDigits, String.ofList_toList, Bool.false_eq_true, if_false,
      if_true]
    show Except.map _ _ = if Text.isWritable n then _ else _
    split
    next => simp [Except.map]
    next => rfl

theorem ofLine_call {target : Option String} (named : ∀ name ∈ target, Lexeme.isTarget name.toList = true) :
    ofLine (text (.call function count target none)) = reread (.call function count target none) := by
  obtain ⟨middle, last, rest, ends, signless, colonless, whole⟩ := exists_callRest called counted
  have spelled := toList_callText function count
  have read : ∀ line, readCall line (Text.strip (middle ++ last)) target =
      reread (.call function count target none) := by
    intro line
    rw [whole, ← rest]
    exact readCall_callRest called counted target
  rw [rest] at spelled
  cases target with
  | none =>
    have shape : (text (.call function count none none)).toList =
        "call".toList ++ ' ' :: (middle ++ last) :=
      spelled
    have byCall : readCallLine (text (.call function count none none)).toList =
        some (reread (.call function count none none)) := by
      rw [readCallLine, shape, cutWord_verb (by decide)]
      exact congrArg some (read _)
    have noKeyword : readKeyword (text (.call function count none none)).toList = none := by
      rw [readKeyword, shape, cutWord_verb (by decide)]
      rfl
    rw [ofLine, ofChars_verb (by decide) ends signless shape, noKeyword, byCall]
    rfl
  | some name =>
    have isTarget := named name rfl
    have isName := Lexeme.isIdentifier_of_isTarget isTarget
    have token := Lexeme.token_of_isIdentifier isName
    have shape : (text (.call function count (some name) none)).toList =
        name.toList ++ ' ' :: '=' :: ' ' :: ("call".toList ++ ' ' :: (middle ++ last)) := by
      unfold text
      dsimp only
      rw [given_of_nonempty token.nonempty, ← spelled]
      simp
    have noColon : ':' ∉ "call".toList ++ ' ' :: (middle ++ last) := by
      simp [colonless, ends.colonless]
    have keyword : Text.OneWord "call".toList := oneWord_of_keyword (by decide)
    have solid : Text.strip ("call".toList ++ ' ' :: (middle ++ last)) =
        "call".toList ++ ' ' :: (middle ++ last) := by
      simpa using keyword.strip_between ends.oneWord (' ' :: middle)
    rw [ofLine, shape]
    apply ofChars_assignment isTarget (by simp) noColon
    rw [readAssignment_append token.oneWord token.plain (by simp) solid, if_neg (by simp [isName]),
      cutWord_verb (by decide), String.ofList_toList]
    exact congrArg some (read _)

end

/-! ## Reading what was spelled -/

theorem ofLine_text_eq (spelled : Spelled s) : ofLine s.text = reread s := by
  cases spelled with
  | declare isGlobal named typed => exact ofLine_declare isGlobal named typed
  | declareArray isGlobal named sized typed => exact ofLine_declareArray isGlobal named sized typed
  | label named => exact ofLine_label named
  | comment stripped => exact ofLine_comment stripped
  | goto named => exact ofLine_goto named
  | test value noKeyword named => exact ofLine_test value noKeyword named
  | relation first noKeyword operator second noKeyword' named =>
    exact ofLine_relation first noKeyword operator second noKeyword' named
  | copy named read noKeyword => exact ofLine_copy named read noKeyword
  | unary named operator read => exact ofLine_unary named operator read
  | binary named first noKeyword operator second => exact ofLine_binary named first noKeyword operator second
  | arrayLoad named indexed place => exact ofLine_arrayLoad named indexed place
  | arrayStore indexed place stored => exact ofLine_arrayStore indexed place stored
  | zeroFill indexed first second => exact ofLine_zeroFill indexed first second
  | param passed => exact ofLine_param passed
  | call called counted named => exact ofLine_call called counted named
  | ret returned => exact ofLine_ret returned
  | print printed => exact ofLine_print printed
  | read named => exact ofLine_read named

/-- A statement is spelled, and read back from its spelling, unless its number has too many digits: then it is not
    spelled, and if it is handed over as a line all the same, then reading fails and names how many. -/
theorem ofLine_spell (spelled : Spelled s) :
    ((∀ n ∈ s.numeral?, Text.isWritable n = true) → ∃ line, s.spell = .ok line ∧ ofLine line = .ok s) ∧
      ∀ n ∈ s.numeral?, Text.isWritable n = false →
        s.spell = .error .write ∧ ofLine s.text = .error (.read (Nat.toDigits 10 n.natAbs).length) := by
  have read := ofLine_text_eq spelled
  rw [spell, isWritable]
  cases number : s.numeral? with
  | none =>
    simp only [reread, number] at read
    exact ⟨fun _ => ⟨s.text, rfl, read⟩, fun n member => nomatch member⟩
  | some n =>
    simp only [reread, number] at read
    simp only [Option.mem_some_iff, forall_eq', Option.all_some]
    refine ⟨fun short => ⟨s.text, if_pos short, ?_⟩, fun long => ?_⟩
    · rw [read, if_pos short]
    · rw [read]
      simp [long]

/-- A call whose target, function and count look like parts of other statements. -/
theorem ofLine_spell_call :
    Spelled (.call "goto" (some 12) (some "declare") none) ∧
      spell (.call "goto" (some 12) (some "declare") none) = .ok "declare = call goto, 12" ∧
      ofLine "declare = call goto, 12" = .ok (.call "goto" (some 12) (some "declare") none) := by
  have spelled : Spelled (.call "goto" (some 12) (some "declare") none) :=
    .call (by decide) (by simp) (by decide)
  have line : spell (.call "goto" (some 12) (some "declare") none) = .ok "declare = call goto, 12" := by decide
  obtain ⟨_, isLine, read⟩ := (ofLine_spell spelled).1 (by decide)
  rw [line] at isLine
  cases isLine
  exact ⟨spelled, line, read⟩

/-- A call with a count of one digit more than a numeral can have is not spelled, and not read either. -/
theorem spell_overlong :
    Spelled (.call "f" (some (Nat.pow 10 Text.numeralLimit : Nat)) none none) ∧
      spell (.call "f" (some (Nat.pow 10 Text.numeralLimit : Nat)) none none) = .error .write ∧
      ¬ ∃ s, ofLine (text (.call "f" (some (Nat.pow 10 Text.numeralLimit : Nat)) none none)) = .ok s := by
  have long : Text.isWritable (Nat.pow 10 Text.numeralLimit : Nat) = false := by
    rw [Bool.eq_false_iff, Ne, Text.isWritable_iff, Int.natAbs_natCast, Nat.pow_eq]
    simp
  generalize Nat.pow 10 Text.numeralLimit = count at long ⊢
  have spelled : Spelled (.call "f" (some (count : Int)) none none) := .call (by decide) (by simp) (by simp)
  refine ⟨spelled, by simp [spell, isWritable, numeral?, long], ?_⟩
  rintro ⟨s, read⟩
  rw [ofLine_text_eq spelled] at read
  simp [reread, numeral?, long] at read

end Stmt

/-! ## Programs made of statements -/

/-- A program is spelled if all its statements are. -/
theorem Program.spell_eq (stmts : List Stmt) :
    spell stmts = if stmts.all Stmt.isWritable then .ok (ofStmts stmts) else .error .write := by
  induction stmts with
  | nil => rfl
  | cons s rest ih =>
    rw [spell, List.mapM_cons, ← spell, ih, Stmt.spell, List.all_cons]
    cases s.isWritable with
    | false => rfl
    | true => cases rest.all Stmt.isWritable <;> rfl

/-- A program made of statements is lowered like their lines, unless one of them cannot be spelled. -/
theorem lowerStmts_eq (config : Config) (stmts : List Stmt) :
    lowerStmts config stmts =
      if stmts.all Stmt.isWritable then lowerProgram config (.ofStmts stmts)
      else (.error (.numeral .write), Pass.start config) := by
  rw [lowerStmts, Program.spell_eq]
  cases stmts.all Stmt.isWritable <;> rfl

end MipsLowering
