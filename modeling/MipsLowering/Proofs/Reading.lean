import MipsLowering.Proofs.Faults

/-! # What is read from lines

The operands of a statement that was read from a line are never blank (`ofChars_filled`), with one
exception: between the brackets of an array element there may be nothing but blanks, and then the index is
empty.  And reading fails only at a numeral with too many digits (`ofChars_error`). -/

namespace MipsLowering

namespace Text

/-! ## Characters other than blanks -/

/-- A text with a character that is no blank. -/
def Solid (cs : List Char) : Prop :=
  ∃ c ∈ cs, isBlank c = false

theorem mem_dropWhile {p : Char → Bool} {cs : List Char} {c : Char} (member : c ∈ cs)
    (stays : p c = false) : c ∈ cs.dropWhile p := by
  induction cs with
  | nil => cases member
  | cons first rest ih =>
    rw [List.dropWhile_cons]
    split
    next dropped =>
      rcases List.mem_cons.mp member with rfl | later
      · rw [stays] at dropped
        cases dropped
      · exact ih later
    next => exact member

theorem strip_cons_of_isBlank {c : Char} (blank : isBlank c = true) (cs : List Char) :
    strip (c :: cs) = strip cs := by
  simp [strip, stripStart, blank]

theorem mem_strip {cs : List Char} {c : Char} (member : c ∈ cs) (solid : isBlank c = false) :
    c ∈ strip cs := by
  have fromStart : c ∈ stripStart cs := mem_dropWhile member solid
  exact List.mem_reverse.mpr (mem_dropWhile (List.mem_reverse.mpr fromStart) solid)

theorem solid_of_strip {cs : List Char} (filled : strip cs ≠ []) : Solid cs := by
  have start : stripStart cs ≠ [] := by
    intro empty
    apply filled
    rw [strip, empty]
    rfl
  -- Where stripping stops there is a character that is no blank.
  refine ⟨(stripStart cs).head start, ?_, List.head_dropWhile_not isBlank start⟩
  exact (List.dropWhile_suffix isBlank).subset (List.head_mem start)

theorem Solid.strip {cs : List Char} (solid : Solid cs) : Solid (strip cs) := by
  obtain ⟨c, member, notBlank⟩ := solid
  exact ⟨c, mem_strip member notBlank, notBlank⟩

theorem Solid.ne_nil {cs : List Char} (solid : Solid cs) : cs ≠ [] := by
  rintro rfl
  obtain ⟨c, member, _⟩ := solid
  cases member

theorem filled_ofList {cs : List Char} : Filled (String.ofList cs) ↔ Solid cs := by
  rw [Filled, stripped, String.toList_ofList]
  constructor
  · intro filled
    apply solid_of_strip
    rintro empty
    rw [empty] at filled
    exact filled rfl
  · intro solid empty
    apply solid.strip.ne_nil
    simpa using congrArg String.toList empty

/-! ## Words -/

theorem mem_splitOnP {p : Char → Bool} {cs piece : List Char} (member : piece ∈ cs.splitOnP p) :
    ∀ c ∈ piece, c ∈ cs ∧ p c = false := by
  induction cs generalizing piece with
  | nil =>
    simp only [List.splitOnP_nil, List.mem_singleton] at member
    subst member
    simp
  | cons first rest ih =>
    have later : ∀ other ∈ rest.splitOnP p, ∀ c ∈ other, c ∈ first :: rest ∧ p c = false :=
      fun other found c inside => ⟨List.mem_cons_of_mem first (ih found c inside).1, (ih found c inside).2⟩
    rw [List.splitOnP_cons_eq_if_modifyHead] at member
    split at member
    next =>
      rcases List.mem_cons.mp member with rfl | member
      · simp
      · exact later piece member
    -- The first character goes to the head of the pieces of the rest.
    next stays =>
      cases pieces : rest.splitOnP p with
      | nil => simp [pieces] at member
      | cons head others =>
        rw [pieces] at later
        rw [pieces, List.modifyHead_cons] at member
        rcases List.mem_cons.mp member with rfl | member
        · intro c inPiece
          rcases List.mem_cons.mp inPiece with rfl | inHead
          · exact ⟨List.mem_cons_self, by simpa using stays⟩
          · exact later head List.mem_cons_self c inHead
        · exact later piece (List.mem_cons_of_mem head member)

theorem solid_of_mem_words {cs word : List Char} (member : word ∈ words cs) : Solid word := by
  obtain ⟨piece, nonempty⟩ := List.mem_filter.mp member
  cases word with
  | nil => cases nonempty
  | cons c rest => exact ⟨c, List.mem_cons_self, (mem_splitOnP piece c List.mem_cons_self).2⟩

theorem solid_of_isOneWord {cs : List Char} (single : isOneWord cs = true) : Solid cs := by
  obtain ⟨word, only⟩ := List.length_eq_one_iff.mp (beq_iff_eq.mp single)
  have member : word ∈ words cs := only ▸ List.mem_singleton_self word
  obtain ⟨c, inside, notBlank⟩ := solid_of_mem_words member
  exact ⟨c, (mem_splitOnP (List.mem_filter.mp member).1 c inside).1, notBlank⟩

end Text

/-! ## Statements -/

namespace Stmt

open Text (Solid filled_ofList)

/-- A line as it is read: it begins with a character that is no blank. -/
def Begun (line : List Char) : Prop :=
  ∃ c rest, line = c :: rest ∧ Text.isBlank c = false

variable {line : List Char} {s : Stmt}

theorem readDeclare_filled (read : readDeclare line = some s) : s.Filled := by
  simp only [readDeclare, Option.bind_eq_bind, Option.bind_eq_some_iff, Option.pure_def,
    Option.some.injEq] at read
  obtain ⟨_, _, _, _, _, _, _, _, _, _, rfl⟩ := read
  trivial

theorem readLabel_filled (read : readLabel line = some s) : s.Filled := by
  unfold readLabel at read
  split at read
  · cases read; trivial
  · cases read

theorem readComment_filled (read : readComment line = some s) : s.Filled := by
  unfold readComment at read
  split at read
  · cases read; trivial
  · cases read; trivial
  · split at read
    · cases read; trivial
    · cases read

theorem readGoto_filled (read : readGoto line = some s) : s.Filled := by
  simp only [readGoto] at read
  split at read
  · cases read
  · split at read
    · cases read; trivial
    · cases read; trivial

theorem solid_intercalate {words : List (List Char)} (nonempty : words ≠ [])
    (solid : ∀ word ∈ words, Solid word) : Solid (List.intercalate [' '] words) := by
  cases words with
  | nil => exact absurd rfl nonempty
  | cons first rest =>
    obtain ⟨c, member, notBlank⟩ := solid first List.mem_cons_self
    refine ⟨c, ?_, notBlank⟩
    cases rest with
    | nil => simpa [List.intercalate] using member
    | cons second rest => simp [List.intercalate, List.intersperse, member]

theorem eq_of_relation? {condition : List (List Char)} {left op right : List Char}
    (related : relation? condition = some (left, op, right)) : condition = [left, op, right] := by
  unfold relation? at related
  split at related
  · split at related
    · cases related
      rfl
    · cases related
  · cases related

theorem readCondition_filled {condition : List (List Char)} (label : List Char)
    (nonempty : condition ≠ []) (solid : ∀ word ∈ condition, Solid word) :
    (readCondition condition label).Filled := by
  unfold readCondition
  split
  next left op right related =>
    obtain rfl := eq_of_relation? related
    refine ⟨filled_ofList.mpr (solid left (by simp)), fun operand given => ?_⟩
    cases eq_of_given given
    exact filled_ofList.mpr (solid right (by simp))
  next => exact ⟨filled_ofList.mpr (solid_intercalate nonempty solid), fun operand given => by cases given⟩

theorem readBranch_filled (read : readBranch line = some s) : s.Filled := by
  simp only [readBranch] at read
  split at read
  · cases read
  · split at read
    · cases read; trivial
    · split at read
      · cases read; trivial
      next nonempty =>
        split at read
        · cases read
          apply readCondition_filled
          · simpa using nonempty
          · intro word member
            exact Text.solid_of_mem_words ((List.takeWhile_prefix _).subset member)
        · cases read; trivial

theorem of_orElse {α : Type} {first second : Option α} {a : α}
    (found : (first <|> second) = some a) : first = some a ∨ second = some a := by
  cases first with
  | none => exact .inr found
  | some b => exact .inl found

theorem readPlain_cases (read : readPlain line = some s) :
    readDeclare line = some s ∨ readLabel line = some s ∨ readComment line = some s ∨ readGoto line = some s ∨
      readBranch line = some s :=
  (of_orElse read).imp_right fun read => (of_orElse read).imp_right fun read =>
    (of_orElse read).imp_right of_orElse

theorem readPlain_filled (read : readPlain line = some s) : s.Filled := by
  rcases readPlain_cases read with read | read | read | read | read
  · exact readDeclare_filled read
  · exact readLabel_filled read
  · exact readComment_filled read
  · exact readGoto_filled read
  · exact readBranch_filled read

/-! ### Keywords -/

theorem threeOperands?_filled {cs : List Char} {a b c : String}
    (read : threeOperands? cs = some (a, b, c)) :
    Text.Filled a ∧ Text.Filled b ∧ Text.Filled c := by
  simp only [threeOperands?] at read
  split at read
  · cases read
  · split at read
    · cases read
    next first rest _ second third _ =>
      split at read
      · cases read
      next nonempty =>
        simp only [Bool.or_eq_true, List.isEmpty_iff, not_or] at nonempty
        cases read
        refine ⟨?_, ?_, ?_⟩
        · exact filled_ofList.mpr (Text.solid_of_strip nonempty.1.1).strip
        · exact filled_ofList.mpr (Text.solid_of_strip nonempty.1.2).strip
        · exact filled_ofList.mpr (Text.solid_of_strip nonempty.2).strip

/-- What follows the first word of a line is blank only if it is empty. -/
theorem filled_cutWord {cs : List Char} (nonempty : ¬ (Text.cutWord cs).2.isEmpty = true) :
    Text.Filled (String.ofList (Text.cutWord cs).2) := by
  have filled : (Text.cutWord cs).2 ≠ [] := by simpa using nonempty
  exact filled_ofList.mpr (Text.solid_of_strip filled).strip

theorem readKeyword_filled (read : readKeyword line = some s) : s.Filled := by
  simp only [readKeyword] at read
  split at read
  · split at read
    next operands =>
      cases read
      exact (threeOperands?_filled operands).2
    · cases read; trivial
  · split at read
    next operands =>
      cases read
      exact (threeOperands?_filled operands).2
    · cases read; trivial
  · split at read
    · cases read; trivial
    next nonempty =>
      cases read
      exact filled_cutWord nonempty
  · cases read
    intro operand given
    have present := eq_of_given given
    split at present
    · cases present
    next nonempty =>
      cases present
      exact filled_cutWord nonempty
  · split at read
    · cases read; trivial
    next nonempty =>
      cases read
      exact filled_cutWord nonempty
  · split at read
    · cases read; trivial
    · cases read; trivial
  · cases read

/-! ### Assignments and calls -/

/-- A call without a name is flawed.  Of a count that is no number of arguments the text is kept. -/
theorem readCall_cases {rest : List Char} {target : Option String} (read : readCall line rest target = .ok s) :
    s = flawed line .callName ∨
      ∃ count written, s = .call (String.ofList (Text.strip (cutComma rest).1)) count target written ∧
        ∀ raw ∈ written, raw = String.ofList (Text.strip ((cutComma rest).2.getD [])) := by
  simp only [readCall] at read
  split at read
  · cases read
    exact .inl rfl
  · right
    split at read
    · cases read
      exact ⟨none, none, rfl, by simp⟩
    · split at read
      · cases number : Text.readInt (Text.strip ((cutComma rest).2.getD [])) with
        | error fault => rw [number] at read; cases read
        | ok n =>
          rw [number] at read
          simp only [Except.map, Except.ok.injEq] at read
          subst read
          split
          · exact ⟨some n, none, rfl, by simp⟩
          · exact ⟨none, some _, rfl, by simp⟩
      · cases read
        exact ⟨none, some _, rfl, by simp⟩

theorem readCall_filled {rest : List Char} {target : Option String}
    (read : readCall line rest target = .ok s) : s.Filled := by
  rcases readCall_cases read with rfl | ⟨_, _, rfl, _⟩ <;> trivial

variable {target : String} {value : List Char}

theorem readBinary_filled (named : target ≠ "") (read : readBinary target value = some s) :
    s.Filled := by
  simp only [readBinary] at read
  split at read
  next left op right found =>
    have solid : ∀ word ∈ [left, op, right], Solid word :=
      fun word member => Text.solid_of_mem_words (found ▸ member)
    split at read
    · cases read
      refine ⟨named, ⟨_, rfl, filled_ofList.mpr (solid left (by simp))⟩, fun operand given => ?_⟩
      cases given
      exact filled_ofList.mpr (solid right (by simp))
    · cases read
  · cases read

theorem readElement_filled (named : target ≠ "") (read : readElement target value = some s) :
    s.Filled := by
  simp only [readElement] at read
  split at read
  · cases read
  · split at read
    · cases read
      refine ⟨named, fun nonempty => filled_ofList.mpr (Text.solid_of_strip ?_).strip⟩
      intro empty
      exact nonempty (by rw [empty])
    · cases read

theorem readUnary_filled (named : target ≠ "") (read : readUnary target value = some s) :
    s.Filled := by
  unfold readUnary at read
  split at read
  next op next rest =>
    split at read
    next shape =>
      cases read
      simp only [Bool.and_eq_true] at shape
      refine ⟨named, ⟨_, rfl, ?_⟩, fun operand given => by cases given⟩
      exact filled_ofList.mpr (Text.solid_of_isOneWord shape.2).strip
    · cases read
  · cases read

theorem copy_filled (named : target ≠ "") (solid : Solid value) : (copy target value).Filled :=
  ⟨named, ⟨_, rfl, filled_ofList.mpr solid⟩, fun operand given => by cases given⟩

theorem readValue_cases (target : String) (value : List Char) :
    readValue target value = copy target value ∨ readBinary target value = some (readValue target value) ∨
      readElement target value = some (readValue target value) ∨
      readUnary target value = some (readValue target value) := by
  generalize result : readValue target value = s
  unfold readValue at result
  split at result
  · exact .inl result.symm
  · split at result
    next found =>
      subst result
      exact .inr ((of_orElse found).imp_right .inl)
    · split at result
      · exact .inl result.symm
      · cases unary : readUnary target value with
        | none =>
          rw [unary] at result
          exact .inl result.symm
        | some stmt =>
          rw [unary] at result
          exact .inr (.inr (.inr (congrArg some result)))

theorem readValue_filled (named : target ≠ "") (solid : Solid value) :
    (readValue target value).Filled := by
  rcases readValue_cases target value with copied | binary | element | unary
  · rw [copied]
    exact copy_filled named solid
  · exact readBinary_filled named binary
  · exact readElement_filled named element
  · exact readUnary_filled named unary

theorem readAssignment_filled {anyTarget : Bool} (begun : Begun line)
    (read : readAssignment anyTarget line = some (.ok s)) : s.Filled := by
  obtain ⟨c, rest, rfl, notBlank⟩ := begun
  simp only [readAssignment] at read
  split at read
  · cases read
  · cases read
  next place notZero _ =>
    -- The target holds the first character of the line.
    have solidTarget : Solid ((c :: rest).take place) := by
      cases place with
      | zero => exact absurd rfl notZero
      | succ place => exact ⟨c, by simp, notBlank⟩
    have named : String.ofList (Text.strip ((c :: rest).take place)) ≠ "" := by
      intro empty
      apply solidTarget.strip.ne_nil
      simpa using congrArg String.toList empty
    split at read
    · cases read
    · split at read
      · cases read; trivial
      next nonempty =>
        have solidValue : Solid (Text.strip ((c :: rest).drop (place + 1))) :=
          (Text.solid_of_strip (by simpa using nonempty)).strip
        split at read
        · exact readCall_filled (Option.some.inj read)
        · cases read
          exact readValue_filled named solidValue

theorem readDeclareArray_filled (read : readDeclareArray line = some (.ok s)) : s.Filled := by
  simp only [readDeclareArray, Option.bind_eq_bind, Option.bind_eq_some_iff, Option.pure_def,
    Option.some.injEq] at read
  obtain ⟨_, _, _, _, _, _, _, _, _, _, digits, _, _, _, _, _, _, _, read⟩ := read
  cases number : Text.readNat digits.1 with
  | error fault => rw [number] at read; cases read
  | ok n =>
    rw [number] at read
    cases read
    trivial

/-- The rule that has read a line. -/
theorem ofChars_cases {reading : Reading} (read : ofChars line = reading) :
    readDeclareArray line = some reading ∨ (∃ s, readPlain line = some s ∧ reading = .ok s) ∨
      (∃ anyTarget, readAssignment anyTarget line = some reading) ∨
      (∃ s, readKeyword line = some s ∧ reading = .ok s) ∨ readCallLine line = some reading ∨
      reading = .ok (.unsupported (String.ofList line)) := by
  simp only [ofChars] at read
  cases found : (readDeclareArray line <|> (readPlain line).map .ok <|> readAssignment false line <|>
    (readKeyword line).map .ok <|> readCallLine line <|> readAssignment true line) with
  | none =>
    rw [found] at read
    simp [← read]
  | some r =>
    obtain rfl : r = reading := by rw [found] at read; exact read
    rcases of_orElse found with found | found
    · exact .inl found
    rcases of_orElse found with found | found
    · obtain ⟨s, plain, rfl⟩ := Option.map_eq_some_iff.mp found
      exact .inr (.inl ⟨s, plain, rfl⟩)
    rcases of_orElse found with found | found
    · exact .inr (.inr (.inl ⟨false, found⟩))
    rcases of_orElse found with found | found
    · obtain ⟨s, keyword, rfl⟩ := Option.map_eq_some_iff.mp found
      exact .inr (.inr (.inr (.inl ⟨s, keyword, rfl⟩)))
    rcases of_orElse found with found | found
    · exact .inr (.inr (.inr (.inr (.inl found))))
    · exact .inr (.inr (.inl ⟨true, found⟩))

/-- The operands of a statement that was read are not blank. -/
theorem ofChars_filled (begun : Begun line) (read : ofChars line = .ok s) : s.Filled := by
  rcases ofChars_cases read with array | ⟨_, plain, same⟩ | ⟨_, assignment⟩ | ⟨_, keyword, same⟩ |
    call | same
  · exact readDeclareArray_filled array
  · cases same
    exact readPlain_filled plain
  · exact readAssignment_filled begun assignment
  · cases same
    exact readKeyword_filled keyword
  · simp only [readCallLine] at call
    split at call
    · exact readCall_filled (Option.some.inj call)
    · cases call
  · cases same
    trivial

/-! ## Numerals that are too long -/

/-- A numeral on a line that has too many digits to be read. -/
def Overlong (line : List Char) (fault : Text.NumeralFault) : Prop :=
  ∃ digits, digits <:+: line ∧ (∀ c ∈ digits, Text.isDecimal c = true) ∧
    Text.numeralLimit < digits.length ∧ fault = .read digits.length

theorem readNat_error {digits : List Char} {fault : Text.NumeralFault}
    (read : Text.readNat digits = .error fault) :
    Text.numeralLimit < digits.length ∧ fault = .read digits.length := by
  unfold Text.readNat at read
  split at read
  · cases read
  next long =>
    cases read
    exact ⟨Nat.lt_of_not_le long, rfl⟩

theorem stripStart_suffix (cs : List Char) : Text.stripStart cs <:+ cs :=
  List.dropWhile_suffix _

theorem strip_isPrefix (cs : List Char) : Text.strip cs <+: Text.stripStart cs := by
  rw [← List.reverse_suffix, Text.strip, Text.stripEnd, List.reverse_reverse]
  exact List.dropWhile_suffix _

theorem strip_isInfix (cs : List Char) : Text.strip cs <:+: cs :=
  (strip_isPrefix cs).isInfix.trans (stripStart_suffix cs).isInfix

theorem dropKeyword_suffix {keyword cs rest : List Char} (dropped : dropKeyword keyword cs = some rest) :
    rest <:+ cs := by
  induction keyword generalizing cs with
  | nil =>
    cases dropped
    exact List.suffix_rfl
  | cons k ks ih =>
    cases cs with
    | nil => cases dropped
    | cons c cs =>
      simp only [dropKeyword] at dropped
      split at dropped
      · exact (ih dropped).trans (List.suffix_cons c cs)
      · cases dropped

theorem dropBlanks_suffix {cs rest : List Char} (dropped : dropBlanks cs = some rest) : rest <:+ cs := by
  cases cs with
  | nil => cases dropped
  | cons c cs =>
    simp only [dropBlanks] at dropped
    split at dropped
    · cases dropped
      exact (stripStart_suffix cs).trans (List.suffix_cons c cs)
    · cases dropped

theorem dropMark_suffix {mark : Char} {cs rest : List Char} (dropped : dropMark mark cs = some rest) :
    rest <:+ cs := by
  unfold dropMark at dropped
  split at dropped
  · cases dropped
  next c tail start =>
    split at dropped
    · cases dropped
      exact (stripStart_suffix tail).trans ((List.suffix_cons c tail).trans (start ▸ stripStart_suffix cs))
    · cases dropped

theorem takeSome_spec {inClass : Char → Bool} {cs found rest : List Char}
    (taken : takeSome inClass cs = some (found, rest)) :
    found <+: cs ∧ (∀ c ∈ found, inClass c = true) ∧ rest <:+ cs := by
  unfold takeSome at taken
  split at taken
  · cases taken
  · cases taken
    refine ⟨List.takeWhile_prefix _, fun c member => ?_, List.dropWhile_suffix _⟩
    exact List.all_eq_true.mp List.all_takeWhile c member

theorem dropDeclare_suffix {isGlobal : Bool} {rest : List Char}
    (dropped : dropDeclare line = some (isGlobal, rest)) : rest <:+ line := by
  simp only [dropDeclare, Option.bind_eq_bind, Option.bind_eq_some_iff] at dropped
  obtain ⟨middle, first, dropped⟩ := dropped
  split at dropped
  next second =>
    cases dropped
    exact (dropKeyword_suffix second).trans (dropKeyword_suffix first)
  next =>
    cases dropped
    exact dropKeyword_suffix first

theorem readDeclareArray_error {fault : Text.NumeralFault}
    (read : readDeclareArray line = some (.error fault)) : Overlong line fault := by
  simp only [readDeclareArray, Option.bind_eq_bind, Option.bind_eq_some_iff, Option.pure_def,
    Option.some.injEq] at read
  obtain ⟨⟨_, r₁⟩, declared, r₂, keyword, r₃, blanks, ⟨_, r₄⟩, named, r₅, bracket, ⟨digits, _⟩, taken,
    _, _, _, _, _, _, read⟩ := read
  obtain ⟨front, decimal, _⟩ := takeSome_spec taken
  have inside : r₅ <:+ line :=
    (dropMark_suffix bracket).trans <| (takeSome_spec named).2.2.trans <|
      (dropBlanks_suffix blanks).trans <| (dropKeyword_suffix keyword).trans <|
        dropDeclare_suffix declared
  cases number : Text.readNat digits with
  | ok n => rw [number] at read; cases read
  | error fault' =>
    rw [number] at read
    cases read
    obtain ⟨long, same⟩ := readNat_error number
    exact ⟨digits, front.isInfix.trans inside.isInfix, decimal, long, same⟩

theorem cutComma_suffix {cs before rest : List Char} (cut : cutComma cs = (before, some rest)) :
    rest <:+ cs := by
  unfold cutComma at cut
  split at cut
  · cases cut
  next c tail found =>
    cases cut
    exact (List.suffix_cons c _).trans (found ▸ List.dropWhile_suffix _)

theorem readInt_error {cs : List Char} {fault : Text.NumeralFault}
    (read : Text.readInt cs = .error fault) : Text.readNat (Lexeme.dropMinus cs) = .error fault := by
  unfold Text.readInt at read
  split at read
  next digits =>
    cases number : Text.readNat digits with
    | ok n => rw [number] at read; cases read
    | error fault' =>
      rw [number] at read
      cases read
      exact number
  next notMinus =>
    have same : Lexeme.dropMinus cs = cs := by
      unfold Lexeme.dropMinus
      split
      next digits => exact absurd rfl (notMinus digits)
      next => rfl
    rw [same]
    cases number : Text.readNat cs with
    | ok n => rw [number] at read; cases read
    | error fault' => rw [number] at read; cases read; rfl

theorem dropMinus_suffix (cs : List Char) : Lexeme.dropMinus cs <:+ cs := by
  unfold Lexeme.dropMinus
  split
  · exact List.suffix_cons _ _
  · exact List.suffix_rfl

theorem readCall_error {rest : List Char} {target : Option String} {fault : Text.NumeralFault}
    (inside : rest <:+: line) (read : readCall line rest target = .error fault) :
    Overlong line fault := by
  simp only [readCall] at read
  split at read
  · cases read
  · split at read
    · cases read
    · split at read
      next integer =>
        -- The digits of the count are those that follow its sign.
        have count : Text.strip ((cutComma rest).2.getD []) <:+: line := by
          cases cut : cutComma rest with
          | mk before after =>
            cases after with
            | none => exact (strip_isInfix _).trans (List.nil_infix)
            | some tail =>
              exact (strip_isInfix _).trans ((cutComma_suffix cut).isInfix.trans inside)
        generalize Text.strip ((cutComma rest).2.getD []) = number at *
        cases failed : Text.readInt number with
        | ok n => rw [failed] at read; cases read
        | error fault' =>
          rw [failed] at read
          cases read
          obtain ⟨long, same⟩ := readNat_error (readInt_error failed)
          have decimal : ∀ c ∈ Lexeme.dropMinus number, Text.isDecimal c = true := by
            simp only [Lexeme.isInteger, Lexeme.isNumeral, Bool.and_eq_true] at integer
            exact List.all_eq_true.mp integer.2
          exact ⟨_, (dropMinus_suffix number).isInfix.trans count, decimal, long, same⟩
      · cases read

theorem cutWord_isInfix (cs : List Char) : (Text.cutWord cs).2 <:+: cs :=
  (strip_isInfix _).trans ((List.dropWhile_suffix _).trans (stripStart_suffix cs)).isInfix

theorem readAssignment_error {anyTarget : Bool} {fault : Text.NumeralFault}
    (read : readAssignment anyTarget line = some (.error fault)) : Overlong line fault := by
  simp only [readAssignment] at read
  split at read
  · cases read
  · cases read
  next place _ _ =>
    split at read
    · cases read
    · split at read
      · cases read
      · split at read
        · refine readCall_error ?_ (Option.some.inj read)
          exact (cutWord_isInfix _).trans ((strip_isInfix _).trans (List.drop_suffix _ _).isInfix)
        · cases read

/-- Reading fails only at a numeral that is too long. -/
theorem ofChars_error {fault : Text.NumeralFault} (read : ofChars line = .error fault) :
    Overlong line fault := by
  rcases ofChars_cases read with array | ⟨_, plain, same⟩ | ⟨_, assignment⟩ | ⟨_, keyword, same⟩ |
    call | same
  · exact readDeclareArray_error array
  · cases same
  · exact readAssignment_error assignment
  · cases same
  · simp only [readCallLine] at call
    split at call
    · exact readCall_error (cutWord_isInfix line) (Option.some.inj call)
    · cases call
  · cases same

end Stmt

/-! ## Programs -/

namespace Program

/-- A line without blanks around it begins with another character. -/
theorem begun_of_mem_filledLines {lines : List String} {line : String}
    (member : line ∈ Stmt.filledLines lines) : Stmt.Begun line.toList := by
  obtain ⟨stripped, nonempty⟩ := List.mem_filter.mp member
  obtain ⟨raw, _, rfl⟩ := List.mem_map.mp stripped
  rw [Text.stripped, String.toList_ofList]
  cases same : Text.strip raw.toList with
  | nil => simp [Text.stripped, same] at nonempty
  | cons c rest =>
    refine ⟨c, rest, rfl, ?_⟩
    obtain ⟨more, front⟩ := Stmt.strip_isPrefix raw.toList
    rw [same, List.cons_append] at front
    have start : Text.stripStart raw.toList ≠ [] := by
      rw [← front]
      simp
    have head : (Text.stripStart raw.toList).head start = c := by
      simp only [← front, List.head_cons]
    rw [← head]
    exact List.head_dropWhile_not Text.isBlank start

theorem exists_of_mapM_ok {α β ε : Type} {f : α → Except ε β} {as : List α} {bs : List β}
    (ran : as.mapM f = .ok bs) : ∀ b ∈ bs, ∃ a ∈ as, f a = .ok b := by
  induction as generalizing bs with
  | nil =>
    cases ran
    simp
  | cons a as ih =>
    rw [List.mapM_cons] at ran
    cases first : f a with
    | error e => rw [first] at ran; cases ran
    | ok b =>
      cases others : as.mapM f with
      | error e => rw [first, others] at ran; cases ran
      | ok rest =>
        rw [first, others] at ran
        cases ran
        intro c member
        rcases List.mem_cons.mp member with rfl | member
        · exact ⟨a, List.mem_cons_self, first⟩
        · obtain ⟨a', member', same⟩ := ih others c member
          exact ⟨a', List.mem_cons_of_mem a member', same⟩

theorem exists_of_mapM_error {α β ε : Type} {f : α → Except ε β} {as : List α} {e : ε}
    (ran : as.mapM f = .error e) : ∃ a ∈ as, f a = .error e := by
  induction as with
  | nil => cases ran
  | cons a as ih =>
    rw [List.mapM_cons] at ran
    cases first : f a with
    | error e' =>
      rw [first] at ran
      cases ran
      exact ⟨a, List.mem_cons_self, first⟩
    | ok b =>
      cases others : as.mapM f with
      | ok rest => rw [first, others] at ran; cases ran
      | error e' =>
        rw [first, others] at ran
        cases ran
        obtain ⟨a', member, same⟩ := ih others
        exact ⟨a', List.mem_cons_of_mem a member, same⟩

theorem filled_of_ofLines {lines : List String} {program : Program}
    (read : ofLines lines = .ok program) : ∀ l ∈ program, l.stmt.Filled := by
  intro l member
  obtain ⟨line, inLines, made⟩ := exists_of_mapM_ok read l member
  cases parsed : Stmt.ofLine line with
  | error fault => rw [parsed] at made; cases made
  | ok s =>
    rw [parsed] at made
    cases made
    exact Stmt.ofChars_filled (begun_of_mem_filledLines inLines) parsed

theorem overlong_of_ofLines {lines : List String} {fault : Text.NumeralFault}
    (read : ofLines lines = .error fault) :
    ∃ line ∈ Stmt.filledLines lines, Stmt.Overlong line.toList fault := by
  obtain ⟨line, member, failed⟩ := exists_of_mapM_error read
  refine ⟨line, member, Stmt.ofChars_error ?_⟩
  cases parsed : Stmt.ofLine line with
  | ok s => rw [parsed] at failed; cases failed
  | error fault' =>
    rw [parsed] at failed
    cases failed
    exact parsed

end Program

/-! ## Lines that can be lowered -/

/-- Where labels are not checked strictly, lines of text are lowered exactly if they can be read and
    none of their statements breaks the pass; and they can be read unless a numeral is too long. -/
theorem lowerLines_succeeds_iff (config : Config) (lax : config.strictLabels = false)
    (lines : List String) :
    ((∃ listing p, lowerLines config lines = (.ok listing, p)) ↔
      ∃ program, Program.ofLines lines = .ok program ∧
        ∀ before l after, program = before ++ l :: after →
          ¬ l.stmt.Breaks config (before.map Line.stmt)) ∧
    ∀ fault, Program.ofLines lines = .error fault →
      ∃ line ∈ Stmt.filledLines lines, Stmt.Overlong line.toList fault := by
  refine ⟨?_, fun fault => Program.overlong_of_ofLines⟩
  cases read : Program.ofLines lines with
  | error fault =>
    have failed : ∀ listing p, lowerLines config lines ≠ (.ok listing, p) := by
      intro listing p succeeded
      rw [lowerLines, read] at succeeded
      cases succeeded
    simp [failed]
  | ok program =>
    have start : lowerLines config lines = lowerProgram config program := by
      rw [lowerLines, read]
      rfl
    have filled := Program.filled_of_ofLines read
    have lowered := Lower.lines_succeed_iff (Pass.after_ready config program) filled
    simp only [List.nil_append] at lowered
    simp only [Except.ok.injEq, exists_eq_left', ← lowered, start]
    constructor
    · rintro ⟨listing, p, succeeded⟩
      obtain ⟨q, ran, _⟩ := lowerProgram_iff.mp ⟨listing, succeeded⟩
      exact ⟨q, ran⟩
    · rintro ⟨q, ran⟩
      have behind := Lower.lines_ok (Pass.after_ready config program) filled ran
      have unchecked : q.config.strictLabels = true → q.labels.undefined = [] := by
        rw [behind.config, lax]
        intro strict
        cases strict
      obtain ⟨listing, succeeded⟩ := lowerProgram_iff.mpr ⟨q, ran, unchecked, rfl⟩
      exact ⟨listing, _, succeeded⟩

/-- Between the brackets of an element there is nothing but a blank. -/
theorem lowerLines_element_without_index :
    (Config.standard false).strictLabels = false ∧
      ¬ ∃ listing p, lowerLines (Config.standard false) ["x = a[ ]"] = (.ok listing, p) := by
  refine ⟨rfl, ?_⟩
  rw [(lowerLines_succeeds_iff (Config.standard false) rfl ["x = a[ ]"]).1]
  have read : (Program.ofLines ["x = a[ ]"]).toOption =
      some [⟨"x = a[ ]", .arrayLoad "x" "a" ""⟩] := by
    decide +kernel
  rintro ⟨program, same, holds⟩
  rw [same] at read
  cases read
  exact holds [] _ [] rfl fun filled => filled (by decide +kernel)

end MipsLowering
