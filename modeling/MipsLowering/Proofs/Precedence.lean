import MipsLowering.Proofs.Tokens

/-! # Rules that pass a line by

The rules of the reader compete for a line, and the first one that recognises it wins.  No rule before
their own reads an assignment to a name (`Stmt.ofChars_assignment`) or a statement with a keyword
(`Stmt.ofChars_verb`). -/

namespace MipsLowering

namespace Stmt

open Lexeme (Token)

variable {line : List Char} {s : Stmt} {reading : Reading}

theorem isBlank_toLower {c : Char} (blank : Text.isBlank c = true) : Text.isBlank c.toLower = true := by
  have checked : ∀ n ∈ Text.blankCodes, Text.isBlank (Char.ofNat n).toLower = true := by decide +kernel
  simpa using checked c.toNat (Text.mem_blankCodes blank)

/-- What a keyword is read from holds no blank. -/
theorem exists_of_dropKeyword {keyword cs rest : List Char} (solid : keyword.all (!Text.isBlank ·) = true)
    (dropped : dropKeyword keyword cs = some rest) :
    ∃ front, cs = front ++ rest ∧ ∀ c ∈ front, Text.isBlank c = false := by
  induction keyword generalizing cs with
  | nil =>
    cases dropped
    exact ⟨[], rfl, by simp⟩
  | cons k ks ih =>
    simp only [List.all_cons, Bool.and_eq_true, Bool.not_eq_true'] at solid
    cases cs with
    | nil => cases dropped
    | cons c cs =>
      simp only [dropKeyword] at dropped
      split at dropped
      next same =>
        obtain ⟨front, rfl, clear⟩ := ih solid.2 dropped
        -- Keywords are read in either case, and a blank is one in both.
        have first : Text.isBlank c = false := by
          by_contra blank
          have lower := isBlank_toLower (by simpa using blank)
          rw [beq_iff_eq.mp same, solid.1] at lower
          cases lower
        exact ⟨c :: front, rfl, by simpa using ⟨first, clear⟩⟩
      · cases dropped

theorem exists_of_dropDeclare {isGlobal : Bool} {rest : List Char}
    (dropped : dropDeclare line = some (isGlobal, rest)) :
    ∃ front, line = front ++ rest ∧ ∀ c ∈ front, Text.isBlank c = false := by
  simp only [dropDeclare, Option.bind_eq_bind, Option.bind_eq_some_iff] at dropped
  obtain ⟨middle, first, dropped⟩ := dropped
  obtain ⟨front, rfl, clear⟩ := exists_of_dropKeyword (by decide) first
  split at dropped
  next second =>
    cases dropped
    obtain ⟨more, rfl, clear'⟩ := exists_of_dropKeyword (by decide) second
    exact ⟨front ++ more, by simp, by simpa [or_imp, forall_and] using ⟨clear, clear'⟩⟩
  next =>
    cases dropped
    exact ⟨front, rfl, clear⟩

/-- Behind a first word that a keyword was read from, the line goes on with a blank. -/
theorem dropWhile_of_dropBlanks {front cs rest : List Char} (clear : ∀ c ∈ front, Text.isBlank c = false)
    (dropped : dropBlanks cs = some rest) :
    ∃ blank tail, (front ++ cs).dropWhile (!Text.isBlank ·) = blank :: tail ∧
      rest = Text.stripStart tail := by
  cases cs with
  | nil => cases dropped
  | cons c tail =>
    simp only [dropBlanks] at dropped
    split at dropped
    next blank =>
      cases dropped
      refine ⟨c, tail, ?_, rfl⟩
      rw [List.dropWhile_append_of_pos (fun d member => by simp [clear d member]),
        List.dropWhile_cons_of_neg (by simp [blank])]
    · cases dropped

theorem mem_of_dropMark {mark : Char} {cs rest : List Char} (dropped : dropMark mark cs = some rest) :
    mark ∈ cs := by
  unfold dropMark at dropped
  split at dropped
  · cases dropped
  next c tail start =>
    split at dropped
    next same =>
      obtain rfl := beq_iff_eq.mp same
      exact (stripStart_suffix cs).subset (start ▸ List.mem_cons_self)
    · cases dropped

/-- A scalar declaration has a colon behind its first word. -/
theorem colon_of_readDeclare (read : readDeclare line = some s) : ':' ∈ line.dropWhile (!Text.isBlank ·) := by
  simp only [readDeclare, Option.bind_eq_bind, Option.bind_eq_some_iff] at read
  obtain ⟨⟨_, r₁⟩, declared, r₂, blanks, ⟨_, r₃⟩, named, r₄, colon, _⟩ := read
  obtain ⟨front, rfl, clear⟩ := exists_of_dropDeclare declared
  obtain ⟨blank, tail, behind, rfl⟩ := dropWhile_of_dropBlanks clear blanks
  rw [behind]
  have inside : r₃ <:+ tail := (takeSome_spec named).2.2.trans (stripStart_suffix tail)
  exact List.mem_cons_of_mem blank (inside.subset (mem_of_dropMark colon))

/-- An array declaration has a word character as the first behind its first word. -/
theorem word_of_readDeclareArray (read : readDeclareArray line = some reading) :
    ∃ blank tail c rest, line.dropWhile (!Text.isBlank ·) = blank :: tail ∧
      Text.stripStart tail = c :: rest ∧ Text.isWordChar c = true := by
  simp only [readDeclareArray, Option.bind_eq_bind, Option.bind_eq_some_iff] at read
  obtain ⟨⟨_, r₁⟩, declared, r₂, keyword, r₃, blanks, found, named, _⟩ := read
  obtain ⟨front, rfl, clear⟩ := exists_of_dropDeclare declared
  obtain ⟨more, rfl, clear'⟩ := exists_of_dropKeyword (by decide) keyword
  have both : ∀ c ∈ front ++ more, Text.isBlank c = false := by
    simpa [or_imp, forall_and] using ⟨clear, clear'⟩
  obtain ⟨blank, tail, behind, rfl⟩ := dropWhile_of_dropBlanks both blanks
  rw [List.append_assoc] at behind
  refine ⟨blank, tail, ?_⟩
  cases start : Text.stripStart tail with
  | nil => rw [start] at named; cases named
  | cons c rest =>
    refine ⟨c, rest, behind, rfl, ?_⟩
    by_contra other
    rw [start, takeSome, List.takeWhile_cons_of_neg other] at named
    cases named

theorem readDeclare_eq_none (colonless : ':' ∉ line.dropWhile (!Text.isBlank ·)) : readDeclare line = none :=
  Option.eq_none_iff_forall_ne_some.mpr fun _ read => colonless (colon_of_readDeclare read)

theorem readDeclareArray_eq_none (wordless : ∀ blank tail c rest, line.dropWhile (!Text.isBlank ·) = blank :: tail →
    Text.stripStart tail = c :: rest → Text.isWordChar c = false) : readDeclareArray line = none := by
  refine Option.eq_none_iff_forall_ne_some.mpr fun reading read => ?_
  obtain ⟨blank, tail, c, rest, split, start, word⟩ := word_of_readDeclareArray read
  rw [wordless blank tail c rest split start] at word
  cases word

/-- No rule for declarations, labels and remarks reads the line. -/
structure Passed (line : List Char) : Prop where
  array : readDeclareArray line = none
  scalar : readDeclare line = none
  label : readLabel line = none
  comment : readComment line = none

theorem readLabel_eq_none {front last : List Char} (nonempty : last ≠ []) (colonless : ':' ∉ last) :
    readLabel (front ++ last) = none := by
  have ends : ((front ++ last).getLast? == some ':') = false := by
    rw [List.getLast?_append_of_ne_nil front nonempty, beq_eq_false_iff_ne]
    exact fun colon => colonless (List.mem_of_getLast? colon)
  rw [readLabel, ends]
  rfl

theorem beginsRemark_eq_false {c : Char} {rest : List Char} (notHash : c ≠ '#') (notSlash : c ≠ '/') :
    beginsRemark (c :: rest) = false := by
  unfold beginsRemark
  split
  next same => exact absurd (List.cons.inj same).1 notHash
  next same => exact absurd (List.cons.inj same).1 notSlash
  next => rfl

theorem readComment_eq_none {c : Char} {rest : List Char} (notHash : c ≠ '#') (notSlash : c ≠ '/')
    (blank : ' ' ∈ rest) : readComment (c :: rest) = none := by
  have other : ∀ mark : List Char, ' ' ∉ mark → c :: rest ≠ mark := by
    rintro mark missing rfl
    exact missing (List.mem_cons_of_mem c blank)
  unfold readComment
  split
  next same => exact absurd (List.cons.inj same).1 notSlash
  next same => exact absurd (List.cons.inj same).1 notHash
  next =>
    have begins := other "begin_main".toList (by decide)
    have ends := other "end_main".toList (by decide)
    simp only [beq_eq_false_iff_ne.mpr begins, beq_eq_false_iff_ne.mpr ends, Bool.or_self]
    rfl

/-- The first words of statements that are no jumps. -/
def verbs : List String :=
  ["astore", "arr_pad_zero", "param", "call", "return", "print", "read"]

/-- The first words of statements other than declarations and assignments. -/
def keywords : List String :=
  "goto" :: "if" :: verbs

theorem oneWord_of_keyword {keyword : String} (known : keyword ∈ keywords) : Text.OneWord keyword.toList := by
  have checked : ∀ k ∈ keywords, k.toList ≠ [] ∧ k.toList.all (!Text.isBlank ·) = true := by decide
  obtain ⟨nonempty, solid⟩ := checked keyword known
  exact ⟨nonempty, fun c member => by simpa using List.all_eq_true.mp solid c member⟩

theorem Passed.of_keyword {keyword : String} (known : keyword ∈ keywords) {middle last : List Char}
    (nonempty : last ≠ []) (colonless : ':' ∉ last) :
    Passed (keyword.toList ++ ' ' :: (middle ++ last)) := by
  -- The first character alone rules out declarations and comments.
  have opens : ∀ k ∈ keywords, k.toList.head?.all (fun c => c.toLower != 'd' && c != '#' && c != '/') = true := by
    decide
  obtain ⟨c, rest, shape⟩ := List.exists_cons_of_ne_nil (oneWord_of_keyword known).nonempty
  obtain ⟨⟨notDeclare, notHash⟩, notSlash⟩ : (c.toLower ≠ 'd' ∧ c ≠ '#') ∧ c ≠ '/' := by
    simpa [shape] using opens keyword known
  have undeclared : ∀ cs, dropDeclare (c :: cs) = none := by
    intro cs
    have stops : dropKeyword ('d' :: "eclare".toList) (c :: cs) = none := by
      rw [dropKeyword, if_neg (by simpa using notDeclare)]
    rw [dropDeclare]
    exact congrArg (Option.bind · _) stops
  have ends : readLabel ((keyword.toList ++ ' ' :: middle) ++ last) = none :=
    readLabel_eq_none nonempty colonless
  refine ⟨?_, ?_, by simpa using ends, ?_⟩
  · rw [shape, List.cons_append, readDeclareArray, undeclared]
    rfl
  · rw [shape, List.cons_append, readDeclare, undeclared]
    rfl
  · rw [shape, List.cons_append]
    exact readComment_eq_none notHash notSlash (by simp)

theorem Passed.of_assignment {t value : List Char} (token : Token t) (nonempty : value ≠ [])
    (colonless : ':' ∉ value) : Passed (t ++ ' ' :: '=' :: ' ' :: value) := by
  have behind : (t ++ ' ' :: '=' :: ' ' :: value).dropWhile (!Text.isBlank ·) =
      ' ' :: '=' :: ' ' :: value := by
    rw [List.dropWhile_append_of_pos fun c member => by simp [token.oneWord.solid c member]]
    rfl
  have ends : readLabel ((t ++ [' ', '=', ' ']) ++ value) = none := readLabel_eq_none nonempty colonless
  refine ⟨readDeclareArray_eq_none ?_, readDeclare_eq_none ?_, by simpa using ends, ?_⟩
  · -- The first character behind the target is the sign of assignment.
    intro blank tail c rest split start
    rw [behind] at split
    cases split
    cases start
    rfl
  · rw [behind]
    simpa using colonless
  · obtain ⟨c, rest, rfl⟩ := List.exists_cons_of_ne_nil token.nonempty
    exact readComment_eq_none (token.ne_of_mem List.mem_cons_self (by decide))
      (token.ne_of_mem List.mem_cons_self (by decide)) (by simp)

theorem readGoto_eq_none {w rest : List Char} (word : Text.OneWord w) (other : w ≠ "goto".toList) :
    readGoto (w ++ ' ' :: rest) = none := by
  rw [readGoto, word.cutWord_append]
  simp only [bne_iff_ne.mpr other, if_true]

theorem readBranch_eq_none {w rest : List Char} (word : Text.OneWord w) (other : w ≠ "if".toList) :
    readBranch (w ++ ' ' :: rest) = none := by
  rw [readBranch, word.cutWord_append]
  simp only [bne_iff_ne.mpr other, if_true]

theorem Passed.readPlain_eq (passed : Passed line) :
    readPlain line = (readGoto line <|> readBranch line) := by
  simp [readPlain, passed.scalar, passed.label, passed.comment]

theorem Passed.readPlain_eq_none {w rest : List Char} (passed : Passed (w ++ ' ' :: rest))
    (word : Text.OneWord w) (notGoto : w ≠ "goto".toList) (notIf : w ≠ "if".toList) :
    readPlain (w ++ ' ' :: rest) = none := by
  rw [passed.readPlain_eq, readGoto_eq_none word notGoto, readBranch_eq_none word notIf]
  rfl

theorem ofChars_of_readPlain (array : readDeclareArray line = none) (read : readPlain line = some s) :
    ofChars line = .ok s := by
  simp [ofChars, array, read]

/-- An assignment to a name that is no declaration, label or remark is read as an assignment. -/
theorem ofChars_of_passed {t value : List Char} (target : Lexeme.isTarget t = true)
    (passed : Passed (t ++ ' ' :: '=' :: ' ' :: value))
    (read : readAssignment false (t ++ ' ' :: '=' :: ' ' :: value) = some reading) :
    ofChars (t ++ ' ' :: '=' :: ' ' :: value) = reading := by
  simp only [Lexeme.isTarget, Bool.and_eq_true, bne_iff_ne] at target
  obtain ⟨⟨name, notGoto⟩, notIf⟩ := target
  have token := Lexeme.token_of_isIdentifier name
  simp [ofChars, passed.array, passed.readPlain_eq_none token.oneWord notGoto notIf, read]

/-- An assignment to a name is read as an assignment. -/
theorem ofChars_assignment {t value : List Char} (target : Lexeme.isTarget t = true) (nonempty : value ≠ [])
    (colonless : ':' ∉ value) (read : readAssignment false (t ++ ' ' :: '=' :: ' ' :: value) = some reading) :
    ofChars (t ++ ' ' :: '=' :: ' ' :: value) = reading :=
  ofChars_of_passed target
    (.of_assignment (Lexeme.token_of_isIdentifier (Lexeme.isIdentifier_of_isTarget target)) nonempty colonless) read

theorem readAssignment_eq_none (missing : '=' ∉ line) (anyTarget : Bool) :
    readAssignment anyTarget line = none := by
  rw [readAssignment, Lexeme.findAssignment_eq_none missing]

/-- A line that begins with a verb, and has no sign of assignment, is read by its first word. -/
theorem ofChars_verb {verb : String} (known : verb ∈ verbs) {middle last : List Char} (ends : Token last)
    (signless : '=' ∉ middle) (shape : line = verb.toList ++ ' ' :: (middle ++ last)) :
    ofChars line = ((readKeyword line).map Except.ok).getD
      ((readCallLine line).getD (.ok (.unsupported (String.ofList line)))) := by
  have checked : ∀ v ∈ verbs, v ≠ "goto" ∧ v ≠ "if" ∧ '=' ∉ v.toList := by decide
  obtain ⟨notGoto, notIf, inVerb⟩ := checked verb known
  have keyword : verb ∈ keywords := List.mem_cons_of_mem _ (List.mem_cons_of_mem _ known)
  have passed : Passed line := shape ▸ Passed.of_keyword keyword ends.nonempty ends.colonless
  have plain : readPlain line = none := by
    subst shape
    exact passed.readPlain_eq_none (oneWord_of_keyword keyword) (mt String.toList_inj.mp notGoto)
      (mt String.toList_inj.mp notIf)
  have unassigned : '=' ∉ line := by
    simp [shape, inVerb, signless, ends.signless]
  simp [ofChars, passed.array, plain, readAssignment_eq_none unassigned]

theorem cutWord_verb {verb : String} (known : verb ∈ verbs) (rest : List Char) :
    Text.cutWord (verb.toList ++ ' ' :: rest) = (verb.toList, Text.strip rest) :=
  (oneWord_of_keyword (List.mem_cons_of_mem _ (List.mem_cons_of_mem _ known))).cutWord_append rest

end Stmt

end MipsLowering
