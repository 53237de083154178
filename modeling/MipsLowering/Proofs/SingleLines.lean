import MipsLowering.Proofs.Reading

/-! # Texts that stay on one line

A line feed ends a line of the listing.  The texts that a statement is read into hold none, if the line of the
statement holds none, and what a node shows on its line is put together from its parts without adding any. -/

namespace MipsLowering

/-! ## Texts -/

namespace Text

/-- A text without line feeds. -/
def OneLine (s : String) : Prop :=
  '\n' ∉ s.toList

instance (s : String) : Decidable (OneLine s) :=
  inferInstanceAs (Decidable ('\n' ∉ s.toList))

/-- Texts without line feeds. -/
def AllOneLine (ss : List String) : Prop :=
  ∀ s ∈ ss, OneLine s

instance (ss : List String) : Decidable (AllOneLine ss) :=
  inferInstanceAs (Decidable (∀ s ∈ ss, OneLine s))

-- Of a text that is given, the characters can be looked at.
@[simp low] theorem oneLine_of_not_mem {s : String} (plain : '\n' ∉ s.toList) : OneLine s :=
  plain

@[simp] theorem oneLine_append {s t : String} : OneLine (s ++ t) ↔ OneLine s ∧ OneLine t := by
  simp [OneLine]

@[simp] theorem oneLine_ofList {cs : List Char} : OneLine (String.ofList cs) ↔ '\n' ∉ cs := by
  simp [OneLine]

@[simp] theorem oneLine_nat (n : Nat) : OneLine n.repr := by
  rw [OneLine, Nat.toList_repr]
  intro member
  cases Nat.isDigit_of_mem_toDigits (by decide) (by decide) member

@[simp] theorem oneLine_int (n : Int) : OneLine n.repr := by
  rw [Int.repr_eq_if]
  split
  · exact oneLine_nat _
  · exact oneLine_append.mpr ⟨by decide, oneLine_nat _⟩

@[simp] theorem allOneLine_nil : AllOneLine [] := by
  simp [AllOneLine]

@[simp] theorem allOneLine_cons {s : String} {ss : List String} :
    AllOneLine (s :: ss) ↔ OneLine s ∧ AllOneLine ss := by
  simp [AllOneLine]

@[simp] theorem allOneLine_append {ss ts : List String} :
    AllOneLine (ss ++ ts) ↔ AllOneLine ss ∧ AllOneLine ts := by
  simp [AllOneLine, or_imp, forall_and]

@[simp] theorem allOneLine_toList {s : Option String} : AllOneLine s.toList ↔ ∀ t ∈ s, OneLine t := by
  simp [AllOneLine]

theorem mem_intercalate {separator : List Char} {pieces : List (List Char)} {c : Char}
    (member : c ∈ separator.intercalate pieces) : c ∈ separator ∨ ∃ piece ∈ pieces, c ∈ piece := by
  rw [List.intercalate, List.mem_flatten] at member
  obtain ⟨part, inParts, member⟩ := member
  induction pieces with
  | nil => cases inParts
  | cons first rest ih =>
    cases rest with
    | nil =>
      obtain rfl := List.mem_singleton.mp inParts
      exact .inr ⟨part, List.mem_cons_self, member⟩
    | cons second rest =>
      rw [List.intersperse_cons_cons, List.mem_cons, List.mem_cons] at inParts
      rcases inParts with rfl | rfl | later
      · exact .inr ⟨part, List.mem_cons_self, member⟩
      · exact .inl member
      · rcases ih later with found | ⟨piece, inRest, found⟩
        · exact .inl found
        · exact .inr ⟨piece, List.mem_cons_of_mem _ inRest, found⟩

theorem oneLine_commaList {ss : List String} (each : AllOneLine ss) : OneLine (commaList ss) := by
  intro inside
  rw [commaList, String.toList_intercalate] at inside
  rcases mem_intercalate inside with member | ⟨piece, member, inside⟩
  · revert member
    decide
  · obtain ⟨s, inList, rfl⟩ := List.mem_map.mp member
    exact each s inList inside

/-- A text stands within another. -/
def Stands (s t : String) : Prop :=
  s.toList <:+: t.toList

theorem Stands.refl (s : String) : Stands s s :=
  List.infix_rfl

theorem Stands.of_isEmpty {s : String} (empty : s.isEmpty = true) (t : String) : Stands s t := by
  obtain rfl := String.isEmpty_iff.mp empty
  exact List.nil_infix

theorem Stands.trans {s t u : String} (first : Stands s t) (second : Stands t u) : Stands s u :=
  List.IsInfix.trans first second

theorem Stands.left {s t : String} (inside : Stands s t) (u : String) : Stands s (t ++ u) := by
  rw [Stands, String.toList_append]
  exact List.IsInfix.trans inside (List.prefix_append _ _).isInfix

theorem Stands.right {s u : String} (inside : Stands s u) (t : String) : Stands s (t ++ u) := by
  rw [Stands, String.toList_append]
  exact List.IsInfix.trans inside (List.suffix_append _ _).isInfix

theorem stands_commaList {s : String} {ss : List String} (member : s ∈ ss) : Stands s (commaList ss) := by
  induction ss with
  | nil => cases member
  | cons first rest ih =>
    cases rest with
    | nil =>
      obtain rfl := List.mem_singleton.mp member
      exact .refl s
    | cons second rest =>
      rw [commaList, String.intercalate_cons_cons, ← commaList]
      rcases List.mem_cons.mp member with rfl | member
      · exact ((Stands.refl s).left _).left _
      · exact (ih member).right _

end Text

/-! ## Nodes -/

open Text (OneLine)

/-- The texts that an instruction puts on its line. -/
def Instr.pieces (i : Instr) : List String :=
  i.op.mnemonic :: (i.op.operands ++ i.comment.toList)

/-- The texts that a directive puts on its line. -/
def Directive.pieces (d : Directive) : List String :=
  d.storage.name :: (d.label.toList ++ d.storage.operands ++ d.comment.toList)

/-- The texts that a node puts on its line. -/
def Node.pieces : Node → List String
  | .instr i => i.pieces
  | .label name => [name]
  | .comment text => [text]
  | .directive d => d.pieces

theorem oneLine_withComment {line : String} {comment : Option String} (plain : OneLine line)
    (noted : ∀ c ∈ comment, OneLine c) : OneLine (withComment line comment) := by
  cases comment with
  | none => exact plain
  | some c =>
    rw [withComment]
    split
    · exact plain
    · simp [plain, noted c rfl]

theorem stands_withComment (line : String) (comment : Option String) : Text.Stands line (withComment line comment) := by
  cases comment with
  | none => exact .refl _
  | some c =>
    rw [withComment]
    split
    · exact .refl _
    · exact (((Text.Stands.refl _).left _).left _).left _

theorem comment_stands (line comment : String) : Text.Stands comment (withComment line (some comment)) := by
  rw [withComment]
  split
  next empty => exact .of_isEmpty empty _
  next => exact (Text.Stands.refl _).right _

theorem oneLine_withOperands {name : String} {operands : List String} (plain : OneLine name)
    (each : Text.AllOneLine operands) : OneLine (withOperands name operands) := by
  simp only [withOperands]
  split
  · exact plain
  · simp [plain, Text.oneLine_commaList each]

theorem stands_withOperands (name : String) (operands : List String) :
    Text.Stands name (withOperands name operands) ∧
      ∀ s ∈ operands, Text.Stands s (withOperands name operands) := by
  simp only [withOperands]
  split
  next empty =>
    -- Operands are left out only if they show nothing, so that each of them is empty.
    refine ⟨.refl _, fun s member => .of_isEmpty ?_ _⟩
    have inside := Text.stands_commaList member
    rw [String.isEmpty_iff.mp empty] at inside
    simpa [Text.Stands] using inside
  next =>
    refine ⟨((Text.Stands.refl _).left _).left _, fun s member => ?_⟩
    exact (Text.stands_commaList member).right _

theorem Instr.oneLine_render {i : Instr} (each : Text.AllOneLine i.pieces) : OneLine i.render := by
  simp only [pieces, Text.allOneLine_cons, Text.allOneLine_append, Text.allOneLine_toList] at each
  obtain ⟨mnemonic, operands, comment⟩ := each
  exact oneLine_withComment (oneLine_withOperands (by simp [mnemonic]) operands) comment

theorem Instr.stands_render {i : Instr} {s : String} (member : s ∈ i.pieces) : Text.Stands s i.render := by
  obtain ⟨name, operands⟩ := stands_withOperands ("\t" ++ i.op.mnemonic) i.op.operands
  simp only [pieces, List.mem_cons, List.mem_append, Option.mem_toList] at member
  rcases member with rfl | operand | noted
  · exact (((Text.Stands.refl _).right _).trans name).trans (stands_withComment _ _)
  · exact (operands s operand).trans (stands_withComment _ _)
  · rw [render, noted]
    exact comment_stands _ s

/-- The line of a directive before its comment. -/
theorem Directive.exists_render (d : Directive) :
    ∃ line, d.render = withComment line d.comment ∧
      Text.Stands (withOperands d.storage.name d.storage.operands) line ∧ (∀ l ∈ d.label, Text.Stands l line) ∧
      (OneLine (withOperands d.storage.name d.storage.operands) → (∀ l ∈ d.label, OneLine l) → OneLine line) := by
  generalize same : withOperands d.storage.name d.storage.operands = body
  cases labelled : d.label with
  | none =>
    refine ⟨"\t" ++ body, by simp only [render, labelled, same], (Text.Stands.refl _).right _, nofun,
      fun plain _ => ?_⟩
    simp [plain]
  | some l =>
    by_cases empty : l.isEmpty = true
    · refine ⟨"\t" ++ body, by simp [render, labelled, same, empty], (Text.Stands.refl _).right _, ?_,
        fun plain _ => ?_⟩
      · rintro _ ⟨⟩
        exact .of_isEmpty empty _
      · simp [plain]
    · refine ⟨l ++ ": " ++ body, by simp [render, labelled, same, empty], (Text.Stands.refl _).right _, ?_,
        fun plain named => ?_⟩
      · rintro _ ⟨⟩
        exact ((Text.Stands.refl _).left _).left _
      · simp [plain, named l rfl]

theorem Directive.oneLine_render {d : Directive} (each : Text.AllOneLine d.pieces) : OneLine d.render := by
  simp only [pieces, Text.allOneLine_cons, Text.allOneLine_append, Text.allOneLine_toList] at each
  obtain ⟨name, ⟨label, operands⟩, comment⟩ := each
  obtain ⟨line, same, -, -, plain⟩ := d.exists_render
  rw [same]
  exact oneLine_withComment (plain (oneLine_withOperands name operands) label) comment

theorem Directive.stands_render {d : Directive} {s : String} (member : s ∈ d.pieces) : Text.Stands s d.render := by
  obtain ⟨line, same, body, labels, -⟩ := d.exists_render
  obtain ⟨name, operands⟩ := stands_withOperands d.storage.name d.storage.operands
  rw [same]
  simp only [pieces, List.mem_cons, List.mem_append, Option.mem_toList] at member
  rcases member with rfl | (labelled | operand) | noted
  · exact (name.trans body).trans (stands_withComment _ _)
  · exact (labels s labelled).trans (stands_withComment _ _)
  · exact ((operands s operand).trans body).trans (stands_withComment _ _)
  · rw [noted]
    exact comment_stands _ s

theorem Node.oneLine_render {n : Node} (each : Text.AllOneLine n.pieces) : OneLine n.render := by
  cases n with
  | instr i => exact Instr.oneLine_render each
  | directive d => exact Directive.oneLine_render each
  | label name => simpa [render, pieces] using each
  | comment text =>
    rw [render]
    split
    · decide
    · simpa [pieces] using each

theorem Node.stands_render {n : Node} {s : String} (member : s ∈ n.pieces) : Text.Stands s n.render := by
  cases n with
  | instr i => exact Instr.stands_render member
  | directive d => exact Directive.stands_render member
  | label name =>
    obtain rfl := List.mem_singleton.mp member
    exact (Text.Stands.refl s).left _
  | comment text =>
    obtain rfl := List.mem_singleton.mp member
    rw [render]
    split
    next empty => exact .of_isEmpty empty _
    next => exact (Text.Stands.refl s).right _

/-! ## Listings -/

theorem intercalate_concat_nil (separator : List Char) {pieces : List (List Char)} (nonempty : pieces ≠ []) :
    separator.intercalate (pieces ++ [[]]) = separator.intercalate pieces ++ separator := by
  induction pieces with
  | nil => exact absurd rfl nonempty
  | cons first rest ih =>
    cases rest with
    | nil => simp [List.intercalate]
    | cons second rest =>
      have later := ih (List.cons_ne_nil _ _)
      simp only [List.intercalate, List.cons_append, List.intersperse_cons_cons, List.flatten_cons] at later ⊢
      rw [later]
      simp

/-- A listing is cut at its line feeds into its lines, if these have none themselves.  Behind the last line feed
    there is nothing. -/
theorem Pass.splitOn_listing {p : Pass} (plain : ∀ line ∈ p.listingLines, OneLine line) :
    p.listing.toList.splitOn '\n' = p.listingLines.map String.toList ++ [[]] := by
  have nonempty : p.listingLines ≠ [] := by simp [listingLines]
  have joined : p.listing.toList = ['\n'].intercalate (p.listingLines.map String.toList ++ [[]]) := by
    rw [intercalate_concat_nil _ (by simpa using nonempty), listing, String.toList_append, String.toList_intercalate]
    rfl
  rw [joined]
  refine List.splitOn_intercalate '\n' (fun piece member => ?_) (by simp)
  rcases List.mem_append.mp member with member | member
  · obtain ⟨line, inLines, rfl⟩ := List.mem_map.mp member
    exact plain line inLines
  · obtain rfl := List.mem_singleton.mp member
    nofun

/-! ## Statements -/

/-- The texts of a statement. -/
def Stmt.pieces : Stmt → List String
  | .declare name typeName _ => name :: typeName.toList
  | .declareArray name _ typeName _ => name :: typeName.toList
  | .label name => [name]
  | .comment text => [text]
  | .goto target => [target]
  | .branch condition target operand2 operator => condition :: target :: (operand2.toList ++ operator.toList)
  | .assign target operand1 operator operand2 =>
    target :: (operand1.toList ++ operator.toList ++ operand2.toList)
  | .arrayLoad target array index => [target, array, index]
  | .arrayStore array index value => [array, index, value]
  | .zeroFill array start stop => [array, start, stop]
  | .param operand => [operand]
  | .call function _ target rawCount => function :: (target.toList ++ rawCount.toList)
  | .ret value => value.toList
  | .print value => [value]
  | .read target => [target]
  | .malformed text reason => [text, reason]
  | .unsupported text => [text]
  | .foreign text => [text]

namespace Stmt

/-- A statement whose texts stay on one line. -/
def OneLine (s : Stmt) : Prop :=
  Text.AllOneLine s.pieces

variable {line : List Char} {s : Stmt}

theorem oneLine_flawed (whole : '\n' ∉ line) (flaw : Flaw) : (flawed line flaw).OneLine := by
  have reason : Text.OneLine flaw.reason := by cases flaw <;> decide
  simp [OneLine, flawed, pieces, whole, reason]

theorem not_mem_strip {cs : List Char} (whole : '\n' ∉ cs) : '\n' ∉ Text.strip cs :=
  fun inside => whole ((strip_isInfix cs).subset inside)

theorem not_mem_cutWord {cs : List Char} (whole : '\n' ∉ cs) : '\n' ∉ (Text.cutWord cs).2 :=
  fun inside => whole ((cutWord_isInfix cs).subset inside)

theorem wordOnly?_eq_some {cs : List Char} {word : String} (read : wordOnly? cs = some word) :
    word = String.ofList cs := by
  unfold wordOnly? at read
  split at read <;> cases read
  rfl

theorem dropBracket_suffix {cs rest : List Char} (dropped : dropBracket cs = some rest) : rest <:+ cs := by
  unfold dropBracket at dropped
  split at dropped
  next start =>
    cases dropped
    exact (List.suffix_cons _ rest).trans (start ▸ stripStart_suffix cs)
  next => cases dropped

theorem readDeclare_oneLine (whole : '\n' ∉ line) (read : readDeclare line = some s) : s.OneLine := by
  simp only [readDeclare, Option.bind_eq_bind, Option.bind_eq_some_iff, Option.pure_def,
    Option.some.injEq] at read
  obtain ⟨⟨_, r₁⟩, declared, r₂, blanks, ⟨name, r₃⟩, named, r₄, colon, typeName, typed, rfl⟩ := read
  have inside : r₂ <:+ line := (dropBlanks_suffix blanks).trans (dropDeclare_suffix declared)
  obtain ⟨front, -, back⟩ := takeSome_spec named
  have first : '\n' ∉ name := fun member => whole (inside.subset (front.subset member))
  have second : '\n' ∉ r₄ := fun member => whole (((dropMark_suffix colon).trans (back.trans inside)).subset member)
  simp [OneLine, pieces, wordOnly?_eq_some typed, first, second]

theorem readDeclareArray_oneLine (whole : '\n' ∉ line) (read : readDeclareArray line = some (.ok s)) : s.OneLine := by
  simp only [readDeclareArray, Option.bind_eq_bind, Option.bind_eq_some_iff, Option.pure_def,
    Option.some.injEq] at read
  obtain ⟨⟨_, r₁⟩, declared, r₂, keyword, r₃, blanks, ⟨name, r₄⟩, named, r₅, bracket, ⟨digits, r₆⟩, taken,
    r₇, closed, r₈, blanks', typeName, typed, read⟩ := read
  have inside : r₃ <:+ line :=
    (dropBlanks_suffix blanks).trans ((dropKeyword_suffix keyword).trans (dropDeclare_suffix declared))
  obtain ⟨front, -, back⟩ := takeSome_spec named
  have first : '\n' ∉ name := fun member => whole (inside.subset (front.subset member))
  have after : r₆ <:+ line :=
    (takeSome_spec taken).2.2.trans ((dropMark_suffix bracket).trans (back.trans inside))
  have second : '\n' ∉ r₈ := fun member =>
    whole (((dropBlanks_suffix blanks').trans ((dropBracket_suffix closed).trans after)).subset member)
  cases number : Text.readNat digits with
  | error fault => rw [number] at read; cases read
  | ok n =>
    rw [number] at read
    cases read
    simp [OneLine, pieces, wordOnly?_eq_some typed, first, second]

theorem readLabel_oneLine (whole : '\n' ∉ line) (read : readLabel line = some s) : s.OneLine := by
  have kept : '\n' ∉ line.dropLast := fun member => whole ((List.dropLast_prefix line).subset member)
  unfold readLabel at read
  split at read
  · cases read
    simp [OneLine, pieces, not_mem_strip kept]
  · cases read

theorem readComment_oneLine (whole : '\n' ∉ line) (read : readComment line = some s) : s.OneLine := by
  unfold readComment at read
  split at read
  next rest =>
    cases read
    have kept : '\n' ∉ rest := fun member => whole (List.mem_cons_of_mem _ (List.mem_cons_of_mem _ member))
    simp [OneLine, pieces, not_mem_strip kept]
  next rest =>
    cases read
    have kept : '\n' ∉ rest := fun member => whole (List.mem_cons_of_mem _ member)
    simp [OneLine, pieces, not_mem_strip kept]
  next =>
    split at read
    · cases read
      simp [OneLine, pieces, whole]
    · cases read

theorem readGoto_oneLine (whole : '\n' ∉ line) (read : readGoto line = some s) : s.OneLine := by
  simp only [readGoto] at read
  split at read
  · cases read
  · split at read
    · cases read
      simp [OneLine, pieces, not_mem_cutWord whole]
    · cases read
      exact oneLine_flawed whole _

theorem not_mem_of_mem_words {cs word : List Char} (member : word ∈ Text.words cs) (whole : '\n' ∉ cs) :
    '\n' ∉ word :=
  fun inside => whole (Text.mem_splitOnP (List.mem_filter.mp member).1 _ inside).1

theorem readCondition_oneLine {condition : List (List Char)} {place : List Char}
    (words : ∀ word ∈ condition, '\n' ∉ word) (target : '\n' ∉ place) : (readCondition condition place).OneLine := by
  unfold readCondition
  split
  next left op right related =>
    obtain rfl := eq_of_relation? related
    simp only [List.forall_mem_cons] at words
    simp [OneLine, pieces, words, target]
  next =>
    -- A condition that is no relation is kept as its words with single blanks between them.
    have joined : '\n' ∉ List.intercalate [' '] condition := by
      intro inside
      rcases Text.mem_intercalate inside with blank | ⟨word, member, inside⟩
      · revert blank
        decide
      · exact words word member inside
    simp [OneLine, pieces, joined, target]

theorem readBranch_oneLine (whole : '\n' ∉ line) (read : readBranch line = some s) : s.OneLine := by
  have words : ∀ word ∈ Text.words (Text.cutWord line).2, '\n' ∉ word :=
    fun word member => not_mem_of_mem_words member (not_mem_cutWord whole)
  simp only [readBranch] at read
  split at read
  · cases read
  · split at read
    · cases read
      exact oneLine_flawed whole _
    next after =>
      split at read
      · cases read
        exact oneLine_flawed whole _
      · split at read
        next place =>
          cases read
          refine readCondition_oneLine (fun word member => words word ((List.takeWhile_prefix _).subset member)) ?_
          exact words place ((List.dropWhile_suffix (· != "goto".toList)).subset (by rw [after]; simp))
        · cases read
          exact oneLine_flawed whole _

theorem readPlain_oneLine (whole : '\n' ∉ line) (read : readPlain line = some s) : s.OneLine := by
  rcases readPlain_cases read with read | read | read | read | read
  · exact readDeclare_oneLine whole read
  · exact readLabel_oneLine whole read
  · exact readComment_oneLine whole read
  · exact readGoto_oneLine whole read
  · exact readBranch_oneLine whole read

theorem not_mem_cutComma {cs : List Char} (whole : '\n' ∉ cs) :
    '\n' ∉ (cutComma cs).1 ∧ ∀ rest, (cutComma cs).2 = some rest → '\n' ∉ rest := by
  refine ⟨?_, fun rest cut inside => ?_⟩
  · unfold cutComma
    split
    · exact whole
    · exact fun inside => whole ((List.takeWhile_prefix _).subset inside)
  · exact whole ((cutComma_suffix (Prod.ext rfl cut)).subset inside)

theorem threeOperands?_oneLine {cs : List Char} {a b c : String} (whole : '\n' ∉ cs)
    (read : threeOperands? cs = some (a, b, c)) : Text.OneLine a ∧ Text.OneLine b ∧ Text.OneLine c := by
  obtain ⟨before, after⟩ := not_mem_cutComma whole
  simp only [threeOperands?] at read
  split at read
  · cases read
  next first rest cut =>
    rw [cut] at before after
    obtain ⟨before', after'⟩ := not_mem_cutComma (after rest rfl)
    split at read
    · cases read
    next second third cut' =>
      rw [cut'] at before' after'
      split at read
      · cases read
      · cases read
        simp [not_mem_strip before, not_mem_strip before', not_mem_strip (after' third rfl)]

theorem readKeyword_oneLine (whole : '\n' ∉ line) (read : readKeyword line = some s) : s.OneLine := by
  have rest : '\n' ∉ (Text.cutWord line).2 := not_mem_cutWord whole
  simp only [readKeyword] at read
  split at read
  · split at read
    next operands =>
      cases read
      simpa [OneLine, pieces] using threeOperands?_oneLine rest operands
    · cases read
      exact oneLine_flawed whole _
  · split at read
    next operands =>
      cases read
      simpa [OneLine, pieces] using threeOperands?_oneLine rest operands
    · cases read
      exact oneLine_flawed whole _
  · split at read
    · cases read
      exact oneLine_flawed whole _
    · cases read
      simp [OneLine, pieces, rest]
  · cases read
    split
    · simp [OneLine, pieces]
    · simp [OneLine, pieces, rest]
  · split at read
    · cases read
      exact oneLine_flawed whole _
    · cases read
      simp [OneLine, pieces, rest]
  · split at read
    · cases read
      simp [OneLine, pieces, rest]
    · cases read
      exact oneLine_flawed whole _
  · cases read

theorem readCall_oneLine {rest : List Char} {target : Option String} (whole : '\n' ∉ line) (inside : '\n' ∉ rest)
    (named : ∀ name ∈ target, Text.OneLine name) (read : readCall line rest target = .ok s) : s.OneLine := by
  obtain ⟨before, after⟩ := not_mem_cutComma inside
  have function : '\n' ∉ Text.strip (cutComma rest).1 := not_mem_strip before
  have count : '\n' ∉ Text.strip ((cutComma rest).2.getD []) := by
    refine not_mem_strip ?_
    cases cut : (cutComma rest).2 with
    | none => nofun
    | some tail => exact after tail cut
  rcases readCall_cases read with rfl | ⟨_, written, rfl, kept⟩
  · exact oneLine_flawed whole _
  · have plain : ∀ raw ∈ written, Text.OneLine raw := fun raw member => by
      rw [kept raw member]
      exact Text.oneLine_ofList.mpr count
    simpa [OneLine, pieces, function] using ⟨named, plain⟩

section

variable {target : String} {value : List Char} (named : Text.OneLine target) (whole : '\n' ∉ value)
include named whole

theorem readBinary_oneLine (read : readBinary target value = some s) : s.OneLine := by
  simp only [readBinary] at read
  split at read
  next left op right found =>
    have words : ∀ word ∈ [left, op, right], '\n' ∉ word :=
      fun word member => not_mem_of_mem_words (found ▸ member) whole
    simp only [List.forall_mem_cons] at words
    split at read <;> cases read
    simp [OneLine, pieces, named, words]
  · cases read

theorem readElement_oneLine (read : readElement target value = some s) : s.OneLine := by
  have array : '\n' ∉ value.takeWhile (· != '[') := fun inside => whole ((List.takeWhile_prefix _).subset inside)
  simp only [readElement] at read
  split at read
  · cases read
  next inner found =>
    split at read <;> cases read
    have tail : inner <:+ value := (List.suffix_cons _ inner).trans (found ▸ List.dropWhile_suffix _)
    have index : '\n' ∉ inner.dropLast :=
      fun inside => whole (tail.subset ((List.dropLast_prefix inner).subset inside))
    simp [OneLine, pieces, named, array, not_mem_strip index]

theorem readUnary_oneLine (read : readUnary target value = some s) : s.OneLine := by
  unfold readUnary at read
  split at read
  next op next rest =>
    have sign : Text.OneLine (String.singleton op) := by
      rw [Text.OneLine, String.toList_singleton, List.mem_singleton]
      exact fun same => whole (same ▸ List.mem_cons_self)
    have operand : '\n' ∉ next :: rest := fun inside => whole (List.mem_cons_of_mem _ inside)
    split at read <;> cases read
    simp [OneLine, pieces, named, sign, not_mem_strip operand]
  · cases read

theorem copy_oneLine : (copy target value).OneLine := by
  simp [OneLine, copy, pieces, named, whole]

theorem readValue_oneLine : (readValue target value).OneLine := by
  rcases readValue_cases target value with copied | binary | element | unary
  · rw [copied]
    exact copy_oneLine named whole
  · exact readBinary_oneLine named whole binary
  · exact readElement_oneLine named whole element
  · exact readUnary_oneLine named whole unary

end

theorem readAssignment_oneLine {anyTarget : Bool} (whole : '\n' ∉ line)
    (read : readAssignment anyTarget line = some (.ok s)) : s.OneLine := by
  simp only [readAssignment] at read
  split at read
  · cases read
  · cases read
  next place _ _ =>
    have target : '\n' ∉ Text.strip (line.take place) :=
      not_mem_strip fun inside => whole ((List.take_prefix _ _).subset inside)
    have value : '\n' ∉ Text.strip (line.drop (place + 1)) :=
      not_mem_strip fun inside => whole ((List.drop_suffix _ _).subset inside)
    split at read
    · cases read
    · split at read
      · cases read
        exact oneLine_flawed whole _
      · split at read
        · refine readCall_oneLine whole (not_mem_cutWord value) ?_ (Option.some.inj read)
          rintro name ⟨⟩
          exact Text.oneLine_ofList.mpr target
        · cases read
          exact readValue_oneLine (Text.oneLine_ofList.mpr target) value

/-- The texts that a line is read into stay on one line. -/
theorem ofChars_oneLine (whole : '\n' ∉ line) (read : ofChars line = .ok s) : s.OneLine := by
  rcases ofChars_cases read with array | ⟨_, plain, same⟩ | ⟨_, assignment⟩ | ⟨_, keyword, same⟩ |
    call | same
  · exact readDeclareArray_oneLine whole array
  · cases same
    exact readPlain_oneLine whole plain
  · exact readAssignment_oneLine whole assignment
  · cases same
    exact readKeyword_oneLine whole keyword
  · simp only [readCallLine] at call
    split at call
    · exact readCall_oneLine whole (not_mem_cutWord whole) (by simp) (Option.some.inj call)
    · cases call
  · cases same
    simp [OneLine, pieces, whole]

end Stmt

/-- A program whose texts stay on one line each. -/
def Program.OneLine (program : Program) : Prop :=
  ∀ l ∈ program, Text.OneLine l.source ∧ l.stmt.OneLine

theorem Program.oneLine_of_ofLines {lines : List String} {program : Program}
    (whole : ∀ line ∈ lines, Text.OneLine (Text.stripped line)) (read : Program.ofLines lines = .ok program) :
    program.OneLine := by
  intro l member
  obtain ⟨line, inLines, made⟩ := exists_of_mapM_ok read l member
  obtain ⟨raw, inRaw, rfl⟩ := List.mem_map.mp (List.mem_filter.mp inLines).1
  have plain := whole raw inRaw
  cases parsed : Stmt.ofLine (Text.stripped raw) with
  | error fault => rw [parsed] at made; cases made
  | ok s =>
    rw [parsed] at made
    cases made
    exact ⟨plain, Stmt.ofChars_oneLine plain parsed⟩

end MipsLowering
