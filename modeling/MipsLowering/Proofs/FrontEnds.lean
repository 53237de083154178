import Mathlib.Data.List.TakeWhile
import MipsLowering.Front.ProgramFile
import MipsLowering.Front.Request
import MipsLowering.Proofs.Reading
import MipsLowering.Proofs.Utf8

/-! # Programs in files and in requests

A program is read from a file or arrives in a request, and both cut its text into lines.  A request also ends a
line at separators that a file keeps within it.  Blank lines hold no statements and blanks around a statement do
not count, so that this makes a difference only where such a separator stands inside of a statement. -/

namespace MipsLowering

namespace Text

/-! ## Lines -/

/-- A boundary of program text received in one piece that a text file does not know. -/
def isInnerBoundary (c : Char) : Bool :=
  isTextBoundary c && !isFileBoundary c

/-- What is left of lines when blanks around them and blank lines do not count. -/
def filled (lines : List (List Char)) : List (List Char) :=
  (lines.map strip).filter (!·.isEmpty)

/-- Lines cut again at the boundaries that are left inside of them. -/
def cutAgain (lines : List (List Char)) : List (List Char) :=
  lines.flatMap (List.splitOnP isInnerBoundary)

theorem not_boundary_of_mem {isBoundary : Char → Bool} {cs line : List Char}
    (member : line ∈ splitLines isBoundary cs) : ∀ c ∈ line, isBoundary c = false := by
  fun_induction splitLines isBoundary cs generalizing line with
  | case1 => cases member
  | case2 rest ih | case3 c rest _ _ ih =>
    rcases List.mem_cons.mp member with rfl | member
    · simp
    · exact ih member
  | case4 c rest _ inside _ _ =>
    obtain rfl := List.mem_singleton.mp member
    simpa using inside
  | case5 c rest _ inside first others lines ih =>
    rw [lines] at ih
    rcases List.mem_cons.mp member with rfl | member
    · intro d inLine
      rcases List.mem_cons.mp inLine with rfl | inLine
      · simpa using inside
      · exact ih List.mem_cons_self d inLine
    · exact ih (List.mem_cons_of_mem _ member)

theorem splitLines_eq_nil {isBoundary : Char → Bool} {cs : List Char}
    (empty : splitLines isBoundary cs = []) : cs = [] := by
  fun_induction splitLines isBoundary cs with
  | case1 => rfl
  | _ => cases empty

theorem splitLines_cons {isBoundary : Char → Bool} {c : Char} {rest : List Char}
    (alone : ∀ rest', c = '\r' → rest = '\n' :: rest' → False) (filled : rest ≠ []) :
    splitLines isBoundary (c :: rest) =
      if isBoundary c then [] :: splitLines isBoundary rest
      else (splitLines isBoundary rest).modifyHead (c :: ·) := by
  rw [splitLines.eq_3 _ _ _ alone]
  cases lines : splitLines isBoundary rest with
  | nil => exact absurd (splitLines_eq_nil lines) filled
  | cons line lines => rfl

/-- Lines are those of others, cut again.  A boundary at the very end leaves an empty piece more. -/
def Recut (pieces lines : List (List Char)) : Prop :=
  pieces = cutAgain lines ∨ pieces ++ [[]] = cutAgain lines

theorem cutAgain_cons (line : List Char) (lines : List (List Char)) :
    cutAgain (line :: lines) = line.splitOnP isInnerBoundary ++ cutAgain lines :=
  List.flatMap_cons

theorem Recut.cons_nil {pieces lines : List (List Char)} (recut : Recut pieces lines) :
    Recut ([] :: pieces) ([] :: lines) := by
  rw [Recut, cutAgain_cons, List.splitOnP_nil]
  rcases recut with same | same
  · exact .inl (by rw [same]; rfl)
  · exact .inr (by rw [← same]; rfl)

/-- A character in front of a line ends a piece or goes to the first piece. -/
theorem Recut.cons {pieces lines : List (List Char)} {line : List Char} (recut : Recut pieces (line :: lines))
    (filled : pieces ≠ []) (c : Char) :
    Recut (if isInnerBoundary c then [] :: pieces else pieces.modifyHead (c :: ·)) ((c :: line) :: lines) := by
  rw [Recut, cutAgain_cons] at recut ⊢
  rw [List.splitOnP_cons_eq_if_modifyHead]
  cases inner : isInnerBoundary c with
  | true =>
    rcases recut with same | same
    · exact .inl (by rw [same]; rfl)
    · exact .inr (by simp [← same])
  | false =>
    obtain ⟨first, others, cut⟩ := List.exists_cons_of_ne_nil (List.splitOnP_ne_nil isInnerBoundary line)
    obtain ⟨piece, more, rfl⟩ := List.exists_cons_of_ne_nil filled
    rw [cut] at recut ⊢
    simpa using recut

theorem isTextBoundary_eq {c : Char} (inLine : isFileBoundary c = false) :
    isTextBoundary c = isInnerBoundary c := by
  simp [isInnerBoundary, inLine]

/-- The lines of a request are those of a file, cut again. -/
theorem recut_splitLines (cs : List Char) :
    Recut (splitLines isTextBoundary cs) (splitLines isFileBoundary cs) := by
  fun_induction splitLines isFileBoundary cs with
  | case1 => exact .inl rfl
  | case2 rest ih =>
    rw [splitLines]
    exact ih.cons_nil
  | case3 c rest alone boundary ih =>
    have both : isTextBoundary c = true := by rw [isTextBoundary, boundary]; rfl
    rw [splitLines.eq_3 _ _ _ alone, if_pos both]
    exact ih.cons_nil
  -- A boundary of requests that a file keeps in its line ends the text here, or is followed by more of the line.
  | case4 c rest alone inLine last ih =>
    obtain rfl := splitLines_eq_nil last
    rw [splitLines.eq_3 _ _ _ alone, isTextBoundary_eq (by simpa using inLine)]
    cases inner : isInnerBoundary c with
    | true => exact .inr (by simp [splitLines, cutAgain, List.splitOnP_cons_eq_if_modifyHead, inner])
    | false => exact .inl (by simp [splitLines, cutAgain, List.splitOnP_cons_eq_if_modifyHead, inner])
  | case5 c rest alone inLine line lines more ih =>
    have filled : rest ≠ [] := by
      rintro rfl
      cases more
    rw [more] at ih
    rw [splitLines_cons alone filled, isTextBoundary_eq (by simpa using inLine)]
    exact ih.cons (fun empty => filled (splitLines_eq_nil empty)) c

/-! ## Filled lines -/

theorem stripEnd_append_of_blank {cs blanks : List Char} (blank : ∀ c ∈ blanks, isBlank c = true) :
    stripEnd (cs ++ blanks) = stripEnd cs := by
  rw [stripEnd, List.reverse_append, List.dropWhile_append_of_pos (by simpa using blank), stripEnd]

theorem strip_append_of_blank {cs blanks : List Char} (blank : ∀ c ∈ blanks, isBlank c = true) :
    strip (cs ++ blanks) = strip cs := by
  rw [strip, stripStart, List.dropWhile_append]
  split
  next empty =>
    have none : blanks.dropWhile isBlank = [] := List.dropWhile_eq_nil_iff.mpr blank
    rw [none, strip, stripStart, List.isEmpty_iff.mp empty]
  next => exact stripEnd_append_of_blank blank

/-- A text is what is left of it with the blanks that were taken from its ends. -/
theorem exists_strip (cs : List Char) : ∃ front back, cs = front ++ (strip cs ++ back) ∧
    (∀ c ∈ front, isBlank c = true) ∧ ∀ c ∈ back, isBlank c = true := by
  refine ⟨cs.takeWhile isBlank, ((stripStart cs).reverse.takeWhile isBlank).reverse, ?_, ?_, ?_⟩
  · have back : stripStart cs =
        stripEnd (stripStart cs) ++ ((stripStart cs).reverse.takeWhile isBlank).reverse := by
      rw [stripEnd, ← List.reverse_append, List.takeWhile_append_dropWhile, List.reverse_reverse]
    rw [strip, ← back]
    exact List.takeWhile_append_dropWhile.symm
  · exact fun c member => List.mem_takeWhile_imp member
  · exact fun c member => List.mem_takeWhile_imp (List.mem_reverse.mp member)

theorem filled_append (first second : List (List Char)) :
    filled (first ++ second) = filled first ++ filled second := by
  simp [filled]

theorem filled_cons (line : List Char) (lines : List (List Char)) :
    filled (line :: lines) = filled [line] ++ filled lines :=
  filled_append [line] lines

/-- Lines are as filled as what is left of them without the blanks around. -/
theorem filled_congr {line other : List Char} (same : strip line = strip other) :
    filled [line] = filled [other] := by
  simp [filled, same]

theorem filled_eq_nil {lines : List (List Char)} (blank : ∀ line ∈ lines, ∀ c ∈ line, isBlank c = true) :
    filled lines = [] := by
  refine List.filter_eq_nil_iff.mpr fun line member => ?_
  obtain ⟨whole, inLines, rfl⟩ := List.mem_map.mp member
  have empty : strip ([] ++ whole) = [] := strip_append_of_blank (blank whole inLines)
  rw [List.nil_append] at empty
  simp [empty]

/-- Cutting blanks off the front of a line changes nothing. -/
theorem filled_splitOnP_cons {c : Char} (blank : isBlank c = true) (cs : List Char) :
    filled ((c :: cs).splitOnP isInnerBoundary) = filled (cs.splitOnP isInnerBoundary) := by
  rw [List.splitOnP_cons_eq_if_modifyHead]
  split
  · rfl
  · obtain ⟨first, others, cut⟩ := List.exists_cons_of_ne_nil (List.splitOnP_ne_nil isInnerBoundary cs)
    rw [cut, List.modifyHead_cons, filled_cons, filled_cons first,
      filled_congr (strip_cons_of_isBlank blank first)]

theorem splitOnP_append {core : List Char} (rest : List Char)
    (whole : ∀ c ∈ core, isInnerBoundary c = false) :
    (core ++ rest).splitOnP isInnerBoundary = (rest.splitOnP isInnerBoundary).modifyHead (core ++ ·) := by
  induction core with
  | nil =>
    obtain ⟨first, others, cut⟩ := List.exists_cons_of_ne_nil (List.splitOnP_ne_nil isInnerBoundary rest)
    rw [List.nil_append, cut]
    rfl
  | cons c core ih =>
    rw [List.cons_append, List.splitOnP_cons_eq_if_modifyHead, whole c List.mem_cons_self,
      ih fun d member => whole d (List.mem_cons_of_mem c member)]
    cases rest.splitOnP isInnerBoundary <;> rfl

/-- A line without boundaries inside of it is the only filled piece of itself. -/
theorem filled_splitOnP {line : List Char} (whole : ∀ c ∈ strip line, isInnerBoundary c = false) :
    filled (line.splitOnP isInnerBoundary) = filled [line] := by
  obtain ⟨front, back, parts, frontBlank, backBlank⟩ := exists_strip line
  generalize strip line = core at whole parts
  subst parts
  induction front with
  | nil =>
    obtain ⟨first, others, cut⟩ := List.exists_cons_of_ne_nil (List.splitOnP_ne_nil isInnerBoundary back)
    have pieces : ∀ piece ∈ first :: others, ∀ c ∈ piece, isBlank c = true := fun piece member c inPiece =>
      backBlank c (mem_splitOnP (cut ▸ member) c inPiece).1
    have rest : filled others = [] :=
      filled_eq_nil fun piece member => pieces piece (List.mem_cons_of_mem _ member)
    rw [List.nil_append, splitOnP_append back whole, cut, List.modifyHead_cons, filled_cons, rest,
      List.append_nil]
    exact filled_congr (by rw [strip_append_of_blank (pieces first List.mem_cons_self),
      strip_append_of_blank backBlank])
  | cons c front ih =>
    have blank := frontBlank c List.mem_cons_self
    rw [List.cons_append, filled_splitOnP_cons blank,
      ih fun d member => frontBlank d (List.mem_cons_of_mem c member)]
    exact (filled_congr (strip_cons_of_isBlank blank _)).symm

theorem filled_splitLines_text (cs : List Char) :
    filled (splitLines isTextBoundary cs) = filled (cutAgain (splitLines isFileBoundary cs)) := by
  rcases recut_splitLines cs with same | same
  · rw [same]
  · rw [← same, filled_append]
    exact (List.append_nil _).symm

/-- Two ways to cut a text into lines agree, but for blanks, if and only if no line of the text file holds a
    boundary of the other kind between its first and its last character. -/
theorem filled_splitLines_iff (cs : List Char) :
    filled (splitLines isTextBoundary cs) = filled (splitLines isFileBoundary cs) ↔
      ∀ line ∈ filled (splitLines isFileBoundary cs), ∀ c ∈ line, isTextBoundary c = false := by
  constructor
  · intro same line member c inLine
    rw [← same] at member
    obtain ⟨whole, isLine, rfl⟩ := List.mem_map.mp (List.mem_filter.mp member).1
    exact not_boundary_of_mem isLine c ((Stmt.strip_isInfix whole).subset inLine)
  -- A line without such a boundary stays whole when it is cut again.
  · intro unbroken
    rw [filled_splitLines_text]
    generalize splitLines isFileBoundary cs = lines at unbroken
    induction lines with
    | nil => rfl
    | cons line lines ih =>
      have whole : ∀ c ∈ strip line, isInnerBoundary c = false := by
        intro c member
        have kept : strip line ∈ filled (line :: lines) :=
          List.mem_filter.mpr ⟨List.mem_map_of_mem List.mem_cons_self, by
            simpa [List.isEmpty_iff] using List.ne_nil_of_mem member⟩
        rw [isInnerBoundary, unbroken _ kept c member]
        rfl
      have later : ∀ other ∈ filled lines, ∀ c ∈ other, isTextBoundary c = false := by
        intro other member
        rw [filled_cons] at unbroken
        exact unbroken other (List.mem_append_right _ member)
      rw [cutAgain_cons, filled_append, filled_splitOnP whole, ih later, ← filled_cons]

end Text

/-! ## Front ends -/

theorem filledLines_map_ofList (lines : List (List Char)) :
    Stmt.filledLines (lines.map String.ofList) = (Text.filled lines).map String.ofList := by
  have stripped : (lines.map String.ofList).map Text.stripped = (lines.map Text.strip).map String.ofList := by
    simp [Text.stripped]
  rw [Stmt.filledLines, stripped, List.filter_map, Text.filled]
  congr 2
  funext line
  cases line <;> simp

/-- A text in which no statement is broken by a boundary that only requests know. -/
def Text.Unbroken (code : String) : Prop :=
  ∀ line ∈ Stmt.filledLines (fileLines code), ∀ c ∈ line.toList, isTextBoundary c = false

/-- Files and requests are cut into the same statements exactly if none is broken. -/
theorem filledLines_textLines_iff (code : String) :
    Stmt.filledLines (Text.textLines code) = Stmt.filledLines (Text.fileLines code) ↔ Text.Unbroken code := by
  rw [Text.Unbroken, Text.textLines, Text.fileLines, filledLines_map_ofList, filledLines_map_ofList,
    List.map_inj_right fun _ _ => String.ofList_inj.mp, Text.filled_splitLines_iff]
  simp

/-- A request that names no settings gets the default ones. -/
theorem Request.answer_of_lowered {code : String} {result : Except Fault String} {p : Pass}
    (lowered : lowerLines (Config.standard false) (Text.textLines code) = (result, p)) :
    (∀ listing, result = .ok listing →
      ({ code := code } : Request).answer = .ok (.lowered listing p.diagnosticMessages p.statistics)) ∧
    ∀ fault, result = .error fault →
      ({ code := code } : Request).answer =
        if fault.isReported then .ok (.failed (p.diagnosticMessages ++ [fault.message]))
        else .error fault := by
  have settings : ({ code := code } : Request).settings.check = .ok (Config.standard false) := rfl
  rw [Request.answer, settings]
  simp only [lowered]
  exact ⟨fun listing same => by rw [same], fun fault same => by rw [same]⟩

/-- A program is lowered from its statements alone. -/
theorem lowerLines_congr {config : Config} {lines others : List String}
    (same : Stmt.filledLines lines = Stmt.filledLines others) :
    lowerLines config lines = lowerLines config others := by
  rw [lowerLines, lowerLines, Program.ofLines, Program.ofLines, same]

/-- The file at a path is read as the text that its bytes spell. -/
theorem FileTree.read_eq {t : FileTree} {path code : String}
    (holds : t.readBytes path = .ok (Text.encodeUtf8 code)) : t.read path = .ok code := by
  rw [FileTree.read, holds]
  show (Text.decodeUtf8 (Text.encodeUtf8 code)).mapError ReadFault.utf8 = _
  rw [Text.decodeUtf8_encodeUtf8]
  rfl

theorem FileTree.lowerFile_eq {t : FileTree} {config : Config} {path code : String}
    (holds : t.readBytes path = .ok (Text.encodeUtf8 code)) :
    t.lowerFile config path =
      ((lowerLines config (Text.fileLines code)).1.mapError .lower,
        (lowerLines config (Text.fileLines code)).2) := by
  rw [lowerFile, FileTree.read_eq holds]

/-- A request for a program is answered with what comes of the file that holds it, unless a statement is broken by a
    boundary that only requests know: the listing, the diagnostics and the statistics if the pass succeeds, and
    the fault otherwise.  Where a statement is broken, the two are cut into different statements. -/
theorem request_answers_as_file {t : FileTree} {path code : String}
    (holds : t.readBytes path = .ok (Text.encodeUtf8 code)) :
    (Stmt.filledLines (Text.textLines code) = Stmt.filledLines (Text.fileLines code) ↔
        Text.Unbroken code) ∧
      (Text.Unbroken code →
        (∀ listing p, t.lowerFile (Config.standard false) path = (.ok listing, p) →
          ({ code := code } : Request).answer = .ok (.lowered listing p.diagnosticMessages p.statistics)) ∧
        ∀ fault p, t.lowerFile (Config.standard false) path = (.error fault, p) →
          ∃ reason, fault = .lower reason ∧
            ({ code := code } : Request).answer =
              if reason.isReported then .ok (.failed (p.diagnosticMessages ++ [reason.message]))
              else .error reason) := by
  refine ⟨filledLines_textLines_iff code, fun unbroken => ?_⟩
  have same : lowerLines (Config.standard false) (Text.textLines code) =
      lowerLines (Config.standard false) (Text.fileLines code) :=
    lowerLines_congr ((filledLines_textLines_iff code).mpr unbroken)
  rw [FileTree.lowerFile_eq holds, ← same]
  cases lowered : lowerLines (Config.standard false) (Text.textLines code) with
  | mk result p =>
    obtain ⟨succeeds, fails⟩ := Request.answer_of_lowered lowered
    cases result with
    | ok listing =>
      refine ⟨?_, fun fault q outcome => by cases outcome⟩
      rintro _ _ ⟨⟩
      exact succeeds listing rfl
    | error reason =>
      refine ⟨fun listing q outcome => (by cases outcome), ?_⟩
      rintro _ _ ⟨⟩
      exact ⟨reason, rfl, fails reason rfl⟩

/-- A program with carriage returns, characters of several bytes, and boundaries at the end of a line and on a
    line of their own. -/
def sparseText : String :=
  "declare x:int\r\nx = 2\u000B\r\n\u2028\rprint \"\u00E9😀\"\u0085\nprint x"

theorem sparseText_answers_as_file :
    ∃ listing p,
      (FileTree.empty.makeFile "sparse" (Text.encodeUtf8 sparseText)).lowerFile (Config.standard false) "sparse" =
        (.ok listing, p) ∧
      ({ code := sparseText } : Request).answer = .ok (.lowered listing p.diagnosticMessages p.statistics) := by
  have reads : ∀ bytes, (FileTree.empty.makeFile "sparse" bytes).readBytes "sparse" = .ok bytes :=
    fun _ => rfl
  have holds := reads (Text.encodeUtf8 sparseText)
  have checked : (Stmt.filledLines (Text.fileLines sparseText)).all
      (·.toList.all (!Text.isTextBoundary ·)) = true := by
    decide +kernel
  have unbroken : Text.Unbroken sparseText := fun line member c inside => by
    simpa using List.all_eq_true.mp (List.all_eq_true.mp checked line member) c inside
  have runs : (lowerLines (Config.standard false) (Text.fileLines sparseText)).1.isOk = true := by
    decide +kernel
  obtain ⟨-, agrees⟩ := request_answers_as_file holds
  rw [FileTree.lowerFile_eq holds] at agrees ⊢
  cases lowered : lowerLines (Config.standard false) (Text.fileLines sparseText) with
  | mk result p =>
    rw [lowered] at agrees runs
    cases result with
    | error fault => cases runs
    | ok listing => exact ⟨listing, p, rfl, (agrees unbroken).1 listing p rfl⟩

/-- A statement that is broken. -/
def brokenText : String :=
  "print \"a\u2028b\""

/-- In a file the text is printed as a whole.  In a request its first half is taken for a name, and its second
    half for a statement that is not known. -/
theorem brokenText_answers_differ :
    ((FileTree.empty.makeFile "broken" (Text.encodeUtf8 brokenText)).lowerFile (Config.standard false)
        "broken").1.toOption =
      some (".data\nstr_lit_0: .asciiz \"a\u2028b\"\n\n.text\n.globl main\nmain:\n" ++
        "\tla $a0, str_lit_0      # print \"a\u2028b\"\n\tli $v0, 4\n" ++
        "\tsyscall                # print \"a\u2028b\"\n# program exit\n\tli $v0, 10\n\tsyscall\n") ∧
    ({ code := brokenText } : Request).answer.toOption =
      some (.lowered (".data\n\n.text\n.globl main\nmain:\n" ++
        "\tmove $a0, $s0          # print \"a\n\tli $v0, 4\n\tsyscall                # print \"a\n" ++
        "# unsupported instruction: b\"\n# program exit\n\tli $v0, 10\n\tsyscall\n")
        ["unsupported instruction: b\""] ⟨5, 0, 0, 0, 1, false, [], 1⟩) := by
  decide +kernel

end MipsLowering
