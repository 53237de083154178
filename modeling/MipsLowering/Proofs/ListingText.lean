import MipsLowering.Proofs.FrontEnds
import MipsLowering.Proofs.SingleLines

/-! # A listing is not the text that it was made from

The first line of every listing is no statement, and a program that has this line gets a remark on it.  A remark in
a program is kept as it is.  So the listing of a program has a remark on the first line of listings more often than the
program has it, if the program has that line at all.  A program that were its own listing would have it. -/

namespace MipsLowering

/-! ## Lines of a listing -/

namespace Text

/-- The lines behind a line feed are lines of the whole text. -/
theorem exists_splitLines_append {isBoundary : Char → Bool} (breaks : isBoundary '\n' = true) (cs rest : List Char) :
    ∃ line lines, splitLines isBoundary (cs ++ '\n' :: rest) = line :: (lines ++ splitLines isBoundary rest) := by
  -- The induction follows the cuts of the whole text; the line feed in question is reached when nothing is left of
  -- `cs`.
  generalize whole : cs ++ '\n' :: rest = all
  fun_induction splitLines isBoundary all generalizing cs with
  | case1 => simp at whole
  | case2 behind ih =>
    cases cs with
    | nil => cases whole
    | cons c cs =>
      cases cs with
      | nil =>
        cases whole
        exact ⟨[], [], rfl⟩
      | cons d cs =>
        obtain ⟨-, tail⟩ := List.cons.inj whole
        obtain ⟨line, lines, split⟩ := ih cs (List.cons.inj tail).2
        exact ⟨[], line :: lines, by rw [split]; rfl⟩
  | case3 c behind _ boundary ih =>
    cases cs with
    | nil =>
      cases whole
      exact ⟨[], [], rfl⟩
    | cons d cs =>
      obtain ⟨line, lines, split⟩ := ih cs (List.cons.inj whole).2
      exact ⟨[], line :: lines, by rw [split]; rfl⟩
  -- This case has nothing behind the character, but the line feed is behind it or is the character itself.
  | case4 c behind _ inLine none ih =>
    cases cs with
    | nil =>
      cases whole
      exact absurd breaks inLine
    | cons d cs =>
      obtain ⟨line, lines, split⟩ := ih cs (List.cons.inj whole).2
      rw [none] at split
      cases split
  | case5 c behind _ inLine line lines more ih =>
    cases cs with
    | nil =>
      cases whole
      exact absurd breaks inLine
    | cons d cs =>
      obtain ⟨line', lines', split⟩ := ih cs (List.cons.inj whole).2
      rw [more] at split
      obtain ⟨-, rfl⟩ := List.cons.inj split
      exact ⟨c :: line, lines', rfl⟩

/-- A line without boundaries is a line of a text that goes on behind a line feed. -/
theorem splitLines_append_of_whole {line : List Char} (whole : ∀ c ∈ line, isFileBoundary c = false)
    (rest : List Char) :
    splitLines isFileBoundary (line ++ '\n' :: rest) = line :: splitLines isFileBoundary rest := by
  induction line with
  | nil => rfl
  | cons c line ih =>
    have inLine := whole c List.mem_cons_self
    have alone : ∀ rest', c = '\r' → line ++ '\n' :: rest = '\n' :: rest' → False := by
      rintro rest' rfl -
      cases inLine
    rw [List.cons_append, splitLines_cons alone (by simp), inLine,
      ih fun d member => whole d (List.mem_cons_of_mem c member)]
    rfl

theorem count_le_count_splitLines {line : List Char} (whole : ∀ c ∈ line, isFileBoundary c = false)
    (lines : List (List Char)) :
    lines.count line ≤ (splitLines isFileBoundary (lines.flatMap (· ++ ['\n']))).count line := by
  induction lines with
  | nil => exact Nat.le_refl _
  | cons first lines ih =>
    rw [List.flatMap_cons, List.append_assoc, List.singleton_append]
    by_cases same : first = line
    · rw [same, splitLines_append_of_whole whole, List.count_cons_self, List.count_cons_self]
      exact Nat.succ_le_succ ih
    · obtain ⟨line', lines', split⟩ := exists_splitLines_append (rfl : isFileBoundary '\n' = true) first
        (lines.flatMap (· ++ ['\n']))
      rw [List.count_cons_of_ne same, split, ← List.cons_append, List.count_append]
      exact ih.trans (Nat.le_add_left _ _)

end Text

theorem intercalate_append (separator : List Char) {pieces : List (List Char)} (nonempty : pieces ≠ []) :
    separator.intercalate pieces ++ separator = pieces.flatMap (· ++ separator) := by
  induction pieces with
  | nil => exact absurd rfl nonempty
  | cons first rest ih =>
    cases rest with
    | nil => simp [List.intercalate]
    | cons second rest =>
      have later := ih (List.cons_ne_nil _ _)
      rw [List.flatMap_cons, ← later, List.intercalate_cons_cons, List.append_assoc, List.append_assoc]

theorem Pass.toList_listing (p : Pass) :
    p.listing.toList = (p.listingLines.map String.toList).flatMap (· ++ ['\n']) := by
  have nonempty : p.listingLines.map String.toList ≠ [] := by simp [listingLines]
  rw [listing, String.toList_append, String.toList_intercalate, ← intercalate_append _ nonempty]
  rfl

/-! ## Remarks on the first line -/

/-- The first line of every listing. -/
def headLine : String :=
  ".data"

/-- The remark on the first line of listings. -/
def headRemark : String :=
  (Diagnostic.unsupported headLine).message

/-- The remark as a line of a listing. -/
def remarkLine : String :=
  "# " ++ headRemark

/-- The statements that leave the remark on the first line of listings. -/
def Stmt.leavesRemark (s : Stmt) : Bool :=
  s == .comment headRemark || s == .unsupported headLine

/-- The lines that hold one of these statements. -/
def holdsRemark (line : String) : Bool :=
  line == remarkLine || line == headLine

theorem leavesRemark_of_ofLine {line : String} {s : Stmt} (holds : holdsRemark line = true)
    (read : Stmt.ofLine line = .ok s) : s.leavesRemark = true := by
  have ofRemark : Stmt.ofLine remarkLine = .ok (.comment headRemark) := rfl
  have ofHead : Stmt.ofLine headLine = .ok (.unsupported headLine) := rfl
  simp only [holdsRemark, Bool.or_eq_true, beq_iff_eq] at holds
  rcases holds with rfl | rfl
  · cases ofRemark.symm.trans read
    simp [Stmt.leavesRemark]
  · cases ofHead.symm.trans read
    simp [Stmt.leavesRemark]

namespace Lower

theorem text_of_leavesRemark {s : Stmt} {p r : Pass} (leaves : s.leavesRemark = true)
    (ran : (stmt s).run { p with text := [] } = .ok () r) : r.text = [.comment headRemark] := by
  simp only [Stmt.leavesRemark, Bool.or_eq_true, beq_iff_eq] at leaves
  rcases leaves with rfl | rfl
  all_goals
    cases ran
    rfl

/-- A remark is no instruction and so is not annotated. -/
theorem eq_of_bare_eq_comment {nodes : List Node} {text : String}
    (same : nodes.map Node.bare = [Node.comment text].map Node.bare) : nodes = [.comment text] := by
  obtain ⟨node, rfl, bare⟩ := List.map_eq_singleton_iff.mp same
  cases node <;> cases bare
  rfl

theorem count_remark_line {l : Line} {p q : Pass} (ran : (line l).run p = .ok () q) :
    p.text.count (.comment headRemark) + (if l.stmt.leavesRemark then 1 else 0) ≤
      q.text.count (.comment headRemark) := by
  obtain ⟨r, own, lowered, rfl, bare⟩ := run_line_ok ran
  rw [List.count_append]
  refine Nat.add_le_add_left ?_ _
  split
  next leaves =>
    rw [text_of_leavesRemark leaves lowered] at bare
    rw [eq_of_bare_eq_comment bare, List.count_singleton_self]
  next => exact Nat.zero_le _

theorem count_remark_lines {program : Program} {p q : Pass} (ran : (lines program).run p = .ok () q) :
    p.text.count (.comment headRemark) + program.countP (·.stmt.leavesRemark) ≤
      q.text.count (.comment headRemark) := by
  induction program generalizing p with
  | nil =>
    cases ran
    simp
  | cons l rest ih =>
    obtain ⟨_, r, first, later⟩ := Emit.run_bind_ok.mp ran
    have own := count_remark_line first
    have others := ih later
    rw [List.countP_cons]
    omega

end Lower

theorem countP_leavesRemark_le {config : Config} {program : Program} {listing : String} {p : Pass}
    (lowered : lowerProgram config program = (.ok listing, p)) :
    program.countP (·.stmt.leavesRemark) ≤ p.text.count (.comment headRemark) := by
  obtain ⟨q, ran, -, rfl⟩ := lowerProgram_iff.mp ⟨listing, lowered⟩
  have counted := Lower.count_remark_lines ran
  rw [List.count_append]
  exact (Nat.le_add_left _ _).trans (counted.trans (Nat.le_add_right _ _))

theorem countP_holdsRemark_le {lines : List String} {program : Program}
    (read : (lines.mapM fun line => (Stmt.ofLine line).map (Line.mk line)) = .ok program) :
    lines.countP holdsRemark ≤ program.countP (·.stmt.leavesRemark) := by
  induction lines generalizing program with
  | nil => exact Nat.zero_le _
  | cons line lines ih =>
    rw [List.mapM_cons] at read
    cases first : Stmt.ofLine line with
    | error fault =>
      rw [first] at read
      cases read
    | ok s =>
      cases others : lines.mapM fun line => (Stmt.ofLine line).map (Line.mk line) with
      | error fault =>
        rw [first, others] at read
        cases read
      | ok rest =>
        rw [first, others] at read
        cases read
        have later := ih others
        rw [List.countP_cons, List.countP_cons]
        cases holds : holdsRemark line with
        | false => simpa using Nat.le_add_right_of_le later
        | true =>
          have leaves : s.leavesRemark = true := leavesRemark_of_ofLine holds first
          simpa [leaves] using later

theorem remarkLine_whole : ∀ c ∈ remarkLine.toList, Text.isFileBoundary c = false := by
  have all : remarkLine.toList.all (!Text.isFileBoundary ·) = true := by decide +kernel
  simpa using all

/-- Every remark in the text of a pass has a line of the listing. -/
theorem Pass.count_remark_le (p : Pass) :
    ∃ rest, Text.fileLines p.listing = headLine :: rest ∧
      p.text.count (.comment headRemark) ≤ rest.count remarkLine := by
  let others := p.data.render ++ ["", ".text", ".globl " ++ p.config.entryLabel, p.config.entryLabel ++ ":"] ++
    p.text.map Node.render
  let cut := Text.splitLines Text.isFileBoundary ((others.map String.toList).flatMap (· ++ ['\n']))
  have lines : p.listingLines = headLine :: others := by simp [listingLines, others, headLine]
  have split : Text.fileLines p.listing = headLine :: cut.map String.ofList := by
    have whole : ∀ c ∈ headLine.toList, Text.isFileBoundary c = false := by simp [headLine, Text.isFileBoundary]
    rw [Text.fileLines, toList_listing, lines, List.map_cons, List.flatMap_cons, List.append_assoc,
      List.singleton_append, Text.splitLines_append_of_whole whole, List.map_cons, String.ofList_toList]
  have shown : Node.render (.comment headRemark) = remarkLine := rfl
  have back : String.ofList remarkLine.toList = remarkLine := String.ofList_toList
  refine ⟨_, split, ?_⟩
  calc p.text.count (.comment headRemark)
      ≤ (p.text.map Node.render).count remarkLine := shown ▸ List.count_le_count_map
    _ ≤ others.count remarkLine := by
      rw [List.count_append]
      exact Nat.le_add_left _ _
    _ ≤ (others.map String.toList).count remarkLine.toList := List.count_le_count_map
    _ ≤ cut.count remarkLine.toList := Text.count_le_count_splitLines remarkLine_whole _
    _ ≤ (cut.map String.ofList).count (String.ofList remarkLine.toList) := List.count_le_count_map
    _ = (cut.map String.ofList).count remarkLine := by rw [back]

theorem count_remarkLine_le (lines : List String) :
    lines.count remarkLine ≤ (Stmt.filledLines lines).countP holdsRemark := by
  have stripped : Text.stripped remarkLine = remarkLine := by decide +kernel
  have filled : (!remarkLine.isEmpty) = true := by decide +kernel
  calc lines.count remarkLine
      ≤ (lines.map Text.stripped).count (Text.stripped remarkLine) := List.count_le_count_map
    _ = (Stmt.filledLines lines).count remarkLine := by
      rw [stripped, Stmt.filledLines, List.count_filter]
      exact filled
    _ ≤ (Stmt.filledLines lines).countP holdsRemark := by
      refine List.countP_mono_left fun line _ same => ?_
      rw [holdsRemark, beq_iff_eq.mp same]
      simp

/-- No listing is the text of the program that it was made from. -/
theorem listing_ne_text {config : Config} {text listing : String}
    (lowered : (lowerLines config (Text.fileLines text)).1 = .ok listing) : listing ≠ text := by
  rintro rfl
  cases read : Program.ofLines (Text.fileLines listing) with
  | error fault =>
    rw [lowerLines, read] at lowered
    cases lowered
  | ok program =>
    rw [lowerLines, read] at lowered
    have ends : lowerProgram config program = (.ok listing, (lowerProgram config program).2) := Prod.ext lowered rfl
    obtain ⟨-, spelled⟩ := lowerProgram_eq_ok_iff.mp ends
    obtain ⟨rest, lines, counted⟩ := (lowerProgram config program).2.count_remark_le
    rw [← spelled] at lines
    rw [Program.ofLines, lines] at read
    have filled : Stmt.filledLines (headLine :: rest) = headLine :: Stmt.filledLines rest := rfl
    have remarks := count_remarkLine_le rest
    have held := countP_holdsRemark_le read
    have left := countP_leavesRemark_le ends
    -- The first line leaves a remark in addition to those that the rest of the lines hold.
    rw [filled, List.countP_cons_of_pos rfl] at held
    omega

end MipsLowering
