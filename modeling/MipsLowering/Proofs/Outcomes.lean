import MipsLowering.Proofs.Labels
import MipsLowering.Proofs.Reading

/-! # How a pass over lines of text ends

Lines of text are lowered unless one of four things happens: a numeral has too many digits to be read, a
number has too many digits to be written, an element is read without an index, or the labels are checked
strictly and one is missing.  Which of them it is depends on what comes first. -/

namespace MipsLowering

/-! ## Causes -/

namespace Stmt

/-- A read of an array element without an index. -/
def isUnindexed : Stmt → Bool
  | .arrayLoad _ _ index => index.isEmpty
  | _ => false

/-- A statement with a number that has too many digits to be written, in a program in which `history`
    stands before it. -/
def Oversized (config : Config) (history : List Stmt) (s : Stmt) : Prop :=
  s.Breaks config history ∧ s.breakage = .numeral .write

variable {config : Config} {history : List Stmt} {s : Stmt}

theorem breakage_cases (s : Stmt) : s.breakage = .emptyName ∨ s.breakage = .numeral .write := by
  cases s with
  | arrayLoad target array index => exact .inl rfl
  | _ => exact .inr rfl

theorem isUnindexed_iff (filled : s.Filled) :
    s.isUnindexed = true ↔ s.Breaks config history ∧ s.breakage = .emptyName := by
  cases s with
  | arrayLoad target array index =>
    have empty : index = "" ↔ ¬ Text.Filled index := by
      constructor
      · rintro rfl isFilled
        exact isFilled rfl
      · intro blank
        by_contra given
        exact blank (filled.2 given)
    simpa [isUnindexed, Breaks, breakage] using empty
  | _ => simp [isUnindexed, breakage]

end Stmt

namespace Program

/-- No statement has a number that has too many digits to be written. -/
def Sized (config : Config) (program : Program) : Prop :=
  ∀ before l after, program = before ++ l :: after → ¬ l.stmt.Oversized config (before.map Line.stmt)

/-- No array element is read without an index. -/
def Indexed (program : Program) : Prop :=
  ∀ l ∈ program, l.stmt.isUnindexed = false

/-- Labels are checked strictly, and one that is used is nowhere defined. -/
def Misses (config : Config) (program : Program) : Prop :=
  config.strictLabels = true ∧
    ∃ label ∈ program.filterMap (·.stmt.usedLabel?), label ∉ program.filterMap (·.stmt.definedLabel?)

variable {config : Config} {program : Program}

theorem sized_iff : program.Sized config ↔ ∀ before l after, program = before ++ l :: after →
    l.stmt.Breaks config (before.map Line.stmt) → l.stmt.breakage = .emptyName := by
  refine forall_congr' fun before => forall_congr' fun l => forall₂_congr fun after _ => ?_
  rcases l.stmt.breakage_cases with empty | long
  · simp [Stmt.Oversized, empty]
  · simp [Stmt.Oversized, long]

theorem indexed_iff (filled : ∀ l ∈ program, l.stmt.Filled) :
    program.Indexed ↔ ∀ before l after, program = before ++ l :: after →
      l.stmt.Breaks config (before.map Line.stmt) → l.stmt.breakage = .numeral .write := by
  constructor
  · rintro indexed before l after rfl breaks
    have member : l ∈ before ++ l :: after := by simp
    rcases l.stmt.breakage_cases with empty | long
    · have unindexed := (Stmt.isUnindexed_iff (filled l member)).mpr ⟨breaks, empty⟩
      rw [indexed l member] at unindexed
      cases unindexed
    · exact long
  · intro long l member
    rw [← Bool.not_eq_true]
    intro unindexed
    obtain ⟨before, after, split⟩ := List.append_of_mem member
    obtain ⟨breaks, empty⟩ := (Stmt.isUnindexed_iff (filled l member)).mp unindexed
    have other := long before l after split breaks
    rw [empty] at other
    cases other

theorem unbroken_iff (filled : ∀ l ∈ program, l.stmt.Filled) :
    (∀ before l after, program = before ++ l :: after →
      ¬ l.stmt.Breaks config (before.map Line.stmt)) ↔ program.Indexed ∧ program.Sized config := by
  rw [indexed_iff filled, sized_iff]
  constructor
  · intro holds
    constructor
    · exact fun before l after split breaks => absurd breaks (holds before l after split)
    · exact fun before l after split breaks => absurd breaks (holds before l after split)
  · rintro ⟨long, empty⟩ before l after split breaks
    have both := (long before l after split breaks).symm.trans (empty before l after split breaks)
    cases both

end Program

/-! ## Passes -/

theorem Lower.run_checkLabels_error_iff {p q : Pass} {fault : Fault} :
    checkLabels.run p = .error fault q ↔
      p.config.strictLabels = true ∧ p.labels.undefined ≠ [] ∧
        fault = .undefinedLabels p.labels.undefined ∧ q = p := by
  simp only [checkLabels, Emit.run_bind, Emit.run_get, LabelTable.validate]
  cases p.labels.undefined with
  | nil => simp
  | cons label rest =>
    cases p.config.strictLabels with
    | false => simp [Emit.warn]
    | true =>
      simp only [if_true, Emit.run_bind, Emit.run_throw, EStateM.Result.error.injEq, true_and, ne_eq,
        reduceCtorEq, not_false_eq_true]
      exact and_congr eq_comm eq_comm

section

variable {config : Config} {program : Program}

/-- A pass ends in the fault of a line, or behind the last line in the fault that names the missing
    labels. -/
theorem lowerProgram_error_iff {fault : Fault} :
    (lowerProgram config program).1 = .error fault ↔
      (∃ q, (Lower.lines program).run (Pass.ready config program) = .error fault q) ∨
      ∃ q, (Lower.lines program).run (Pass.ready config program) = .ok () q ∧
        q.config.strictLabels = true ∧ q.labels.undefined ≠ [] ∧
        fault = .undefinedLabels q.labels.undefined := by
  have outcome : (lowerProgram config program).1 = .error fault ↔
      ∃ q, (Lower.program program).run (Pass.start config) = .error fault q := by
    simp only [lowerProgram, Pass.perform]
    cases (Lower.program program).run (Pass.start config) <;> simp
  rw [outcome, Lower.run_program]
  cases (Lower.lines program).run (Pass.ready config program) with
  | error fault' q => simp
  | ok a q => simp [Lower.run_checkLabels_error_iff]

theorem lowerProgram_ok_iff :
    (∃ listing, (lowerProgram config program).1 = .ok listing) ↔
      ∃ q, (Lower.lines program).run (Pass.ready config program) = .ok () q ∧
        (q.config.strictLabels = true → q.labels.undefined = []) := by
  constructor
  · rintro ⟨listing, succeeded⟩
    obtain ⟨q, ran, found, -⟩ := lowerProgram_iff.mp ⟨listing, Prod.ext succeeded rfl⟩
    exact ⟨q, ran, found⟩
  · rintro ⟨q, ran, found⟩
    obtain ⟨listing, succeeded⟩ := lowerProgram_iff.mpr ⟨q, ran, found, rfl⟩
    exact ⟨listing, by rw [succeeded]⟩

/-- The labels that are missing behind the lines of a program. -/
theorem undefined_lines {q : Pass}
    (ran : (Lower.lines program).run (Pass.ready config program) = .ok () q) :
    q.labels.undefined ≠ [] ↔
      ∃ label ∈ program.filterMap (·.stmt.usedLabel?), label ∉ program.filterMap (·.stmt.definedLabel?) := by
  obtain ⟨numbers, accounts⟩ := accounts_lines ran
  have members := accounts.undefined_iff (mem_named program)
  rw [List.filterMap_map, List.filterMap_map] at members
  constructor
  · intro nonempty
    obtain ⟨label, member⟩ := List.exists_mem_of_ne_nil _ nonempty
    exact ⟨label, (members label).mp member⟩
  · rintro ⟨label, missing⟩
    exact List.ne_nil_of_mem ((members label).mpr missing)

/-! ### Programs without blank operands -/

variable (filled : ∀ l ∈ program, l.stmt.Filled)

include filled

theorem lines_ok_iff :
    (∃ q, (Lower.lines program).run (Pass.ready config program) = .ok () q) ↔
      program.Indexed ∧ program.Sized config := by
  rw [Lower.lines_succeed_iff (Pass.after_ready config program) filled, ← Program.unbroken_iff filled]
  simp only [List.nil_append]

theorem misses_iff {q : Pass}
    (ran : (Lower.lines program).run (Pass.ready config program) = .ok () q) :
    q.config.strictLabels = true ∧ q.labels.undefined ≠ [] ↔ program.Misses config := by
  rw [(Lower.lines_ok (Pass.after_ready config program) filled ran).config, undefined_lines ran]
  rfl

/-- A fault other than that of missing labels is that of the first line that breaks the pass. -/
theorem lowerProgram_fails_iff {fault : Fault} (ofLine : ∀ labels, fault ≠ .undefinedLabels labels) :
    (lowerProgram config program).1 = .error fault ↔
      ∃ before l after, program = before ++ l :: after ∧
        l.stmt.Breaks config (before.map Line.stmt) ∧ l.stmt.breakage = fault ∧
        ∀ before' l' after', before = before' ++ l' :: after' →
          l'.stmt.Breaks config (before'.map Line.stmt) → l'.stmt.breakage = fault := by
  have first : (∃ q, (Lower.lines program).run (Pass.ready config program) = .error fault q) ↔ _ :=
    Lower.lines_fail_iff (Pass.after_ready config program) filled
  simp only [List.nil_append] at first
  rw [lowerProgram_error_iff, ← first]
  constructor
  · rintro (failed | ⟨q, -, -, -, rfl⟩)
    · exact failed
    · exact absurd rfl (ofLine _)
  · exact .inl

theorem lowerProgram_emptyName_iff :
    (lowerProgram config program).1 = .error .emptyName ↔
      ∃ before l after, program = before ++ l :: after ∧ l.stmt.isUnindexed = true ∧
        Program.Sized config before := by
  rw [lowerProgram_fails_iff filled (by simp)]
  refine exists_congr fun before => exists_congr fun l => exists_congr fun after => ?_
  refine and_congr_right fun split => ?_
  have filledLine : l.stmt.Filled := filled l (by simp [split])
  rw [Stmt.isUnindexed_iff filledLine, Program.sized_iff, and_assoc]

theorem lowerProgram_write_iff :
    (lowerProgram config program).1 = .error (.numeral .write) ↔
      ∃ before l after, program = before ++ l :: after ∧
        l.stmt.Oversized config (before.map Line.stmt) ∧ Program.Indexed before := by
  rw [lowerProgram_fails_iff filled (by simp)]
  refine exists_congr fun before => exists_congr fun l => exists_congr fun after => ?_
  refine and_congr_right fun split => ?_
  have filledBefore : ∀ l ∈ before, l.stmt.Filled := fun l member => filled l (by simp [split, member])
  rw [Program.indexed_iff filledBefore, Stmt.Oversized, and_assoc]

theorem lowerProgram_fault_cases {fault : Fault} (failed : (lowerProgram config program).1 = .error fault) :
    fault = .emptyName ∨ fault = .numeral .write ∨ ∃ labels, fault = .undefinedLabels labels := by
  by_cases ofLine : ∀ labels, fault ≠ .undefinedLabels labels
  · obtain ⟨_, l, _, _, _, rfl, _⟩ := (lowerProgram_fails_iff filled ofLine).mp failed
    rcases l.stmt.breakage_cases with empty | long
    · exact .inl empty
    · exact .inr (.inl long)
  · push Not at ofLine
    exact .inr (.inr ofLine)

theorem lowerProgram_undefinedLabels_iff :
    (∃ labels, (lowerProgram config program).1 = .error (.undefinedLabels labels)) ↔
      program.Indexed ∧ program.Sized config ∧ program.Misses config := by
  rw [← and_assoc, ← lines_ok_iff filled]
  constructor
  · rintro ⟨labels, failed⟩
    rcases lowerProgram_error_iff.mp failed with broken | ⟨q, ran, strict, nonempty, -⟩
    · obtain ⟨_, l, _, _, _, same, _⟩ :=
        (Lower.lines_fail_iff (Pass.after_ready config program) filled).mp broken
      rcases l.stmt.breakage_cases with empty | long
      · rw [empty] at same
        cases same
      · rw [long] at same
        cases same
    · exact ⟨⟨q, ran⟩, (misses_iff filled ran).mp ⟨strict, nonempty⟩⟩
  · rintro ⟨⟨q, ran⟩, misses⟩
    obtain ⟨strict, nonempty⟩ := (misses_iff filled ran).mpr misses
    exact ⟨_, lowerProgram_error_iff.mpr (.inr ⟨q, ran, strict, nonempty, rfl⟩)⟩

theorem lowerProgram_succeeds_iff :
    (∃ listing, (lowerProgram config program).1 = .ok listing) ↔
      program.Indexed ∧ program.Sized config ∧ ¬ program.Misses config := by
  rw [← and_assoc, ← lines_ok_iff filled, lowerProgram_ok_iff]
  constructor
  · rintro ⟨q, ran, found⟩
    refine ⟨⟨q, ran⟩, fun misses => ?_⟩
    obtain ⟨strict, nonempty⟩ := (misses_iff filled ran).mpr misses
    exact nonempty (found strict)
  · rintro ⟨⟨q, ran⟩, complete⟩
    refine ⟨q, ran, fun strict => ?_⟩
    by_contra nonempty
    exact complete ((misses_iff filled ran).mp ⟨strict, nonempty⟩)

end

/-! ## Lines of text -/

/-- Lines of text are lowered unless an element is read without an index, a label is missing where labels
    are checked strictly, or a number has too many digits.  A numeral that cannot be read comes before all
    else.  Of an element without an index and a number that cannot be written, the first decides. -/
theorem lowerLines_outcome (config : Config) (lines : List String) :
    (∀ fault, Program.ofLines lines = .error fault →
      (lowerLines config lines).1 = .error (.numeral fault) ∧
        ∃ line ∈ Stmt.filledLines lines, Stmt.Overlong line.toList fault) ∧
    ∀ program, Program.ofLines lines = .ok program →
      let outcome := (lowerLines config lines).1
      (outcome = .error .emptyName ↔ ∃ before l after, program = before ++ l :: after ∧
        l.stmt.isUnindexed = true ∧ Program.Sized config before) ∧
      (outcome = .error (.numeral .write) ↔ ∃ before l after, program = before ++ l :: after ∧
        l.stmt.Oversized config (before.map Line.stmt) ∧ Program.Indexed before) ∧
      ((∃ labels, outcome = .error (.undefinedLabels labels)) ↔
        program.Indexed ∧ program.Sized config ∧ program.Misses config) ∧
      ((∃ listing, outcome = .ok listing) ↔
        program.Indexed ∧ program.Sized config ∧ ¬ program.Misses config) ∧
      (∀ fault, outcome = .error fault →
        fault = .emptyName ∨ fault = .numeral .write ∨ ∃ labels, fault = .undefinedLabels labels) ∧
      (program.Sized config → (outcome = .error .emptyName ↔ ¬ program.Indexed)) := by
  refine ⟨fun fault read => ⟨by rw [lowerLines, read]; rfl, Program.overlong_of_ofLines read⟩, ?_⟩
  intro program read outcome
  have filled := Program.filled_of_ofLines read
  have start : outcome = (lowerProgram config program).1 := by
    simp only [outcome, lowerLines, read]
    rfl
  rw [start]
  refine ⟨lowerProgram_emptyName_iff filled, lowerProgram_write_iff filled,
    lowerProgram_undefinedLabels_iff filled, lowerProgram_succeeds_iff filled,
    fun _ => lowerProgram_fault_cases filled, fun sized => ?_⟩
  rw [lowerProgram_emptyName_iff filled]
  constructor
  · rintro ⟨before, l, after, split, unindexed, -⟩ indexed
    rw [indexed l (by simp [split])] at unindexed
    cases unindexed
  · intro unindexed
    simp only [Program.Indexed, not_forall, Bool.not_eq_false] at unindexed
    obtain ⟨l, member, unindexed⟩ := unindexed
    obtain ⟨before, after, split⟩ := List.append_of_mem member
    refine ⟨before, l, after, split, unindexed, fun before' l' after' inside => ?_⟩
    exact sized before' l' (after' ++ l :: after) (by rw [split, inside]; simp)

/-- An array that is declared with a length of `n` zeros. -/
def zerosLine (n : Nat) : List Char :=
  "declare_arr a[".toList ++ '0' :: (List.replicate n '0' ++ "] int".toList)

theorem Text.strip_of_ends {first last : Char} (cs : List Char) (start : isBlank first = false)
    (stop : isBlank last = false) : strip (first :: (cs ++ [last])) = first :: (cs ++ [last]) := by
  simp [strip, stripStart, stripEnd, start, stop]

theorem strip_zerosLine (n : Nat) : Text.strip (zerosLine n) = zerosLine n := by
  have ends : zerosLine n =
      'd' :: (("eclare_arr a[".toList ++ '0' :: (List.replicate n '0' ++ "] in".toList)) ++ ['t']) := by
    rw [List.append_assoc, List.cons_append, List.append_assoc]
    rfl
  rw [ends]
  exact Text.strip_of_ends _ rfl rfl

theorem takeSome_zeros (n : Nat) :
    Stmt.takeSome Text.isDecimal ('0' :: (List.replicate n '0' ++ "] int".toList)) =
      some (List.replicate (n + 1) '0', "] int".toList) := by
  have zeros : ∀ c ∈ List.replicate (n + 1) '0', Text.isDecimal c = true := by
    intro c member
    rw [List.eq_of_mem_replicate member]
    rfl
  have front : (List.replicate (n + 1) '0' ++ "] int".toList).takeWhile Text.isDecimal =
      List.replicate (n + 1) '0' := by
    rw [List.takeWhile_append_of_pos zeros]
    exact List.append_nil _
  have behind : (List.replicate (n + 1) '0' ++ "] int".toList).dropWhile Text.isDecimal =
      "] int".toList := by
    rw [List.dropWhile_append_of_pos zeros]
    rfl
  show Stmt.takeSome Text.isDecimal (List.replicate (n + 1) '0' ++ "] int".toList) = _
  simp only [Stmt.takeSome, front, behind]
  rfl

theorem ofLines_zerosLine {n : Nat} (long : Text.numeralLimit < n + 1) :
    Program.ofLines [String.ofList (zerosLine n)] = .error (.read (n + 1)) := by
  have number : Text.readNat (List.replicate (n + 1) '0') = .error (.read (n + 1)) := by
    rw [Text.readNat, List.length_replicate, if_neg (Nat.not_le.mpr long)]
  have found : Stmt.readDeclareArray (zerosLine n) = some (.error (.read (n + 1))) := by
    simp only [Stmt.readDeclareArray, Option.bind_eq_bind, Option.bind_eq_some_iff, Option.pure_def,
      Option.some.injEq]
    -- All but the zeros is read by evaluation.
    let rest := '0' :: (List.replicate n '0' ++ "] int".toList)
    refine ⟨(false, "_arr a[".toList ++ rest), rfl, " a[".toList ++ rest, rfl, "a[".toList ++ rest, rfl,
      (['a'], '[' :: rest), rfl, rest, rfl, _, takeSome_zeros n, " int".toList, rfl, "int".toList, rfl,
      "int", rfl, ?_⟩
    rw [number]
    rfl
  have read : Stmt.ofChars (zerosLine n) = .error (.read (n + 1)) := by
    rw [Stmt.ofChars, found]
    rfl
  have kept : Stmt.filledLines [String.ofList (zerosLine n)] = [String.ofList (zerosLine n)] := by
    have stripped : Text.stripped (String.ofList (zerosLine n)) = String.ofList (zerosLine n) := by
      rw [Text.stripped, String.toList_ofList, strip_zerosLine]
    have nonempty : (String.ofList (zerosLine n)).isEmpty = false := by
      rw [← Bool.not_eq_true, String.isEmpty_iff, String.ofList_eq_empty_iff]
      exact List.cons_ne_nil _ _
    rw [Stmt.filledLines, List.map_singleton, stripped, List.filter_singleton, nonempty]
    rfl
  have line : Stmt.ofLine (String.ofList (zerosLine n)) = .error (.read (n + 1)) := by
    rw [Stmt.ofLine, String.toList_ofList, read]
  rw [Program.ofLines, kept, List.mapM_cons, line]
  rfl

/-- A length with more digits than can be read ends the pass, though nothing else is wrong with the line.
    And an element without an index ends it before a missing label does. -/
theorem lowerLines_outcome_overlong :
    (lowerLines (Config.standard false) [String.ofList (zerosLine 4300)]).1 =
        .error (.numeral (.read 4301)) ∧
      (lowerLines (Config.standard true) ["goto end", "x = a[ ]"]).1 = .error .emptyName := by
  constructor
  · have long : Text.numeralLimit < 4300 + 1 := by decide
    exact ((lowerLines_outcome (Config.standard false) _).1 _ (ofLines_zerosLine long)).1
  · have read : (Program.ofLines ["goto end", "x = a[ ]"]).toOption =
        some [⟨"goto end", .goto "end"⟩, ⟨"x = a[ ]", .arrayLoad "x" "a" ""⟩] := by
      decide +kernel
    cases parsed : Program.ofLines ["goto end", "x = a[ ]"] with
    | error fault =>
      rw [parsed] at read
      cases read
    | ok program =>
      rw [parsed] at read
      cases read
      apply ((lowerLines_outcome (Config.standard true) _).2 _ parsed).1.mpr
      refine ⟨[⟨"goto end", .goto "end"⟩], _, [], rfl, rfl, ?_⟩
      rintro before l after split ⟨breaks, -⟩
      obtain rfl : l = ⟨"goto end", .goto "end"⟩ := by
        have member : l ∈ before ++ l :: after := by simp
        rw [← split] at member
        exact List.mem_singleton.mp member
      exact breaks

end MipsLowering
