import MipsLowering.Proofs.Switches

/-! # What each statement writes

The journal of a pass is what its statements have written, one after the other.  A statement is lowered the
same way whatever stands before it in the journal, so a pass can be taken apart into a *transcript*: the
journals of the statements, each written into an empty one, and the result behind the last of them.  Lines
are put together from the transcript of their statements (`Lower.run_lines_eq`); the source of a line and
the switch that annotates it have no part in the transcript. -/

namespace MipsLowering

/-! ## Journals -/

namespace Journal

def empty : Journal :=
  ⟨[], [], []⟩

instance : Append Journal :=
  ⟨fun first second => ⟨first.text ++ second.text, first.diagnostics ++ second.diagnostics,
    first.warnings ++ second.warnings⟩⟩

@[simp] theorem text_append (j k : Journal) : (j ++ k).text = j.text ++ k.text :=
  rfl

@[simp] theorem diagnostics_append (j k : Journal) :
    (j ++ k).diagnostics = j.diagnostics ++ k.diagnostics :=
  rfl

@[simp] theorem warnings_append (j k : Journal) : (j ++ k).warnings = j.warnings ++ k.warnings :=
  rfl

@[simp] theorem append_empty (j : Journal) : j ++ empty = j := by
  ext1 <;> simp [empty]

theorem append_assoc (i j k : Journal) : i ++ j ++ k = i ++ (j ++ k) := by
  ext1 <;> simp

def concat : List Journal → Journal
  | [] => empty
  | j :: rest => j ++ concat rest

@[simp] theorem concat_cons (j : Journal) (rest : List Journal) : concat (j :: rest) = j ++ concat rest :=
  rfl

@[simp] theorem text_concat (journals : List Journal) :
    (concat journals).text = journals.flatMap Journal.text := by
  induction journals with
  | nil => rfl
  | cons j rest ih => simp [ih]

/-- The journal of a statement on a line: its first instruction is annotated if the settings say so. -/
def sourced (annotate : Bool) (source : String) (j : Journal) : Journal :=
  { j with text := if annotate then Node.annotate source j.text else j.text }

end Journal

namespace Pass

/-- The state with an empty journal. -/
def blank (p : Pass) : Pass :=
  { p with text := [], diagnostics := [], warnings := [] }

def journal (p : Pass) : Journal :=
  ⟨p.text, p.diagnostics, p.warnings⟩

@[simp] theorem journal_behind (p : Pass) (j : Journal) : (p.behind j).journal = j ++ p.journal :=
  rfl

@[simp] theorem blank_behind (p : Pass) (j : Journal) : (p.behind j).blank = p.blank :=
  rfl

@[simp] theorem config_behind (p : Pass) (j : Journal) : (p.behind j).config = p.config :=
  rfl

@[simp] theorem blank_blank (p : Pass) : p.blank.blank = p.blank :=
  rfl

@[simp] theorem journal_blank (p : Pass) : p.blank.journal = .empty :=
  rfl

@[simp] theorem blank_behind_journal (p : Pass) : p.blank.behind p.journal = p := by
  simp [behind, blank, journal]

end Pass

namespace Emit

variable {α : Type}

/-! ## Results -/

/-- The state in which an action ends. -/
def final : EStateM.Result Fault Pass α → Pass
  | .ok _ q => q
  | .error _ q => q

/-- Whether an action succeeds, or its fault. -/
def verdict : EStateM.Result Fault Pass α → Except Fault Unit
  | .ok _ _ => .ok ()
  | .error fault _ => .error fault

@[simp] theorem final_behind (j : Journal) (r : EStateM.Result Fault Pass α) :
    final (outcomeBehind j r) = (final r).behind j := by
  cases r <;> rfl

@[simp] theorem verdict_behind (j : Journal) (r : EStateM.Result Fault Pass α) :
    verdict (outcomeBehind j r) = verdict r := by
  cases r <;> rfl

@[simp] theorem final_under (config : Config) (r : EStateM.Result Fault Pass α) :
    final (outcomeUnder config r) = (final r).under config := by
  cases r <;> rfl

@[simp] theorem verdict_under (config : Config) (r : EStateM.Result Fault Pass α) :
    verdict (outcomeUnder config r) = verdict r := by
  cases r <;> rfl

end Emit

/-! ## Transcripts -/

/-- What statements write, each into an empty journal, and the result behind the last of them.  What a
    fault has broken off is in the journal of the result. -/
structure Transcript where
  parts : List Journal
  result : EStateM.Result Fault Pass Unit

/-- The transcript of statements from a state with an empty journal. -/
def transcript (p : Pass) : List Stmt → Transcript
  | [] => ⟨[], .ok () p⟩
  | s :: later =>
    match (Lower.stmt s).run p with
    | .ok _ q =>
      let t := transcript q.blank later
      ⟨q.journal :: t.parts, t.result⟩
    | .error fault q => ⟨[], .error fault q⟩

theorem transcript_cons_ok {p q : Pass} {s : Stmt} (later : List Stmt)
    (ran : (Lower.stmt s).run p = .ok () q) :
    transcript p (s :: later) =
      ⟨q.journal :: (transcript q.blank later).parts, (transcript q.blank later).result⟩ := by
  simp only [transcript, ran]

theorem transcript_cons_error {p q : Pass} {s : Stmt} {fault : Fault} (later : List Stmt)
    (failed : (Lower.stmt s).run p = .error fault q) :
    transcript p (s :: later) = ⟨[], .error fault q⟩ := by
  simp only [transcript, failed]

theorem config_transcript {p q : Pass} {stmts : List Stmt}
    (ran : (transcript p stmts).result = .ok () q) : q.config = p.config := by
  induction stmts generalizing p with
  | nil =>
    cases ran
    rfl
  | cons s later ih =>
    cases first : (Lower.stmt s).run p with
    | error fault r =>
      rw [transcript_cons_error later first] at ran
      cases ran
    | ok _ r =>
      rw [transcript_cons_ok later first] at ran
      exact (ih ran).trans ((Lower.blind_stmt s).keeps p _ r first)

theorem transcript_under {p : Pass} {config : Config} (agrees : p.config.Agrees config)
    (stmts : List Stmt) :
    transcript (p.under config) stmts =
      ⟨(transcript p stmts).parts, Emit.outcomeUnder config (transcript p stmts).result⟩ := by
  induction stmts generalizing p with
  | nil => rfl
  | cons s later ih =>
    have commutes := (Lower.blind_stmt s).commutes p config agrees
    cases ran : (Lower.stmt s).run p with
    | error fault q =>
      rw [ran] at commutes
      rw [transcript_cons_error later ran, transcript_cons_error later commutes]
      rfl
    | ok _ q =>
      rw [ran] at commutes
      have agrees : q.blank.config.Agrees config := by
        have kept : q.config = p.config := (Lower.blind_stmt s).keeps p _ q ran
        show q.config.Agrees config
        rw [kept]
        exact agrees
      have rest : transcript (q.under config).blank later = ⟨(transcript q.blank later).parts,
          Emit.outcomeUnder config (transcript q.blank later).result⟩ :=
        ih agrees
      rw [transcript_cons_ok later ran, transcript_cons_ok later commutes, rest]
      rfl

/-! ## Lines -/

/-- The journals of the lines of a program whose statements write these. -/
def Program.journals (program : Program) (annotate : Bool) (parts : List Journal) : List Journal :=
  List.zipWith (fun l part => part.sourced annotate l.source) program parts

@[simp] theorem Program.journals_cons (l : Line) (program : Program) (annotate : Bool) (part : Journal)
    (parts : List Journal) :
    Program.journals (l :: program) annotate (part :: parts) =
      part.sourced annotate l.source :: program.journals annotate parts :=
  rfl

/-- What a step has added to the journal. -/
def TraceStep.journal (s : TraceStep) : Journal :=
  ⟨s.nodes, s.after.diagnostics.drop s.before.diagnostics.length,
    s.after.warnings.drop s.before.warnings.length⟩

theorem TraceStep.journal_eq {s : TraceStep} {j : Journal}
    (added : s.after.journal = s.before.journal ++ j) : s.journal = j := by
  have text : s.after.text = s.before.text ++ j.text := congrArg Journal.text added
  have diagnostics : s.after.diagnostics = s.before.diagnostics ++ j.diagnostics :=
    congrArg Journal.diagnostics added
  have warnings : s.after.warnings = s.before.warnings ++ j.warnings := congrArg Journal.warnings added
  simp only [TraceStep.journal, TraceStep.nodes, text, diagnostics, warnings, List.drop_left]

/-- The steps before the first fault. -/
def unbroken (steps : List TraceStep) : List TraceStep :=
  steps.takeWhile fun s => s.fault.isNone

namespace Lower

open Emit

variable {l : Line} {p q : Pass} {fault : Fault}

/-- The text begins anew on each line, the diagnostics and the warnings go on. -/
theorem run_stmt_blank (s : Stmt) (p : Pass) :
    (stmt s).run { p with text := [] } =
      outcomeBehind ⟨[], p.diagnostics, p.warnings⟩ ((stmt s).run p.blank) := by
  rw [← (blind_stmt s).appends]
  simp [Pass.behind, Pass.blank]

/-- A line adds to the journal what its statement writes into an empty one. -/
theorem run_line_of_ok (ran : (stmt l.stmt).run p.blank = .ok () q) :
    (line l).run p =
      .ok () (q.blank.behind (p.journal ++ q.journal.sourced p.config.annotate l.source)) := by
  show line l p = _
  unfold line
  rw [run_stmt_blank, ran]
  simp only [outcomeBehind, Journal.sourced, Pass.behind, Pass.journal, Pass.blank, List.nil_append,
    List.append_nil, Journal.text_append, Journal.diagnostics_append, Journal.warnings_append]

theorem run_line_of_error (failed : (stmt l.stmt).run p.blank = .error fault q) :
    (line l).run p = .error fault (q.behind p.journal) := by
  show line l p = _
  unfold line
  rw [run_stmt_blank, failed]
  rfl

/-- Lines write what their statements write, and end with the result of these. -/
theorem run_lines_eq (program : Program) (p : Pass) :
    (lines program).run p =
      outcomeBehind
        (p.journal ++ .concat (program.journals p.config.annotate
          (transcript p.blank (program.map Line.stmt)).parts))
        (transcript p.blank (program.map Line.stmt)).result := by
  induction program generalizing p with
  | nil =>
    show EStateM.Result.ok () p = .ok () (p.blank.behind (p.journal ++ Journal.empty))
    rw [Journal.append_empty, Pass.blank_behind_journal]
  | cons l rest ih =>
    rw [lines, run_bind, List.map_cons]
    cases ran : (stmt l.stmt).run p.blank with
    | error fault q =>
      rw [run_line_of_error ran, transcript_cons_error _ ran]
      simp only [Program.journals, List.zipWith_nil_right, Journal.concat, Journal.append_empty]
      rfl
    | ok _ q =>
      -- The next lines are lowered under the same settings, so that they are annotated alike.
      have kept : q.blank.config = p.config := (blind_stmt l.stmt).keeps p.blank _ q ran
      rw [run_line_of_ok ran, transcript_cons_ok _ ran]
      simp only [ih, Pass.blank_behind, Pass.journal_behind, Pass.config_behind, Pass.blank_blank,
        Pass.journal_blank, Journal.append_empty, kept]
      simp only [Program.journals, List.zipWith_cons_cons, Journal.concat_cons, Journal.append_assoc]

/-- The steps before the first fault are those of the statements in the transcript. -/
theorem journals_unbroken (program : Program) (p : Pass) :
    (unbroken (traceFrom p program)).map TraceStep.journal =
        program.journals p.config.annotate (transcript p.blank (program.map Line.stmt)).parts ∧
      (unbroken (traceFrom p program)).map TraceStep.line =
        program.take (transcript p.blank (program.map Line.stmt)).parts.length := by
  induction program generalizing p with
  | nil => exact ⟨rfl, rfl⟩
  | cons l rest ih =>
    rw [List.map_cons]
    cases ran : (stmt l.stmt).run p.blank with
    | error fault q =>
      rw [transcript_cons_error _ ran]
      simp [traceFrom, Pass.perform, run_line_of_error ran, unbroken, Program.journals]
    | ok _ q =>
      have kept : q.blank.config = p.config := (blind_stmt l.stmt).keeps p.blank _ q ran
      rw [transcript_cons_ok _ ran]
      -- What the first step adds to the journal is found behind what was there before it.
      have lowered := run_line_of_ok ran
      generalize same : q.journal.sourced p.config.annotate l.source = own at lowered
      have first : (⟨l, none, p, q.blank.behind (p.journal ++ own)⟩ : TraceStep).journal = own :=
        TraceStep.journal_eq (by simp)
      obtain ⟨journals, lines⟩ := ih (q.blank.behind (p.journal ++ own))
      simp only [Pass.config_behind, kept, Pass.blank_behind, Pass.blank_blank] at journals lines
      simp only [traceFrom, Pass.perform, lowered, unbroken, List.takeWhile_cons, Option.isNone_none,
        if_true, List.map_cons, first, List.length_cons, List.take_succ_cons]
      exact ⟨congrArg₂ List.cons same.symm journals, congrArg _ lines⟩

/-! ## Programs -/

theorem run_checkLabels (p : Pass) :
    checkLabels.run p =
      if p.labels.undefined = [] then .ok () p
      else if p.config.strictLabels then .error (.undefinedLabels p.labels.undefined) p
      else .ok () { p with warnings := p.warnings ++ [.undefinedLabels p.labels.undefined] } := by
  simp only [checkLabels, run_bind, run_get, LabelTable.validate]
  cases p.labels.undefined with
  | nil => rfl
  | cons label rest =>
    cases p.config.strictLabels with
    | true => rfl
    | false => rfl

/-- The end of a program behind the result of its lines: the exit sequence and the check of the labels. -/
def close : EStateM.Result Fault Pass Unit → EStateM.Result Fault Pass Unit
  | .ok _ q => checkLabels.run { q with text := q.text ++ exitNodes q.config }
  | .error fault q => .error fault q

theorem close_behind (j : Journal) (r : EStateM.Result Fault Pass Unit) :
    close (outcomeBehind j r) = outcomeBehind j (close r) := by
  cases r with
  | error fault q => rfl
  | ok _ q =>
    simp only [outcomeBehind, close, run_checkLabels, Pass.behind, List.append_assoc]
    by_cases defined : q.labels.undefined = []
    · simp only [if_pos defined]
    · simp only [if_neg defined]
      cases q.config.strictLabels with
      | true => rfl
      | false => rfl

/-- The end of a program depends on two of the switches. -/
theorem close_under {config : Config} {r : EStateM.Result Fault Pass Unit}
    (same : ∀ q, r = .ok () q →
      config.emitExit = q.config.emitExit ∧ config.strictLabels = q.config.strictLabels) :
    close (outcomeUnder config r) = outcomeUnder config (close r) := by
  cases r with
  | error fault q => rfl
  | ok _ q =>
    obtain ⟨exit, strict⟩ := same q rfl
    have sameExit : exitNodes config = exitNodes q.config := by
      unfold exitNodes
      rw [exit]
    simp only [outcomeUnder, close, run_checkLabels, Pass.under, sameExit, strict]
    by_cases defined : q.labels.undefined = []
    · simp only [if_pos defined]
    · simp only [if_neg defined]
      cases q.config.strictLabels with
      | true => rfl
      | false => rfl

end Lower

/-- The transcript of a program from the state in which its first line is lowered. -/
def Program.transcript (config : Config) (program : Program) : Transcript :=
  MipsLowering.transcript (Pass.ready config program) (program.map Line.stmt)

section

variable (config : Config) (program : Program)

theorem run_program_eq :
    (Lower.program program).run (Pass.start config) =
      Emit.outcomeBehind (.concat (program.journals config.annotate (program.transcript config).parts))
        (Lower.close (program.transcript config).result) := by
  have closed : (Lower.program program).run (Pass.start config) =
      Lower.close ((Lower.lines program).run (Pass.ready config program)) := by
    rw [Lower.run_program]
    rfl
  rw [closed, Lower.run_lines_eq, Lower.close_behind]
  rfl

theorem lowerProgram_verdict :
    (lowerProgram config program).1.map (fun _ => ()) =
      Emit.verdict (Lower.close (program.transcript config).result) := by
  rw [← Emit.verdict_behind, ← run_program_eq, lowerProgram, Pass.perform]
  cases (Lower.program program).run (Pass.start config) with
  | ok _ q => rfl
  | error fault q => rfl

theorem lowerProgram_final :
    (lowerProgram config program).2 =
      (Emit.final (Lower.close (program.transcript config).result)).behind
        (.concat (program.journals config.annotate (program.transcript config).parts)) := by
  rw [← Emit.final_behind, ← run_program_eq, lowerProgram, Pass.perform]
  cases (Lower.program program).run (Pass.start config) with
  | ok _ q => rfl
  | error fault q => rfl

/-- The steps of a program before the first fault write what is in the transcript. -/
theorem journals_traceProgram :
    (unbroken (traceProgram config program).1).map TraceStep.journal =
      program.journals config.annotate (program.transcript config).parts :=
  (Lower.journals_unbroken program (Pass.ready config program)).1

theorem lines_traceProgram :
    (unbroken (traceProgram config program).1).map TraceStep.line =
      program.take (program.transcript config).parts.length :=
  (Lower.journals_unbroken program (Pass.ready config program)).2

/-- What a pass writes behind the last line that is lowered: the part of a line that a fault has broken
    off, or the end of the program. -/
def Program.ending : Journal :=
  (Emit.final (Lower.close (program.transcript config).result)).journal

/-- The journal of a pass is that of its steps, and the ending. -/
theorem journal_lowerProgram :
    (lowerProgram config program).2.journal =
      .concat ((unbroken (traceProgram config program).1).map TraceStep.journal) ++
        program.ending config := by
  rw [lowerProgram_final, Pass.journal_behind, journals_traceProgram]
  rfl

theorem text_lowerProgram :
    (lowerProgram config program).2.text =
      (unbroken (traceProgram config program).1).flatMap TraceStep.nodes ++
        (program.ending config).text := by
  have journal := congrArg Journal.text (journal_lowerProgram config program)
  rw [Journal.text_append, Journal.text_concat, List.flatMap_map] at journal
  exact journal

end

end MipsLowering
