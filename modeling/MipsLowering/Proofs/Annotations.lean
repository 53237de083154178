import Mathlib.Data.List.Forall2
import MipsLowering.Proofs.Transcripts

/-! # Where annotations go

A program is handed over as lines of text, or as the statements that are read from them.  A pass may
annotate each line: with the text of the line, or with the spelling of the statement.  Neither choice has
an influence on what is done.  All four passes end alike and in like states, and their texts are equal but
for comments behind instructions. -/

namespace MipsLowering

/-! ## Entries -/

/-- The same settings, with lines annotated or not. -/
def Config.annotating (config : Config) (annotate : Bool) : Config :=
  { config with annotate := annotate, accepted := config.accepted }

/-- The ways to hand a program over: as lines of text, or as statements that were read from them. -/
inductive Entry where
  | lines
  | stmts

namespace Entry

/-- The program that lines of text hold. -/
def read (lines : List String) : Entry → Except Text.NumeralFault Program
  | .lines => Program.ofLines lines
  | .stmts => (Stmt.ofLines lines).map Program.ofStmts

def run (entry : Entry) (config : Config) (lines : List String) : Except Fault String × Pass :=
  lowerNext (Pass.start config) (entry.read lines)

/-- What the lines of a program are annotated with. -/
def sources (lines : List String) (stmts : List Stmt) : Entry → List String
  | .lines => Stmt.filledLines lines
  | .stmts => stmts.map Stmt.text

end Entry

/-- Lines are read one by one, whether their text is kept or not. -/
theorem mapM_sourced (lines : List String) :
    (∃ fault, lines.mapM Stmt.ofLine = .error fault ∧
      (lines.mapM fun line => (Stmt.ofLine line).map (Line.mk line)) = .error fault) ∨
    ∃ program : Program, lines.mapM Stmt.ofLine = .ok (program.map Line.stmt) ∧
      (lines.mapM fun line => (Stmt.ofLine line).map (Line.mk line)) = .ok program ∧
      program.map Line.source = lines := by
  induction lines with
  | nil => exact .inr ⟨[], rfl, rfl, rfl⟩
  | cons line rest ih =>
    rw [List.mapM_cons, List.mapM_cons]
    cases first : Stmt.ofLine line with
    | error fault => exact .inl ⟨fault, rfl, rfl⟩
    | ok s =>
      rcases ih with ⟨fault, failed, failedToo⟩ | ⟨program, read, readToo, sources⟩
      · rw [failed, failedToo]
        exact .inl ⟨fault, rfl, rfl⟩
      · rw [read, readToo]
        exact .inr ⟨⟨line, s⟩ :: program, rfl, rfl, congrArg _ sources⟩

/-- Both entries read the same statements, or fail alike. -/
theorem Entry.read_cases (lines : List String) :
    (∃ fault, ∀ entry : Entry, entry.read lines = .error fault) ∨
    ∃ stmts, ∀ entry : Entry, ∃ program, entry.read lines = .ok program ∧
      program.map Line.stmt = stmts ∧ program.map Line.source = entry.sources lines stmts := by
  rcases mapM_sourced (Stmt.filledLines lines) with
    ⟨fault, failed, failedToo⟩ | ⟨program, readAlone, readWith, sources⟩
  · left
    refine ⟨fault, fun entry => ?_⟩
    cases entry with
    | lines => exact failedToo
    | stmts =>
      show (Stmt.ofLines lines).map Program.ofStmts = .error fault
      rw [Stmt.ofLines, failed]
      rfl
  · right
    refine ⟨program.map Line.stmt, fun entry => ?_⟩
    cases entry with
    | lines => exact ⟨program, readWith, rfl, sources⟩
    | stmts =>
      refine ⟨Program.ofStmts (program.map Line.stmt), ?_, ?_, ?_⟩
      · show (Stmt.ofLines lines).map Program.ofStmts = _
        rw [Stmt.ofLines, readAlone]
        rfl
      · simp [Program.ofStmts, Function.comp_def]
      · simp [Program.ofStmts, Entry.sources, Function.comp_def]

/-! ## Texts that differ in comments -/

/-- Lines with a comment behind the first instruction among them, if there is one. -/
inductive Annotated (comment : String) : List Node → List Node → Prop where
  | plain {nodes : List Node} (noInstr : ∀ node ∈ nodes, node.isInstr = false) :
      Annotated comment nodes nodes
  | first {before after : List Node} (i : Instr) (noInstr : ∀ node ∈ before, node.isInstr = false) :
      Annotated comment (before ++ .instr i :: after)
        (before ++ .instr { i with comment := some comment } :: after)

theorem annotated_annotate (comment : String) (nodes : List Node) :
    Annotated comment nodes (Node.annotate comment nodes) := by
  have cons : ∀ {node : Node} {rest rest' : List Node}, node.isInstr = false →
      Annotated comment rest rest' → Annotated comment (node :: rest) (node :: rest') := by
    intro node rest rest' noInstr annotated
    cases annotated with
    | plain none => exact .plain (List.forall_mem_cons.mpr ⟨noInstr, none⟩)
    | @first before after i none =>
      exact @Annotated.first _ (node :: before) after i (List.forall_mem_cons.mpr ⟨noInstr, none⟩)
  induction nodes with
  | nil => exact .plain (by simp)
  | cons node rest ih =>
    cases node with
    | instr i => exact @Annotated.first _ [] rest i (by simp)
    | _ => exact cons rfl ih

namespace Journal

/-- A journal without the comments behind instructions. -/
def bare (j : Journal) : Journal :=
  { j with text := j.text.map Node.bare }

@[simp] theorem bare_append (j k : Journal) : (j ++ k).bare = j.bare ++ k.bare := by
  ext1 <;> simp [bare]

@[simp] theorem bare_sourced (j : Journal) (annotate : Bool) (source : String) :
    (j.sourced annotate source).bare = j.bare := by
  cases annotate with
  | true => simp [bare, sourced]
  | false => rfl

theorem bare_concat (journals : List Journal) : (concat journals).bare = concat (journals.map bare) := by
  induction journals with
  | nil => rfl
  | cons j rest ih => simp [ih]

end Journal

theorem Program.bare_journals (program : Program) (annotate : Bool) (parts : List Journal) :
    (program.journals annotate parts).map Journal.bare = (parts.take program.length).map Journal.bare := by
  induction program generalizing parts with
  | nil => rfl
  | cons l rest ih =>
    cases parts with
    | nil => rfl
    | cons part parts => simp [ih]

/-- States that are alike but for the settings and for comments behind instructions. -/
structure Pass.Resembles (p q : Pass) : Prop where
  data : p.data = q.data
  symbols : p.symbols = q.symbols
  registers : p.registers = q.registers
  labels : p.labels = q.labels
  params : p.params = q.params
  diagnostics : p.diagnostics = q.diagnostics
  warnings : p.warnings = q.warnings
  statistics : p.statistics = q.statistics
  text : p.text.map Node.bare = q.text.map Node.bare

theorem Node.countP_isInstr_bare (nodes : List Node) :
    (nodes.map bare).countP isInstr = nodes.countP isInstr := by
  have same : isInstr ∘ bare = isInstr := by
    funext node
    cases node <;> rfl
  rw [List.countP_map, same]

theorem Pass.resembles_behind {p : Pass} {c d : Config} {j k : Journal} (same : j.bare = k.bare) :
    ((p.under c).behind j).Resembles ((p.under d).behind k) := by
  obtain ⟨text, diagnostics, warnings⟩ := Journal.ext_iff.mp same
  simp only [Journal.bare] at text diagnostics warnings
  have count : j.text.countP Node.isInstr = k.text.countP Node.isInstr := by
    rw [← Node.countP_isInstr_bare, text, Node.countP_isInstr_bare]
  constructor
  case text =>
    show (j.text ++ p.text).map Node.bare = (k.text ++ p.text).map Node.bare
    rw [List.map_append, List.map_append, text]
  case statistics => simp [Pass.statistics, Pass.behind, Pass.under, count, diagnostics]
  case diagnostics => exact congrArg (· ++ p.diagnostics) diagnostics
  case warnings => exact congrArg (· ++ p.warnings) warnings
  all_goals rfl

/-! ## Passes -/

namespace Program

variable {program program' : Program} (config : Config)

/-- The sources of lines have no part in the transcript. -/
theorem transcript_congr (same : program.map Line.stmt = program'.map Line.stmt) :
    program.transcript config = program'.transcript config := by
  have labels : ∀ program : Program, program.filterMap (fun l => l.stmt.namedLabel?) =
      (program.map Line.stmt).filterMap Stmt.namedLabel? := by
    intro program
    rw [List.filterMap_map]
    rfl
  simp only [transcript, Pass.ready, labels, same]

/-- Nor has the switch that annotates them. -/
theorem transcript_annotating (program : Program) (annotate : Bool) :
    program.transcript (config.annotating annotate) =
      ⟨(program.transcript config).parts,
        Emit.outcomeUnder (config.annotating annotate) (program.transcript config).result⟩ := by
  have agrees : (Pass.ready config program).config.Agrees (config.annotating annotate) := ⟨rfl, rfl, rfl⟩
  exact transcript_under agrees (program.map Line.stmt)

theorem close_annotating (program : Program) (annotate : Bool) :
    Lower.close (program.transcript (config.annotating annotate)).result =
      Emit.outcomeUnder (config.annotating annotate) (Lower.close (program.transcript config).result) := by
  rw [transcript_annotating]
  apply Lower.close_under
  intro q ran
  rw [config_transcript ran]
  exact ⟨rfl, rfl⟩

end Program

theorem lowerProgram_annotating (config : Config) (program : Program) (annotate : Bool) :
    let closed := Emit.final (Lower.close (program.transcript config).result)
    (lowerProgram (config.annotating annotate) program).2 =
      (closed.under (config.annotating annotate)).behind
        (.concat (program.journals annotate (program.transcript config).parts)) := by
  intro closed
  rw [lowerProgram_final, Program.close_annotating, Emit.final_under, Program.transcript_annotating]
  rfl

/-- Passes over the same statements end alike. -/
theorem lowerProgram_resembles {program program' : Program}
    (same : program.map Line.stmt = program'.map Line.stmt) (config : Config) (annotate annotate' : Bool) :
    let run := lowerProgram (config.annotating annotate) program
    let run' := lowerProgram (config.annotating annotate') program'
    run.1.map (fun _ => ()) = run'.1.map (fun _ => ()) ∧ run.2.Resembles run'.2 := by
  intro run run'
  have length : program.length = program'.length := by
    simpa using congrArg List.length same
  refine ⟨?_, ?_⟩
  · rw [lowerProgram_verdict, lowerProgram_verdict, Program.close_annotating, Program.close_annotating,
      Emit.verdict_under, Emit.verdict_under, Program.transcript_congr config same]
  · simp only [run, run', lowerProgram_annotating, Program.transcript_congr config same]
    apply Pass.resembles_behind
    rw [Journal.bare_concat, Journal.bare_concat, Program.bare_journals, Program.bare_journals, length]

/-- The steps of lines that are annotated and of the same lines that are not. -/
theorem forall₂_annotated {program : Program} {parts : List Journal} {on off : List TraceStep}
    (onWrites : on.map TraceStep.journal = program.journals true parts)
    (offWrites : off.map TraceStep.journal = program.journals false parts)
    (onLines : on.map TraceStep.line = program.take parts.length)
    (offLines : off.map TraceStep.line = program.take parts.length) :
    List.Forall₂ (fun s s' => s.line = s'.line ∧ Annotated s.line.source s'.nodes s.nodes) on off := by
  -- Lines without a journal are those that a fault has kept from being lowered; they have no steps.
  induction program generalizing parts on off with
  | nil =>
    obtain rfl := List.map_eq_nil_iff.mp onWrites
    obtain rfl := List.map_eq_nil_iff.mp offWrites
    exact .nil
  | cons l rest ih =>
    cases parts with
    | nil =>
      obtain rfl := List.map_eq_nil_iff.mp onWrites
      obtain rfl := List.map_eq_nil_iff.mp offWrites
      exact .nil
    | cons part parts =>
      obtain ⟨s, on, rfl, here, later⟩ := List.map_eq_cons_iff.mp onWrites
      obtain ⟨s', off, rfl, here', later'⟩ := List.map_eq_cons_iff.mp offWrites
      obtain ⟨line, lines⟩ := List.cons.inj onLines
      obtain ⟨line', lines'⟩ := List.cons.inj offLines
      refine .cons ⟨line.trans line'.symm, ?_⟩ (ih later later' lines lines')
      have nodes : s.nodes = Node.annotate l.source part.text := congrArg Journal.text here
      have nodes' : s'.nodes = part.text := congrArg Journal.text here'
      rw [line, nodes, nodes']
      exact annotated_annotate l.source part.text

theorem Program.ending_annotating (config : Config) (program : Program) (annotate : Bool) :
    program.ending (config.annotating annotate) = program.ending config := by
  rw [ending, close_annotating, Emit.final_under]
  rfl

/-- Annotations change the first instruction of each line that is lowered to its end. -/
theorem lowerProgram_annotated (config : Config) (program : Program) :
    let on := unbroken (traceProgram (config.annotating true) program).1
    let off := unbroken (traceProgram (config.annotating false) program).1
    List.Forall₂ (fun s s' => s.line = s'.line ∧ Annotated s.line.source s'.nodes s.nodes) on off ∧
      ∃ ending,
        (lowerProgram (config.annotating true) program).2.text = on.flatMap TraceStep.nodes ++ ending ∧
        (lowerProgram (config.annotating false) program).2.text =
          off.flatMap TraceStep.nodes ++ ending := by
  have parts : ∀ annotate, (program.transcript (config.annotating annotate)).parts =
      (program.transcript config).parts := by
    intro annotate
    rw [Program.transcript_annotating]
  have writes : ∀ annotate, (unbroken (traceProgram (config.annotating annotate) program).1).map
      TraceStep.journal = program.journals annotate (program.transcript config).parts := by
    intro annotate
    rw [journals_traceProgram, parts]
    rfl
  have lines : ∀ annotate, (unbroken (traceProgram (config.annotating annotate) program).1).map
      TraceStep.line = program.take (program.transcript config).parts.length := by
    intro annotate
    rw [lines_traceProgram, parts]
  refine ⟨forall₂_annotated (writes true) (writes false) (lines true) (lines false),
    (program.ending config).text, ?_, ?_⟩
  · rw [text_lowerProgram, Program.ending_annotating]
  · rw [text_lowerProgram, Program.ending_annotating]

theorem Entry.run_of_read {entry : Entry} {lines : List String} {program : Program}
    (read : entry.read lines = .ok program) (config : Config) :
    entry.run config lines = lowerProgram config program := by
  rw [run, read]
  rfl

/-- Without annotations the sources of lines do not matter at all. -/
theorem lowerProgram_plain {program program' : Program}
    (same : program.map Line.stmt = program'.map Line.stmt) (config : Config) :
    (lowerProgram (config.annotating false) program).2 =
      (lowerProgram (config.annotating false) program').2 := by
  -- Then the journals of lines are those of their statements, as many as there are lines.
  have plain : ∀ (program : Program) (parts : List Journal),
      program.journals false parts = parts.take program.length := by
    intro program parts
    induction program generalizing parts with
    | nil => rfl
    | cons l rest ih =>
      cases parts with
      | nil => rfl
      | cons part parts => exact congrArg (List.cons part) (ih parts)
  have length : program.length = program'.length := by
    simpa using congrArg List.length same
  rw [lowerProgram_annotating, lowerProgram_annotating, Program.transcript_congr config same, plain, plain,
    length]

/-- The source of a line and the switch that annotates it reach the comments behind instructions and nothing
    else.  All passes over lines of text end alike.  With the switch on, the first instruction of each line
    that is lowered to its end is annotated, and nothing else in the text is changed. -/
theorem annotations_reach_comments_only (config : Config) (lines : List String) :
    (∀ (entry entry' : Entry) (annotate annotate' : Bool),
      let run := entry.run (config.annotating annotate) lines
      let run' := entry'.run (config.annotating annotate') lines
      run.1.map (fun _ => ()) = run'.1.map (fun _ => ()) ∧ run.2.Resembles run'.2) ∧
    (∀ entry entry' : Entry,
      (entry.run (config.annotating false) lines).2 = (entry'.run (config.annotating false) lines).2) ∧
    ∀ (entry : Entry) (program : Program), entry.read lines = .ok program →
      program.map Line.source = entry.sources lines (program.map Line.stmt) ∧
      let on := unbroken (traceProgram (config.annotating true) program).1
      let off := unbroken (traceProgram (config.annotating false) program).1
      List.Forall₂ (fun s s' => s.line = s'.line ∧ Annotated s.line.source s'.nodes s.nodes) on off ∧
      ∃ ending,
        (entry.run (config.annotating true) lines).2.text = on.flatMap TraceStep.nodes ++ ending ∧
        (entry.run (config.annotating false) lines).2.text = off.flatMap TraceStep.nodes ++ ending := by
  rcases Entry.read_cases lines with ⟨fault, failed⟩ | ⟨stmts, reads⟩
  -- No pass begins if the lines cannot be read.
  · refine ⟨fun entry entry' annotate annotate' => ?_, fun entry entry' => ?_, fun entry program read => ?_⟩
    · simp only [Entry.run, failed]
      exact ⟨rfl, Pass.resembles_behind (p := Pass.start config) (j := .empty) rfl⟩
    · simp only [Entry.run, failed]
    · rw [failed] at read
      cases read
  · refine ⟨fun entry entry' annotate annotate' => ?_, fun entry entry' => ?_, fun entry program read => ?_⟩
    · obtain ⟨program, read, same, -⟩ := reads entry
      obtain ⟨program', read', same', -⟩ := reads entry'
      rw [Entry.run_of_read read, Entry.run_of_read read']
      exact lowerProgram_resembles (same.trans same'.symm) config annotate annotate'
    · obtain ⟨program, read, same, -⟩ := reads entry
      obtain ⟨program', read', same', -⟩ := reads entry'
      rw [Entry.run_of_read read, Entry.run_of_read read']
      exact lowerProgram_plain (same.trans same'.symm) config
    · obtain ⟨program', read', same, sources⟩ := reads entry
      obtain rfl : program' = program := Except.ok.inj (read'.symm.trans read)
      rw [Entry.run_of_read read, Entry.run_of_read read]
      exact ⟨same ▸ sources, lowerProgram_annotated config program'⟩

/-- Lines with blanks that the statements in them are not spelled with. -/
def spacedLines : List String :=
  ["  n  = 5", "", "// half", "print   n"]

theorem spacedLines_annotations :
    ∃ program, Entry.lines.read spacedLines = .ok program ∧
      program.map Line.source = ["n  = 5", "// half", "print   n"] ∧
      (Entry.lines.run ((Config.standard true).annotating true) spacedLines).2.Resembles
        (Entry.stmts.run ((Config.standard true).annotating false) spacedLines).2 ∧
      let on := unbroken (traceProgram ((Config.standard true).annotating true) program).1
      let off := unbroken (traceProgram ((Config.standard true).annotating false) program).1
      on.length = 3 ∧
        List.Forall₂ (fun s s' => s.line = s'.line ∧ Annotated s.line.source s'.nodes s.nodes) on off := by
  have steps : (Entry.lines.read spacedLines).toOption.map (fun program =>
      (unbroken (traceProgram ((Config.standard true).annotating true) program).1).length) = some 3 := by
    decide +kernel
  cases read : Entry.lines.read spacedLines with
  | error fault =>
    rw [read] at steps
    cases steps
  | ok program =>
    rw [read] at steps
    obtain ⟨alike, -, annotated⟩ := annotations_reach_comments_only (Config.standard true) spacedLines
    obtain ⟨sources, changes, -⟩ := annotated .lines program read
    have filled : Stmt.filledLines spacedLines = ["n  = 5", "// half", "print   n"] := by
      decide +kernel
    exact ⟨program, rfl, sources.trans filled, (alike .lines .stmts true false).2,
      Option.some.inj steps, changes⟩

end MipsLowering
