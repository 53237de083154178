import MipsLowering.Proofs.Transcripts

/-! # Statements that only leave a remark

A comment, a line of wrong shape, a statement without a rule and an assignment whose operator has no code
are lowered to a remark, most of them with a diagnostic, and touch nothing else.  They can be left out of a
program: what the other statements do does not change, and the pass ends as it did. -/

namespace MipsLowering

/-! ## Remarks -/

namespace Journal

/-- What a diagnostic leaves in the journal. -/
def diagnosed (d : Diagnostic) : Journal :=
  ⟨[.comment d.message], [d], [.diagnostic d]⟩

/-- A remark has no instruction that could be annotated. -/
theorem sourced_of_comments {j : Journal} (comments : ∀ node ∈ j.text, node.isInstr = false)
    (annotate : Bool) (source : String) : j.sourced annotate source = j := by
  have plain : Node.annotate source j.text = j.text := by
    generalize j.text = nodes at comments
    induction nodes with
    | nil => rfl
    | cons node rest ih =>
      have later := ih fun node member => comments node (List.mem_cons_of_mem _ member)
      cases node with
      | instr i => cases comments _ List.mem_cons_self
      | _ => simp only [Node.annotate, later]
  cases annotate with
  | true => simp [sourced, plain]
  | false => rfl

end Journal

namespace Stmt

/-- The statements that only leave a remark. -/
def isRemark : Stmt → Bool
  | .comment _ | .malformed _ _ | .unsupported _ | .foreign _ => true
  | .assign _ _ (some symbol) (some _) => (BinaryOp.ofSymbol? symbol).isNone
  | .assign _ _ (some symbol) none => (UnaryOp.ofSymbol? symbol).isNone
  | _ => false

/-- The remark that such a statement leaves. -/
def remark : Stmt → Journal
  | .comment text => ⟨[.comment text], [], []⟩
  | .malformed text reason => .diagnosed (.malformed text reason)
  | .unsupported text | .foreign text => .diagnosed (.unsupported text)
  | .assign target left (some symbol) (some right) =>
    .diagnosed (.binaryOperator target (operandText left) symbol right)
  | .assign target source (some symbol) none =>
    .diagnosed (.unaryOperator target symbol (operandText source))
  | _ => .empty

theorem comments_remark (s : Stmt) : ∀ node ∈ s.remark.text, node.isInstr = false := by
  unfold remark
  split <;> simp [Journal.diagnosed, Journal.empty, Node.isInstr]

end Stmt

namespace Lower

theorem run_diagnose_blank (d : Diagnostic) (p : Pass) :
    (Emit.diagnose d).run p.blank = .ok () (p.blank.behind (.diagnosed d)) :=
  rfl

/-- A remark changes the journal and nothing else. -/
theorem run_remark {s : Stmt} (remark : s.isRemark = true) (p : Pass) :
    (stmt s).run p.blank = .ok () (p.blank.behind s.remark) := by
  cases s with
  | comment text => rfl
  | malformed text reason => exact run_diagnose_blank _ p
  | unsupported text => exact run_diagnose_blank _ p
  | foreign text => exact run_diagnose_blank _ p
  | assign target operand1 operator operand2 =>
    cases operator with
    | none => cases remark
    | some symbol =>
      cases operand2 with
      | none =>
        have noCode : UnaryOp.ofSymbol? symbol = none := Option.isNone_iff_eq_none.mp remark
        simp only [stmt, assign, unary, noCode]
        exact run_diagnose_blank _ p
      | some right =>
        have noCode : BinaryOp.ofSymbol? symbol = none := Option.isNone_iff_eq_none.mp remark
        simp only [stmt, assign, binary, noCode]
        exact run_diagnose_blank _ p
  | _ => cases remark

end Lower

/-! ## Leaving lines out -/

/-- The lines of a marked program that are kept. -/
def Program.kept (marked : List (Line × Bool)) : Program :=
  (marked.filter Prod.snd).map Prod.fst

@[simp] theorem Program.kept_cons_true (l : Line) (rest : List (Line × Bool)) :
    kept ((l, true) :: rest) = l :: kept rest := by
  simp [kept]

@[simp] theorem Program.kept_cons_false (l : Line) (rest : List (Line × Bool)) :
    kept ((l, false) :: rest) = kept rest := by
  simp [kept]

/-- A transcript without the remarks of lines that are left out is the transcript of what is kept. -/
theorem transcript_kept {marked : List (Line × Bool)}
    (remarks : ∀ m ∈ marked, m.2 = false → m.1.stmt.isRemark = true) (annotate : Bool) (p : Pass) :
    let full := transcript p.blank ((marked.map Prod.fst).map Line.stmt)
    let kept := transcript p.blank ((Program.kept marked).map Line.stmt)
    let laid := marked.zip (Program.journals (marked.map Prod.fst) annotate full.parts)
    kept.result = full.result ∧
      (Program.kept marked).journals annotate kept.parts = (laid.filter (·.1.2)).map Prod.snd ∧
      ∀ e ∈ laid, e.1.2 = false → e.2 = e.1.1.stmt.remark := by
  induction marked generalizing p with
  | nil => exact ⟨rfl, rfl, fun e member => by cases member⟩
  | cons m rest ih =>
    have later := ih fun m' member => remarks m' (List.mem_cons_of_mem m member)
    obtain ⟨l, keep⟩ := m
    cases keep with
    | false =>
      -- The line that is left out changes nothing, so both programs go on from the same state.
      have isRemark := remarks (l, false) List.mem_cons_self rfl
      have ran := Lower.run_remark isRemark p
      have plain := l.stmt.remark.sourced_of_comments l.stmt.comments_remark annotate l.source
      obtain ⟨result, parts, left⟩ := later (p.blank.behind l.stmt.remark)
      simp only [Pass.blank_behind, Pass.blank_blank] at result parts left
      simp only [Program.kept_cons_false, List.map_cons, transcript_cons_ok _ ran, Pass.blank_behind,
        Pass.blank_blank, Pass.journal_behind, Pass.journal_blank, Journal.append_empty,
        Program.journals_cons, plain, List.zip_cons_cons, List.filter_cons, Bool.false_eq_true, if_false]
      refine ⟨result, parts, fun e member => ?_⟩
      rcases List.mem_cons.mp member with rfl | member
      · exact fun _ => rfl
      · exact left e member
    | true =>
      cases ran : (Lower.stmt l.stmt).run p.blank with
      | error fault q =>
        simp [transcript_cons_error _ ran, Program.journals]
      | ok _ q =>
        obtain ⟨result, parts, left⟩ := later q
        simp only [Program.kept_cons_true, List.map_cons, transcript_cons_ok _ ran,
          Program.journals_cons, List.zip_cons_cons, List.filter_cons, if_true]
        refine ⟨result, congrArg _ parts, fun e member => ?_⟩
        rcases List.mem_cons.mp member with rfl | member
        · intro out
          cases out
        · exact left e member

/-! ## Programs -/

/-- Lines that are left out name no labels. -/
theorem Pass.ready_kept (config : Config) {marked : List (Line × Bool)}
    (remarks : ∀ m ∈ marked, m.2 = false → m.1.stmt.isRemark = true) :
    Pass.ready config (Program.kept marked) = Pass.ready config (marked.map Prod.fst) := by
  have unnamed : ∀ s : Stmt, s.isRemark = true → s.namedLabel? = none := by
    intro s isRemark
    cases s with
    | label | goto | branch | call => cases isRemark
    | _ => rfl
  have labels : (Program.kept marked).filterMap (·.stmt.namedLabel?) =
      (marked.map Prod.fst).filterMap (·.stmt.namedLabel?) := by
    induction marked with
    | nil => rfl
    | cons m rest ih =>
      have later := ih fun m' member => remarks m' (List.mem_cons_of_mem m member)
      obtain ⟨l, keep⟩ := m
      cases keep with
      | false =>
        have none := unnamed l.stmt (remarks (l, false) List.mem_cons_self rfl)
        simp only [Program.kept_cons_false, List.map_cons, List.filterMap_cons, none, later]
      | true => simp only [Program.kept_cons_true, List.map_cons, List.filterMap_cons, later]
  simp only [Pass.ready, labels]

/-- The steps of what is kept write what the same lines write in the full program. -/
theorem Program.transcript_kept (config : Config) {marked : List (Line × Bool)}
    (remarks : ∀ m ∈ marked, m.2 = false → m.1.stmt.isRemark = true) :
    let full : Program := marked.map Prod.fst
    let laid := marked.zip (unbroken (traceProgram config full).1)
    ((kept marked).transcript config).result = (full.transcript config).result ∧
      (kept marked).journals config.annotate ((kept marked).transcript config).parts =
        (laid.filter (·.1.2)).map (·.2.journal) ∧
      ∀ e ∈ laid, e.1.2 = false → e.2.journal = e.1.1.stmt.remark := by
  intro full laid
  obtain ⟨result, parts, left⟩ :=
    MipsLowering.transcript_kept remarks config.annotate (Pass.ready config full)
  have same : (kept marked).transcript config =
      MipsLowering.transcript (Pass.ready config full).blank ((kept marked).map Line.stmt) := by
    rw [Program.transcript, Pass.ready_kept config remarks]
    rfl
  -- What the transcript has for a line is the journal of its step.
  have paired : marked.zip (full.journals config.annotate
      (MipsLowering.transcript (Pass.ready config full).blank (full.map Line.stmt)).parts) =
        laid.map (Prod.map id TraceStep.journal) := by
    rw [← List.zip_map_right]
    exact congrArg _ (journals_traceProgram config full).symm
  rw [paired] at parts left
  refine ⟨same ▸ result, ?_, fun e member out => ?_⟩
  · rw [same, parts, List.filter_map, List.map_map]
    rfl
  · exact left (Prod.map id TraceStep.journal e) (List.mem_map_of_mem member) out

/-- Remarks can be left out of a program.  The pass ends as it did, in the same state but for the journal,
    and from the journal only the remarks are missing: `laid` are the lines with the steps that they have
    taken, up to the first fault if there is one, and the ending is what comes behind them. -/
theorem lowerProgram_without_remarks (config : Config) (marked : List (Line × Bool))
    (remarks : ∀ m ∈ marked, m.2 = false → m.1.stmt.isRemark = true) :
    let full := lowerProgram config (marked.map Prod.fst)
    let kept := lowerProgram config (Program.kept marked)
    let laid := marked.zip (unbroken (traceProgram config (marked.map Prod.fst)).1)
    kept.1.map (fun _ => ()) = full.1.map (fun _ => ()) ∧
      kept.2 = { full.2 with
        text := kept.2.text, diagnostics := kept.2.diagnostics, warnings := kept.2.warnings } ∧
      (∀ e ∈ laid, e.1.2 = false → e.2.journal = e.1.1.stmt.remark) ∧
      ∃ ending,
        full.2.journal = .concat (laid.map (·.2.journal)) ++ ending ∧
        kept.2.journal = .concat ((laid.filter (·.1.2)).map (·.2.journal)) ++ ending := by
  intro full kept laid
  obtain ⟨result, parts, left⟩ := Program.transcript_kept config remarks
  have short : (unbroken (traceProgram config (marked.map Prod.fst)).1).length ≤ marked.length := by
    have lines := congrArg List.length (lines_traceProgram config (marked.map Prod.fst))
    rw [List.length_map, List.length_take, List.length_map] at lines
    omega
  have steps : laid.map (·.2.journal) =
      (unbroken (traceProgram config (marked.map Prod.fst)).1).map TraceStep.journal := by
    rw [← List.map_snd_zip short, List.map_map]
    rfl
  refine ⟨?_, ?_, left, Program.ending config (marked.map Prod.fst), ?_, ?_⟩
  · rw [lowerProgram_verdict, lowerProgram_verdict, result]
  · simp only [kept, full, lowerProgram_final, result]
    rfl
  · rw [steps]
    exact journal_lowerProgram config _
  · simp only [kept, lowerProgram_final, Pass.journal_behind, result, parts]
    rfl

/-- A program with remarks, some of which are left out, and a jump to a label that it lacks. -/
def mixesRemarks : List (Line × Bool) :=
  (Program.ofStmts [.comment "# start", .assign "x" (some "5") none none,
    .assign "y" (some "x") (some "**") (some "2"), .malformed "goto" "missing label", .foreign "<?>",
    .assign "z" (some "x") (some "~") none, .goto "end"]).zip
    [false, true, false, true, false, false, true]

theorem mixesRemarks_without_remarks :
    (∀ m ∈ mixesRemarks, m.2 = false → m.1.stmt.isRemark = true) ∧
    let full := lowerProgram (Config.standard true) (mixesRemarks.map Prod.fst)
    let kept := lowerProgram (Config.standard true) (Program.kept mixesRemarks)
    full.1.isOk = false ∧ kept.1.map (fun _ => ()) = full.1.map (fun _ => ()) ∧
    kept.2.registers.names = ["x"] ∧ kept.2.labels.undefined = ["end"] ∧
    ∃ sets jumps ending : Journal,
      full.2.journal = .concat [⟨[.comment "# start"], [], []⟩, sets,
        .diagnosed (.binaryOperator "y" "x" "**" "2"), .diagnosed (.malformed "goto" "missing label"),
        .diagnosed (.unsupported "<?>"), .diagnosed (.unaryOperator "z" "~" "x"), jumps] ++ ending ∧
      kept.2.journal =
        .concat [sets, .diagnosed (.malformed "goto" "missing label"), jumps] ++ ending := by
  have remarks : ∀ m ∈ mixesRemarks, m.2 = false → m.1.stmt.isRemark = true := by decide +kernel
  obtain ⟨outcome, state, -, ending, whole, rest⟩ :=
    lowerProgram_without_remarks (Config.standard true) mixesRemarks remarks
  let sets : Journal := ⟨[.instr ⟨.li "$s0" "5", some "x = 5"⟩], [], []⟩
  let jumps : Journal := ⟨[.instr ⟨.j "end", some "goto end"⟩], [], []⟩
  refine ⟨remarks, by decide +kernel, outcome, ?_, ?_, sets, jumps, ending,
    whole.trans ?_, rest.trans ?_⟩
  · rw [state]
    decide +kernel
  · rw [state]
    decide +kernel
  · exact congrArg (Journal.concat · ++ ending) (by decide +kernel)
  · exact congrArg (Journal.concat · ++ ending) (by decide +kernel)

end MipsLowering
