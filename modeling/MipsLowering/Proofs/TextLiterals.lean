import MipsLowering.Proofs.LiteralPool
import MipsLowering.Proofs.References

/-! # Reading text back

An assembler reads the text of a directive from its opening quote on.  A backslash takes away the meaning of a
quote or a backslash behind it, and the first quote that keeps its meaning ends the text.  `scanText` is this
scanner, whatever it makes of a backslash before any other character.

In an escaped text every backslash has a partner, so the scanner goes through it one character of the value at a
time (`scanText_escapeText`), and behind the value it is at the closing quote. -/

namespace MipsLowering

-- The class of an operand is only used through the theorems about it.
seal Operand.ofString

/-! ## The scanner -/

/-- Reads text up to its closing quote: the text, and what comes behind the quote.  For a backslash before a
    character that is neither a backslash nor a quote, `other` says what the two stand for, if anything. -/
def scanText (other : Char → Option (List Char)) : List Char → Option (List Char × List Char)
  | [] => none
  | '"' :: rest => some ([], rest)
  | '\\' :: c :: rest =>
    let meaning := if c == '\\' || c == '"' then some [c] else other c
    meaning.bind fun start => (scanText other rest).map (Prod.map (start ++ ·) id)
  | c :: rest => (scanText other rest).map (Prod.map (c :: ·) id)

/-- Reads the first text on a line, from its opening quote on. -/
def readText (other : Char → Option (List Char)) (line : String) : Option (String × String) :=
  (scanText other (line.toList.dropWhile (· != '"')).tail).map (Prod.map String.ofList String.ofList)

/-- The operand of a directive for text. -/
def textOperand (v : String) : String :=
  "\"" ++ String.ofList (escapeText v.toList) ++ "\""

/-- Text with some other text in place of every occurrence of a character. -/
def replaceChar (old : Char) (new : List Char) (cs : List Char) : List Char :=
  cs.flatMap fun c => if c = old then new else [c]

/-- Backslashes are doubled first, so the backslashes that come before quotes stay single. -/
theorem escapeText_eq_replaceChar (cs : List Char) :
    escapeText cs = replaceChar '"' ['\\', '"'] (replaceChar '\\' ['\\', '\\'] cs) := by
  induction cs with
  | nil => rfl
  | cons c cs ih =>
    simp only [replaceChar, List.flatMap_cons, List.flatMap_append] at ih ⊢
    rw [escapeText, ih]
    by_cases backslash : c = '\\'
    · simp [backslash]
    · by_cases quote : c = '"' <;> simp [backslash, quote]

section

variable (other : Char → Option (List Char))

theorem scanText_escapeText (cs rest : List Char) :
    scanText other (escapeText cs ++ '"' :: rest) = some (cs, rest) := by
  induction cs with
  | nil => rfl
  | cons c cs ih =>
    rw [escapeText]
    split
    next marked =>
      simp only [List.cons_append, scanText, marked, ih]
      rfl
    next plain =>
      simp only [Bool.or_eq_true, beq_iff_eq, not_or] at plain
      rw [List.cons_append, scanText, ih]
      · rfl
      · exact plain.2
      · exact fun _ _ same _ => plain.1 same

/-- What comes before the first quote of a line is passed over. -/
theorem readText_append {start : String} (bare : '"' ∉ start.toList) (v rest : String) :
    readText other (start ++ (textOperand v ++ rest)) = some (v, rest) := by
  have passed : ∀ c ∈ start.toList, (c != '"') = true := by
    intro c member
    exact bne_iff_ne.mpr (ne_of_mem_of_not_mem member bare)
  have skipped : (start ++ (textOperand v ++ rest)).toList.dropWhile (· != '"') =
      '"' :: (escapeText v.toList ++ '"' :: rest.toList) := by
    rw [String.toList_append, List.dropWhile_append_of_pos passed]
    simp [textOperand]
  rw [readText, skipped, List.tail_cons, scanText_escapeText]
  simp

theorem readText_textOperand (v rest : String) : readText other (textOperand v ++ rest) = some (v, rest) := by
  simpa using @readText_append other "" (by simp) v rest

end

theorem textOperand_inj {v w : String} : textOperand v = textOperand w ↔ v = w := by
  constructor
  · intro same
    have read := readText_textOperand (fun _ => none) v ""
    rw [same, readText_textOperand] at read
    exact (congrArg Prod.fst (Option.some.inj read)).symm
  · rintro rfl
    rfl

/-! ## Lines of the data section -/

namespace Literal

variable (v : String) (number : Nat)

theorem render_string :
    (Literal.mk .string v number).directive.render =
      LiteralKind.label .string number ++ ": .asciiz " ++ textOperand v := by
  have filled : textOperand v ≠ "" := by simp [textOperand]
  have labelled : LiteralKind.label .string number ≠ "" := by simp [LiteralKind.label]
  have body : withOperands ".asciiz" [textOperand v] = ".asciiz " ++ textOperand v := by
    simp [withOperands, Text.commaList, filled]
  calc (Literal.mk .string v number).directive.render
    _ = if (LiteralKind.label .string number).isEmpty then "\t" ++ withOperands ".asciiz" [textOperand v]
        else LiteralKind.label .string number ++ ": " ++ withOperands ".asciiz" [textOperand v] := rfl
    _ = LiteralKind.label .string number ++ ": .asciiz " ++ textOperand v := by
      have parts : ": .asciiz " = ": " ++ ".asciiz " := rfl
      rw [body, if_neg (by simpa using labelled), parts]
      simp only [String.append_assoc]

/-- There is no quote in a line for text before the one that opens it. -/
theorem readText_render (other : Char → Option (List Char)) :
    readText other (Literal.mk .string v number).directive.render = some (v, "") := by
  have bare : '"' ∉ (LiteralKind.label .string number ++ ": .asciiz ").toList := by
    intro member
    have digit : '"' ∈ Nat.toDigits 10 number := by simpa [LiteralKind.label] using member
    cases Nat.isDigit_of_mem_toDigits (by decide) (by decide) digit
  have read := readText_append other bare v ""
  rwa [String.append_empty, ← render_string] at read

end Literal

/-- Under a label there is a line from which an assembler reads a text and nothing else. -/
def DataSection.Holds (d : DataSection) (other : Char → Option (List Char)) (label v : String) : Prop :=
  ∃ directive ∈ d.directives, directive.label = some label ∧ readText other directive.render = some (v, "")

theorem DataSection.holds_of_mem {d : DataSection} {v : String} {number : Nat}
    (member : (Literal.mk .string v number).directive ∈ d.directives) (other : Char → Option (List Char)) :
    d.Holds other (LiteralKind.label .string number) v :=
  ⟨_, member, rfl, Literal.readText_render v number other⟩

theorem DataSection.holds_intern (d : DataSection) (other : Char → Option (List Char)) (written : String) :
    (d.intern .string written).2.Holds other (d.intern .string written).1 (LiteralKind.stored .string written) := by
  obtain ⟨number, label, member⟩ := DataSection.directive_of_literalLabel? (d.literalLabel?_intern .string written)
  rw [label]
  exact DataSection.holds_of_mem member other

/-- Where a statement fetches a text, the address that its code takes is that of a line for the text. -/
theorem Pass.LoadsLiteral.holds {p : Pass} {written : String} {op : Op} (loads : p.LoadsLiteral (.text written) op)
    (other : Char → Option (List Char)) :
    ∃ dest label, op = .la dest label ∧ p.data.Holds other label (LiteralKind.stored .string written) := by
  obtain ⟨kind, text, number, dest, pooled, rfl, member⟩ := loads
  cases pooled
  exact ⟨dest, _, rfl, DataSection.holds_of_mem member other⟩

/-- An assembler reads back every text that is written for it, whatever it makes of backslashes before
    characters other than backslashes and quotes:

    * the operand of a directive for text is the value with its backslashes doubled and then a backslash before
      every quote, and with quotes around it; an assembler reads the value from it and stops right behind it;
    * so different values have different operands, and in the data section different lines;
    * an operand of a statement loses one pair of quotes around it, if there is one, and what is left is read
      from the line whose label it is given;
    * in a listing, code that fetches a text takes the address of a line from which the text is read. -/
theorem readText_directives (other : Char → Option (List Char)) :
    (∀ v : String, ∃ operand, (Storage.asciiz v).operands = [operand] ∧
      operand = "\"" ++ String.ofList (replaceChar '"' ['\\', '"'] (replaceChar '\\' ['\\', '\\'] v.toList)) ++ "\"" ∧
      ∀ rest, readText other (operand ++ rest) = some (v, rest)) ∧
    (∀ v w : String, (Storage.asciiz v).operands = (Storage.asciiz w).operands ↔ v = w) ∧
    (∀ (v w : String) (m n : Nat),
      (Literal.mk .string v m).directive.render = (Literal.mk .string w n).directive.render ↔ v = w ∧ m = n) ∧
    (∀ written v, LiteralKind.stored .string written = v ↔
      written = "\"" ++ v ++ "\"" ∨ written = v ∧ ∀ inner, v ≠ "\"" ++ inner ++ "\"") ∧
    (∀ (d : DataSection) (written : String),
      (d.intern .string written).2.Holds other (d.intern .string written).1 (LiteralKind.stored .string written)) ∧
    ∀ (config : Config) (program : Program) (listing : String) (p : Pass),
      lowerProgram config program = (.ok listing, p) →
        ∀ s ∈ (traceProgram config program).1, ∀ written, .text written ∈ s.demand.operands →
          ∃ i dest label, .instr i ∈ s.nodes ∧ i.op = .la dest label ∧
            p.data.Holds other label (LiteralKind.stored .string written) := by
  refine ⟨fun v => ⟨textOperand v, rfl, ?_, readText_textOperand other v⟩, fun v w => ?_, fun v w m n => ?_,
    LiteralKind.stored_string_eq_iff, fun d written => d.holds_intern other written, ?_⟩
  · rw [textOperand, escapeText_eq_replaceChar]
  · show [textOperand v] = [textOperand w] ↔ v = w
    rw [List.cons.injEq, textOperand_inj]
    exact and_iff_left rfl
  · constructor
    · intro same
      have read := Literal.readText_render v m other
      rw [same, Literal.readText_render] at read
      cases read
      have labels : LiteralKind.label .string m = LiteralKind.label .string n := by
        simpa [Literal.render_string] using same
      exact ⟨rfl, (LiteralKind.label_inj labels).2⟩
    · rintro ⟨rfl, rfl⟩
      rfl
  · intro config program listing p lowered s taken written asked
    obtain ⟨q, ran, -, final⟩ := lowerProgram_iff.mp ⟨listing, lowered⟩
    obtain ⟨chain, -⟩ := chain_traceFrom ran
    obtain ⟨i, member, loads⟩ := (chain.meets.2 s taken).loadsLiteral asked rfl
    obtain ⟨dest, label, same, holds⟩ := loads.holds other
    rw [final]
    exact ⟨i, dest, label, member, same, holds⟩

/-- Prints a text in which a quote comes behind a backslash, and which ends with a backslash. -/
def printsMarks : Program :=
  Program.ofStmts [.print "\"\\\"x\\\""]

theorem printsMarks_readText :
    ∃ listing p, lowerProgram (Config.standard false) printsMarks = (.ok listing, p) ∧
      ∃ s ∈ (traceProgram (Config.standard false) printsMarks).1, ∃ i dest label,
        .instr i ∈ s.nodes ∧ i.op = .la dest label ∧ p.data.Holds (fun _ => none) label "\\\"x\\" := by
  obtain ⟨listing, lowered⟩ :=
    exists_of_isOk (show (lowerProgram (Config.standard false) printsMarks).1.isOk = true by decide +kernel)
  have printed : ∃ s ∈ (traceProgram (Config.standard false) printsMarks).1,
      .text "\"\\\"x\\\"" ∈ s.demand.operands := by
    decide +kernel
  obtain ⟨s, taken, asked⟩ := printed
  obtain ⟨-, -, -, stored, -, listings⟩ := readText_directives fun _ => none
  obtain ⟨i, dest, label, member, same, holds⟩ := listings _ _ _ _ lowered s taken _ asked
  have inside : LiteralKind.stored .string "\"\\\"x\\\"" = "\\\"x\\" := (stored _ _).mpr (.inl rfl)
  rw [inside] at holds
  exact ⟨listing, _, lowered, s, taken, i, dest, label, member, same, holds⟩

end MipsLowering
