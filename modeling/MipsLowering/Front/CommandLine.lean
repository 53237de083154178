import MipsLowering.Front.ProgramFile

/-!
# The command line

Lowers the program in one file and writes the listing to another.  Nothing is written unless the whole
program could be lowered.
-/

namespace MipsLowering

namespace CommandLine

/-! ## Arguments -/

/-- What the arguments ask for. -/
structure Invocation where
  input : String
  output : String
  verbose : Bool
  strictLabels : Bool
  deriving Repr, DecidableEq

/-- The arguments that are switches. -/
def switches : List String :=
  ["-v", "--verbose", "--strict-labels"]

/-- The path without the extension of its last name.  Points that a name begins with belong to no
    extension. -/
def withoutExtension (path : List Char) : List Char :=
  let reversed := path.reverse
  let folder := reversed.dropWhile (· != '/')
  match (reversed.takeWhile (· != '/')).dropWhile (· != '.') with
  | _ :: stem => if stem.any (· != '.') then folder.reverse ++ stem.reverse else path
  | [] => path

/-- The path of the listing, if none is given. -/
def defaultOutput (path : String) : String :=
  String.ofList (withoutExtension path.toList) ++ ".asm"

/-- Reads the arguments: switches anywhere, an input, and an output or none. -/
def parse? (args : List String) : Option Invocation :=
  let verbose := args.contains "-v" || args.contains "--verbose"
  let strict := args.contains "--strict-labels"
  match args.filter (!switches.contains ·) with
  | [input] => some ⟨input, defaultOutput input, verbose, strict⟩
  | [input, output] => some ⟨input, output, verbose, strict⟩
  | _ => none

/-! ## Messages -/

/-- What a run leaves: its status and what it wrote on the two channels. -/
structure Transcript where
  status : Nat
  stdout : List String
  stderr : List String
  deriving Repr, DecidableEq

/-- Lines as one text. -/
def unlines (lines : List String) : String :=
  String.join (lines.map (· ++ "\n"))

/-- The line that says how to call the program. -/
def usage : String :=
  "usage: python Driver.py input.tac [output.asm] [-v] [--strict-labels]"

/-- The line that begins the work. -/
def heading : String :=
  "--- MIPS Generation ---"

/-- The message for an input that cannot be read: the fault alone, since the path is named before. -/
def readMessage (path : String) (fault : ReadFault) : String :=
  let reason := match fault with
    | .file f => f.text
    | .utf8 f => f.message
  "✗ cannot read " ++ path ++ ": " ++ reason

/-- The message for a listing that cannot be written. -/
def writeMessage (path : String) (fault : FileFault) : String :=
  "cannot write " ++ path ++ ": " ++ fault.message path

/-- The lines about diagnostics. -/
def diagnosticLines (messages : List String) : List String :=
  if messages.isEmpty then []
  else ["", "⚠ Translation diagnostics:"] ++ messages.map ("  - " ++ ·)

/-- The lines about the numbers of a pass. -/
def statisticsLines (s : Statistics) : List String :=
  ["", "--- MIPS Statistics ---",
    "  Instructions: " ++ toString s.instructions,
    "  Labels: " ++ toString s.labels,
    "  Symbols: " ++ toString s.symbols,
    "  Literals: " ++ toString s.literals,
    "  Registers used: " ++ toString s.registersUsed] ++
  if s.undefinedLabels.isEmpty then []
  else ["  Undefined labels: " ++ Text.commaList s.undefinedLabels]

/-- The number of lines of the listing that are shown. -/
def shownLines : Nat := 30

/-- The lines that show the beginning of a listing. -/
def previewLines (listing : String) : List String :=
  let lines := (listing.toList.splitOn '\n').map String.ofList
  ["", "--- Generated MIPS (first 30 lines) ---"] ++ lines.take shownLines ++
  if lines.length > shownLines then
    ["... (" ++ toString (lines.length - shownLines) ++ " more lines)"]
  else []

/-- The lines that follow a listing that was written. -/
def successLines (run : Invocation) (listing : String) (p : Pass) : List String :=
  ["✓ MIPS generation completed successfully.", "✓ MIPS -> " ++ run.output] ++
    diagnosticLines p.diagnosticMessages ++ statisticsLines p.statistics ++
    if run.verbose then previewLines listing else []

/-! ## Runs -/

/-- The faults that a run does not report but passes on to its caller. -/
inductive Escape where
  /-- A path cannot be passed on to the system, or a file never ends. -/
  | path (fault : FileFault)
  /-- A pass ended in a fault that does not concern the program. -/
  | pass (fault : Fault)
  deriving Repr, DecidableEq

/-- The message for a fault that a run passes on. -/
def Escape.message : Escape → String
  | .path fault => fault.text
  | .pass fault => fault.message

/-- Lowers the text of a program and writes the listing. -/
def process {m : Type → Type} [Monad m] (disk : Disk m) (run : Invocation) (text : String) :
    m (Except Escape Transcript) := do
  let (result, p) := lowerLines (.standard run.strictLabels) (Text.fileLines text)
  match result with
  | .error fault =>
    if !fault.isReported then
      return .error (.pass fault)
    return .ok ⟨1, [heading], p.records ++ ["✗ MIPS generation error: " ++ fault.message]⟩
  | .ok listing =>
    match ← disk.write run.output listing with
    | .error fault =>
      if !fault.isReported then
        return .error (.path fault)
      return .ok ⟨1, [heading], p.records ++ ["✗ " ++ writeMessage run.output fault]⟩
    | .ok () => return .ok ⟨0, heading :: successLines run listing p, p.records⟩

/-- Runs the program with arguments. -/
def run {m : Type → Type} [Monad m] (disk : Disk m) (args : List String) :
    m (Except Escape Transcript) := do
  match parse? args with
  | none => return .ok ⟨1, [], [usage]⟩
  | some invocation =>
    match ← disk.read invocation.input with
    | .error (.file fault) =>
      if !fault.isReported then
        return .error (.path fault)
      return .ok ⟨1, [], [readMessage invocation.input (.file fault)]⟩
    | .error (.utf8 fault) => return .ok ⟨1, [], [readMessage invocation.input (.utf8 fault)]⟩
    | .ok text => process disk invocation text

end CommandLine

end MipsLowering
