import MipsLowering.Front.FileTree
import MipsLowering.Program
import MipsLowering.Text.Lines

/-!
# Programs in files

Lowers the program that a text file holds.  A program needs only two operations on files, to read the
text and to write the listing.  They are an interface, so the same code works on the files of the system
and on a tree in memory.
-/

namespace MipsLowering

/-! ## Operations on files -/

/-- The operations on files that a program needs. -/
structure Disk (m : Type → Type) where
  read : String → m (Except ReadFault String)
  write : String → String → m (Except FileFault Unit)

/-- The operations on a tree in memory. -/
def treeDisk : Disk (StateM FileTree) where
  read path := fun t => (t.read path, t)
  write path text := fun t =>
    match t.write path text with
    | .ok later => (.ok (), later)
    | .error fault => (.error fault, t)

/-! ## Lowering a file -/

/-- The reasons for which the program in a file cannot be lowered. -/
inductive ProgramFileFault where
  | read (fault : ReadFault)
  | lower (fault : Fault)
  deriving Repr, DecidableEq

/-- Lowers the program in the file at a path: the listing or the fault, and the final state of the
    pass. -/
def FileTree.lowerFile (t : FileTree) (config : Config) (path : String) :
    Except ProgramFileFault String × Pass :=
  match t.read path with
  | .error fault => (.error (.read fault), Pass.start config)
  | .ok text =>
    let (result, p) := lowerLines config (Text.fileLines text)
    (result.mapError .lower, p)

end MipsLowering
