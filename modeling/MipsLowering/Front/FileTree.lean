import MipsLowering.Text.Quoted
import MipsLowering.Text.Utf8

/-!
# Files

The directories and files of a system, with a working directory among them, and the outcome of opening
a path.  A path that begins with a slash is walked from the root, any other path from the working
directory.
-/

namespace MipsLowering

/-! ## Faults -/

/-- The reasons for which a path cannot be opened. -/
inductive FileFault where
  | notFound
  | notDirectory
  | isDirectory
  | nameTooLong
  /-- The file was opened, but there is no room for what is written. -/
  | noSpace
  /-- The path holds a NUL character, with which no path can be passed on. -/
  | nulCharacter
  /-- Any other fault, by its number and text.  One that does not come from the system has number 0. -/
  | system (number : Nat) (text : String)
  deriving Repr, DecidableEq

namespace FileFault

/-- What the system calls a fault. -/
def text : FileFault → String
  | .notFound => "No such file or directory"
  | .notDirectory => "Not a directory"
  | .isDirectory => "Is a directory"
  | .nameTooLong => "File name too long"
  | .noSpace => "No space left on device"
  | .nulCharacter => "embedded null byte"
  | .system _ text => text

/-- The number by which the system knows a fault. -/
def number : FileFault → Nat
  | .notFound => 2
  | .notDirectory => 20
  | .isDirectory => 21
  | .nameTooLong => 36
  | .noSpace => 28
  | .nulCharacter => 0
  | .system number _ => number

/-- No memory holds a file that never ends. -/
def outOfMemory : FileFault :=
  .system 0 ""

/-- Whether a fault comes from the system, and so is one of the file. -/
def isReported (fault : FileFault) : Bool :=
  fault.number != 0

/-- The number and the text of a fault. -/
def numbered (fault : FileFault) : String :=
  "[Errno " ++ toString fault.number ++ "] " ++ fault.text

/-- The message for a fault with a path.  A fault that comes after opening does not name the path. -/
def message (fault : FileFault) (path : String) : String :=
  if !fault.isReported then fault.text
  else if fault = .noSpace then fault.numbered
  else fault.numbered ++ ": " ++ Text.quoted path

end FileFault

/-- The reasons for which a text file cannot be read. -/
inductive ReadFault where
  | file (fault : FileFault)
  | utf8 (fault : Text.Utf8Fault)
  deriving Repr, DecidableEq

/-- The message for a text file that cannot be read. -/
def ReadFault.message (fault : ReadFault) (path : String) : String :=
  match fault with
  | .file f => f.message path
  | .utf8 f => f.message

/-! ## Trees -/

/-- A place: the names on the way to it from the root. -/
abbrev Place := List String

/-- A file that stores nothing. -/
inductive Device where
  /-- Is always empty and takes any text. -/
  | null
  /-- Never ends and has no room for any text. -/
  | full
  deriving Repr, DecidableEq

/-- The bytes of a device. -/
def Device.read : Device → Except FileFault (List UInt8)
  | .null => .ok []
  | .full => .error .outOfMemory

/-- The directories, files and devices of a system, and the directory in which it works. -/
structure FileTree where
  directories : List Place
  files : List (Place × List UInt8)
  devices : List (Place × Device)
  workingDirectory : Place
  deriving Repr, DecidableEq

namespace FileTree

/-- The directories that systems have at the root. -/
def rootDirectories : List Place :=
  ["bin", "boot", "dev", "etc", "lib", "media", "mnt", "opt", "run", "sbin", "srv", "tmp", "usr",
    "var"].map ([·])

/-- An empty working directory, in a system that has the usual directories and devices and no files. -/
def empty : FileTree where
  directories := rootDirectories
  files := []
  devices := [(["dev", "null"], .null), (["dev", "full"], .full)]
  workingDirectory := ["tmp", "work"]

/-- The content of a file. -/
def content? (t : FileTree) (place : Place) : Option (List UInt8) :=
  t.files.lookup place

/-- Whether a place is a directory.  The working directory and those above it always are. -/
def isDirectory (t : FileTree) (place : Place) : Bool :=
  place.isPrefixOf t.workingDirectory || t.directories.contains place

/-- The names that a path puts together. -/
def names (path : String) : List String :=
  ((path.toList.splitOn '/').filter (!·.isEmpty)).map String.ofList

/-- Where the walk along a path begins. -/
def origin (t : FileTree) (path : List Char) : Place :=
  if path.head? == some '/' then [] else t.workingDirectory

/-- The place that a path leads to if it goes down only. -/
def placeOf (t : FileTree) (path : String) : Place :=
  t.origin path.toList ++ (names path).filter (· != ".")

/-- A place and the directories above it, from the outermost on. -/
def lineage : Place → List Place
  | [] => [[]]
  | name :: rest => [] :: (lineage rest).map (name :: ·)

/-- Creates directories. -/
def addDirectories (t : FileTree) (places : List Place) : FileTree :=
  { t with directories := t.directories ++ places }

/-- Creates a directory and those above it. -/
def makeDirectory (t : FileTree) (path : String) : FileTree :=
  t.addDirectories (lineage (t.placeOf path))

/-- Puts a file with a content at a place. -/
def put (t : FileTree) (place : Place) (bytes : List UInt8) : FileTree :=
  if (t.content? place).isSome then
    { t with files := t.files.map fun f => if f.1 == place then (place, bytes) else f }
  else
    { t with files := t.files ++ [(place, bytes)] }

/-- Creates a file and the directories above it. -/
def makeFile (t : FileTree) (path : String) (bytes : List UInt8) : FileTree :=
  (t.addDirectories (lineage (t.placeOf path).dropLast)).put (t.placeOf path) bytes

/-- The names on the way from the working directory to a place below it. -/
def below? (t : FileTree) (place : Place) : Option (List String) :=
  if t.workingDirectory.isPrefixOf place then some (place.drop t.workingDirectory.length) else none

/-- The files below the working directory that are new, or whose content is new, since an earlier
    tree. -/
def changes (later earlier : FileTree) : List (List String × List UInt8) :=
  (later.files.filter fun f => earlier.content? f.1 != some f.2).filterMap fun f =>
    (later.below? f.1).map (·, f.2)

/-! ## Walking a path -/

/-- What stands at the end of a path. -/
inductive Spot where
  | directory (place : Place)
  | file (place : Place) (bytes : List UInt8)
  | device (device : Device)
  /-- Nothing, but a file can be created here. -/
  | vacant (place : Place)
  deriving Repr, DecidableEq

/-- What a name stands for in a directory. -/
def entry (t : FileTree) (here : Place) (name : String) : Spot :=
  let place := here ++ [name]
  if t.isDirectory place then .directory place
  else
    match t.devices.lookup place, t.content? place with
    | some device, _ => .device device
    | none, some bytes => .file place bytes
    | none, none => .vacant place

/-- The greatest length of a name, in bytes. -/
def nameLimit : Nat := 255

/-- The length from which on a path is too long, in bytes. -/
def pathLimit : Nat := 4096

/-- Walks along names from a directory.  The root is the directory above itself. -/
def walk (t : FileTree) (here : Place) : List String → Except FileFault Spot
  | [] => .ok (.directory here)
  | "." :: rest => walk t here rest
  | ".." :: rest => walk t here.dropLast rest
  | name :: rest =>
    if name.utf8ByteSize > nameLimit then .error .nameTooLong
    else
      match t.entry here name, rest with
      | .directory there, _ => walk t there rest
      | spot, [] => .ok spot
      | .file _ _, _ :: _ | .device _, _ :: _ => .error .notDirectory
      | .vacant _, _ :: _ => .error .notFound

/-- Walks along steps from where a path begins, if the path as a whole can be passed on. -/
def walkFor (t : FileTree) (path : String) (steps : List String) : Except FileFault Spot :=
  if path.toList.contains '\x00' then .error .nulCharacter
  else if path.isEmpty then .error .notFound
  else if path.utf8ByteSize ≥ pathLimit then .error .nameTooLong
  else t.walk (t.origin path.toList) steps

/-- Whether a path ends with a slash and so can only be a directory. -/
def endsWithSlash (path : String) : Bool :=
  path.toList.getLast? == some '/'

/-- What stands at the end of a path. -/
def resolve (t : FileTree) (path : String) : Except FileFault Spot :=
  t.walkFor path (names path)

/-- What stands at the end of a path at which a file may be created.  A path that ends with a slash is
    refused once the directory that holds its last name is reached. -/
def resolveNew (t : FileTree) (path : String) : Except FileFault Spot :=
  if endsWithSlash path then do
    let _ ← t.walkFor path ((names path).dropLast ++ ["."])
    .error .isDirectory
  else t.resolve path

/-! ## Reading and writing -/

/-- The bytes of the file at a path. -/
def readBytes (t : FileTree) (path : String) : Except FileFault (List UInt8) :=
  match t.resolve path with
  | .error fault => .error fault
  | .ok (.directory _) => .error .isDirectory
  | .ok (.vacant _) => .error .notFound
  | .ok (.file _ bytes) => if endsWithSlash path then .error .notDirectory else .ok bytes
  | .ok (.device device) => if endsWithSlash path then .error .notDirectory else device.read

/-- The text in the file at a path. -/
def read (t : FileTree) (path : String) : Except ReadFault String :=
  match t.readBytes path with
  | .error fault => .error (.file fault)
  | .ok bytes => (Text.decodeUtf8 bytes).mapError .utf8

/-- The tree with a text at a spot. -/
def fill (t : FileTree) (spot : Spot) (text : String) : Except FileFault FileTree :=
  match spot with
  | .directory _ => .error .isDirectory
  | .file place _ | .vacant place => .ok (t.put place (Text.encodeUtf8 text))
  | .device .null => .ok t
  | .device .full => if text.isEmpty then .ok t else .error .noSpace

/-- The tree with a text in the file at a path, which is created if need be. -/
def write (t : FileTree) (path text : String) : Except FileFault FileTree :=
  match t.resolveNew path with
  | .error fault => .error fault
  | .ok spot => t.fill spot text

end FileTree

end MipsLowering
