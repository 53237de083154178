import MipsLowering.Front.CommandLine

/-!
# The program

Runs the command line on the files of the system.
-/

namespace MipsLowering

/-- The number of an error of the system; some calls give it with a minus sign. -/
def systemNumber (code : UInt32) : Nat :=
  if code.toNat < 0x80000000 then code.toNat else UInt32.size - code.toNat

/-- The fault with a number of the system. -/
def faultOfNumber (number : Nat) (text : String) : FileFault :=
  ([.notFound, .notDirectory, .isDirectory, .nameTooLong, .noSpace].find? fun (f : FileFault) =>
    f.number == number).getD (.system number text)

/-- The fault that an error of the system stands for. -/
def faultOfError : IO.Error → FileFault
  | .noFileOrDirectory _ code text | .interrupted _ code text | .invalidArgument _ code text
  | .permissionDenied _ code text | .resourceExhausted _ code text | .alreadyExists _ code text
  | .inappropriateType _ code text | .noSuchThing _ code text | .otherError code text
  | .resourceBusy code text | .resourceVanished code text | .unsupportedOperation code text
  | .hardwareFault code text | .unsatisfiedConstraints code text | .illegalOperation code text
  | .protocolError code text | .timeExpired code text => faultOfNumber (systemNumber code) text
  | .userError text => .system 0 text
  | .unexpectedEof => .system 0 "end of file"

/-- The operations on the files of the system. -/
def systemDisk : Disk IO where
  read path := do
    try
      let bytes ← IO.FS.readBinFile path
      return (Text.decodeUtf8 bytes.data.toList).mapError .utf8
    catch e => return .error (.file (faultOfError e))
  write path text := do
    try
      IO.FS.writeFile path text
      return .ok ()
    catch e => return .error (faultOfError e)

end MipsLowering

open MipsLowering in
/-- Runs the command line. -/
def main (args : List String) : IO UInt32 := do
  match ← CommandLine.run systemDisk args with
  | .ok transcript =>
    (← IO.getStdout).putStr (CommandLine.unlines transcript.stdout)
    (← IO.getStderr).putStr (CommandLine.unlines transcript.stderr)
    return transcript.status.toUInt32
  | .error fault =>
    (← IO.getStderr).putStr (fault.message ++ "\n")
    return 1
