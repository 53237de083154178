/-!
# Lines of a text

Two readings of one text into lines.  A text file ends a line at a line feed, a carriage return, or
the two together.  Program text received in one piece also ends a line at the other separators that
Unicode counts as line boundaries.  A boundary at the very end does not begin another line.
-/

namespace MipsLowering.Text

/-- The lines of a text, without their boundaries.  A carriage return and the line feed after it are
    one boundary. -/
def splitLines (isBoundary : Char → Bool) : List Char → List (List Char)
  | [] => []
  | '\r' :: '\n' :: rest => [] :: splitLines isBoundary rest
  | c :: rest =>
    if isBoundary c then
      [] :: splitLines isBoundary rest
    else
      match splitLines isBoundary rest with
      | [] => [[c]]
      | line :: lines => (c :: line) :: lines

/-- A line boundary of a text file. -/
def isFileBoundary (c : Char) : Bool :=
  c == '\n' || c == '\r'

/-- A line boundary of program text received in one piece. -/
def isTextBoundary (c : Char) : Bool :=
  isFileBoundary c || ['\x0B', '\x0C', '\x1C', '\x1D', '\x1E', '\u0085', '\u2028', '\u2029'].contains c

/-- The lines of a text file. -/
def fileLines (s : String) : List String :=
  (splitLines isFileBoundary s.toList).map String.ofList

/-- The lines of program text received in one piece. -/
def textLines (s : String) : List String :=
  (splitLines isTextBoundary s.toList).map String.ofList

end MipsLowering.Text
