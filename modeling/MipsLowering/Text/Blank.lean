/-!
# Blanks and words

A class of characters is given by a table: the closed ranges of code points that belong to it, in
increasing order.

Blanks separate the words of a line.  Besides the ASCII blanks the class holds the four information
separators, the next-line control, and every space and line separator of Unicode; it holds neither
the zero-width space nor the byte-order mark.
-/

namespace MipsLowering.Text

/-! ## Tables of code points -/

/-- Closed ranges of code points in increasing order. -/
abbrev Ranges := List (Nat × Nat)

/-- Whether a code point lies in one of the ranges.  The order allows the search to end at the first
    range that begins beyond the code point. -/
def Ranges.contains : Ranges → Nat → Bool
  | [], _ => false
  | (first, last) :: rest, n => first ≤ n && (n ≤ last || Ranges.contains rest n)

/-! ## The class -/

/-- The code points of the blanks. -/
def blankRanges : Ranges := [
  (0x9, 0xD), (0x1C, 0x20), (0x85, 0x85), (0xA0, 0xA0), (0x1680, 0x1680), (0x2000, 0x200A),
  (0x2028, 0x2029), (0x202F, 0x202F), (0x205F, 0x205F), (0x3000, 0x3000)]

/-- A blank character. -/
def isBlank (c : Char) : Bool :=
  blankRanges.contains c.toNat

/-! ## Stripping -/

/-- The text without the blanks it begins with. -/
def stripStart (cs : List Char) : List Char :=
  cs.dropWhile isBlank

/-- The text without the blanks it ends with. -/
def stripEnd (cs : List Char) : List Char :=
  (cs.reverse.dropWhile isBlank).reverse

/-- The text without the blanks around it. -/
def strip (cs : List Char) : List Char :=
  stripEnd (stripStart cs)

/-- The text without the blanks around it. -/
def stripped (s : String) : String :=
  String.ofList (strip s.toList)

/-! ## Words -/

/-- The maximal runs of characters other than blanks, in order. -/
def words (cs : List Char) : List (List Char) :=
  (cs.splitOnP isBlank).filter (!·.isEmpty)

/-- The first word and what follows it, without the blanks around either. -/
def cutWord (cs : List Char) : List Char × List Char :=
  let body := stripStart cs
  (body.takeWhile (!isBlank ·), strip (body.dropWhile (!isBlank ·)))

/-- Whether the text is exactly one word, blanks around it aside. -/
def isOneWord (cs : List Char) : Bool :=
  (words cs).length == 1

end MipsLowering.Text
