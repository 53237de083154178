/-!
# Numerals

Every script writes its ten decimal digits at ten consecutive code points, so the class is given by
the code points of the zeros alone.  A numeral may use the digits of any script, or mix them.

Numbers have no bound, but numerals have: one with too many digits is neither read nor written.  A
sign is no digit, and zeros in front are digits like any other.
-/

namespace MipsLowering.Text

/-! ## Digits -/

/-- The digits zero outside ASCII. -/
def zeroDigits : List Nat := [
  0x660, 0x6F0, 0x7C0, 0x966, 0x9E6, 0xA66, 0xAE6, 0xB66, 0xBE6, 0xC66, 0xCE6, 0xD66, 0xDE6,
  0xE50, 0xED0, 0xF20, 0x1040, 0x1090, 0x17E0, 0x1810, 0x1946, 0x19D0, 0x1A80, 0x1A90, 0x1B50,
  0x1BB0, 0x1C40, 0x1C50, 0xA620, 0xA8D0, 0xA900, 0xA9D0, 0xA9F0, 0xAA50, 0xABF0, 0xFF10,
  0x104A0, 0x10D30, 0x11066, 0x110F0, 0x11136, 0x111D0, 0x112F0, 0x11450, 0x114D0, 0x11650,
  0x116C0, 0x11730, 0x118E0, 0x11950, 0x11C50, 0x11D50, 0x11DA0, 0x16A60, 0x16AC0, 0x16B50,
  0x1D7CE, 0x1D7D8, 0x1D7E2, 0x1D7EC, 0x1D7F6, 0x1E140, 0x1E2F0, 0x1E950, 0x1FBF0]

/-- The value of a decimal digit of any script. -/
def digitValue? (c : Char) : Option Nat :=
  if c.isDigit then
    some (c.toNat - '0'.toNat)
  else
    (zeroDigits.find? fun first => first ≤ c.toNat && c.toNat < first + 10).map (c.toNat - ·)

/-- A decimal digit of any script. -/
def isDecimal (c : Char) : Bool :=
  (digitValue? c).isSome

/-- The number a digit sequence denotes; characters that are no digits count as zero. -/
def natOfDigits (cs : List Char) : Nat :=
  cs.foldl (fun n c => 10 * n + (digitValue? c).getD 0) 0

/-! ## The limit -/

/-- The greatest number of digits in a numeral. -/
def numeralLimit : Nat := 4300

/-- The ways in which a numeral can be too long. -/
inductive NumeralFault where
  /-- A numeral that is to be read has this many digits. -/
  | read (digits : Nat)
  /-- The numeral of a number that is to be written would have too many digits. -/
  | write
  deriving Repr, DecidableEq

/-- The message for a numeral that is too long. -/
def NumeralFault.message (fault : NumeralFault) : String :=
  let found := match fault with
    | .read digits => ": value has " ++ toString digits ++ " digits"
    | .write => ""
  "Exceeds the limit (" ++ toString numeralLimit ++ " digits) for integer string conversion" ++
    found ++ "; use sys.set_int_max_str_digits() to increase the limit"

/-! ## Reading -/

/-- The number that a digit sequence denotes. -/
def readNat (digits : List Char) : Except NumeralFault Nat :=
  if digits.length ≤ numeralLimit then .ok (natOfDigits digits) else .error (.read digits.length)

/-- The number that an optional minus sign and a digit sequence denote. -/
def readInt : List Char → Except NumeralFault Int
  | '-' :: digits => (readNat digits).map fun n => -(n : Int)
  | digits => (readNat digits).map fun n => (n : Int)

/-! ## Writing -/

/-- Whether the numeral of a number is not too long. -/
def isWritable (n : Int) : Bool :=
  (Nat.toDigits 10 n.natAbs).length ≤ numeralLimit

/-- The sign of a number has no part in this. -/
@[simp] theorem isWritable_neg (n : Int) : isWritable (-n) = isWritable n := by
  simp [isWritable]

end MipsLowering.Text
