/-!
# Reading UTF-8

A text file is a sequence of bytes.  Reading it gives the characters or says what is wrong with the
first bytes that are no UTF-8: a byte that begins no character, a character broken off by a byte that
does not continue it, or a character broken off by the end of the file.

A file is read in blocks.  Bytes at the end of a block that are too few for a character are held back
and read in front of the next block, or on their own when there is none.  Positions count from the
first byte that is read together with the fault.  Only bytes that can still become a character are
held back in this way, and the two bytes that begin a surrogate.
-/

namespace MipsLowering.Text

/-- What is wrong with bytes that are no UTF-8. -/
inductive Utf8Fault where
  /-- The byte at `position` begins no character. -/
  | start (byte : UInt8) (position : Nat)
  /-- The character begun at `position` is broken off after `length` bytes. -/
  | continuation (byte : UInt8) (position length : Nat)
  /-- The file ends `length` bytes into a character. -/
  | truncated (byte : UInt8) (length : Nat)
  deriving Repr, DecidableEq

/-! ## Characters -/

/-- A byte that continues a character. -/
def isContinuation (b : UInt8) : Bool :=
  0x80 ≤ b && b ≤ 0xBF

/-- Whether `b` may follow `a`, the first byte of a character of three or four bytes: shorter
    characters, surrogates and code points beyond the last are excluded here. -/
def isSecond (a b : UInt8) : Bool :=
  isContinuation b && (a != 0xE0 || 0xA0 ≤ b) && (a != 0xED || b ≤ 0x9F) &&
    (a != 0xF0 || 0x90 ≤ b) && (a != 0xF4 || b ≤ 0x8F)

/-- Whether two bytes begin a surrogate, which is no character. -/
def beginsSurrogate (a b : UInt8) : Bool :=
  a == 0xED && 0xA0 ≤ b && b ≤ 0xBF

/-- The character with the payload bits of a first byte, followed by those of continuation bytes. -/
def charOfBits (first : Nat) (rest : List UInt8) : Char :=
  Char.ofNat (rest.foldl (fun n b => n * 64 + b.toNat % 64) first)

/-- The characters of a block, and the bytes at its end that are held back. -/
abbrev Decoded := Except Utf8Fault (List Char × List UInt8)

/-- One more character in front of those of a block. -/
def Decoded.cons (c : Char) (rest : Decoded) : Decoded :=
  rest.map fun (cs, held) => (c :: cs, held)

/-- Reads the characters of a block whose first byte stands at `position`. -/
def decodeFrom (position : Nat) : List UInt8 → Decoded
  | [] => .ok ([], [])
  | a :: tail =>
    if a < 0x80 then
      (decodeFrom (position + 1) tail).cons (charOfBits a.toNat [])
    else if 0xC2 ≤ a && a ≤ 0xDF then
      match tail with
      | [] => .ok ([], [a])
      | b :: rest =>
        if isContinuation b then
          (decodeFrom (position + 2) rest).cons (charOfBits (a.toNat % 32) [b])
        else .error (.continuation a position 1)
    else if 0xE0 ≤ a && a ≤ 0xEF then
      match tail with
      | [] => .ok ([], [a])
      | [b] =>
        if isSecond a b || beginsSurrogate a b then .ok ([], [a, b])
        else .error (.continuation a position 1)
      | b :: c :: rest =>
        if !isSecond a b then .error (.continuation a position 1)
        else if !isContinuation c then .error (.continuation a position 2)
        else (decodeFrom (position + 3) rest).cons (charOfBits (a.toNat % 16) [b, c])
    else if 0xF0 ≤ a && a ≤ 0xF4 then
      match tail with
      | [] => .ok ([], [a])
      | [b] => if isSecond a b then .ok ([], [a, b]) else .error (.continuation a position 1)
      | [b, c] =>
        if !isSecond a b then .error (.continuation a position 1)
        else if isContinuation c then .ok ([], [a, b, c])
        else .error (.continuation a position 2)
      | b :: c :: d :: rest =>
        if !isSecond a b then .error (.continuation a position 1)
        else if !isContinuation c then .error (.continuation a position 2)
        else if !isContinuation d then .error (.continuation a position 3)
        else (decodeFrom (position + 4) rest).cons (charOfBits (a.toNat % 8) [b, c, d])
    else
      .error (.start a position)

/-! ## Blocks -/

/-- The number of bytes in a block. -/
def blockSize : Nat := 8192

/-- The first `count` blocks of a file, the last of which may be shorter than the others. -/
def blocksFrom : (count : Nat) → List UInt8 → List (List UInt8)
  | _, [] => []
  | 0, _ => []
  | count + 1, bytes => bytes.take blockSize :: blocksFrom count (bytes.drop blockSize)

/-- The blocks of a file; there are never more of them than bytes. -/
def blocks (bytes : List UInt8) : List (List UInt8) :=
  blocksFrom bytes.length bytes

/-- What is wrong with bytes that are held back at the end of the file. -/
def atEnd : List UInt8 → Except Utf8Fault Unit
  | [] => .ok ()
  | [a, b] => .error (if beginsSurrogate a b then .continuation a 0 1 else .truncated a 2)
  | a :: rest => .error (.truncated a (rest.length + 1))

/-- Reads blocks, the first of them behind the bytes `held`. -/
def decodeBlocks (held : List UInt8) : List (List UInt8) → Except Utf8Fault (List Char)
  | [] => do
    atEnd held
    return []
  | block :: rest => do
    let (cs, kept) ← decodeFrom 0 (held ++ block)
    return cs ++ (← decodeBlocks kept rest)

/-- The text that bytes spell in UTF-8. -/
def decodeUtf8 (bytes : List UInt8) : Except Utf8Fault String :=
  (decodeBlocks [] (blocks bytes)).map String.ofList

/-- The bytes that spell a text in UTF-8. -/
def encodeUtf8 (s : String) : List UInt8 :=
  s.toUTF8.data.toList

/-! ## Messages -/

/-- A byte in two hexadecimal digits. -/
def hexByte (b : UInt8) : String :=
  String.ofList [Nat.digitChar (b.toNat / 16), Nat.digitChar (b.toNat % 16)]

/-- Where a fault of `length` bytes stands; a single byte is shown, several are only located. -/
def faultPlace (byte : UInt8) (position length : Nat) : String :=
  if length == 1 then
    "byte 0x" ++ hexByte byte ++ " in position " ++ toString position
  else
    "bytes in position " ++ toString position ++ "-" ++ toString (position + length - 1)

/-- The message for bytes that are no UTF-8. -/
def Utf8Fault.message (fault : Utf8Fault) : String :=
  let (place, reason) := match fault with
    | .start byte position => (faultPlace byte position 1, "invalid start byte")
    | .continuation byte position length =>
      (faultPlace byte position length, "invalid continuation byte")
    | .truncated byte length => (faultPlace byte 0 length, "unexpected end of data")
  "'utf-8' codec can't decode " ++ place ++ ": " ++ reason

end MipsLowering.Text
