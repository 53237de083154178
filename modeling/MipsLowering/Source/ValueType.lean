import MipsLowering.Text.Blank

/-!
# Value types

The type of a variable decides the width of its cell and of every access to it.  Strings are held by
address, so only characters are narrower than a word.

A declaration names its type in any case, so what counts is the capital spelling of the name.  Besides
the ASCII letters, ten characters have an ASCII capital spelling: the sharp s, the dotless i, the long s
and seven ligatures.
-/

namespace MipsLowering

/-! ## Capital spelling -/

namespace Text

/-- The characters outside ASCII whose capital spelling is ASCII. -/
def asciiCapitals : List (Char × List Char) := [
  ('ß', ['S', 'S']), ('ı', ['I']), ('ſ', ['S']), ('ﬀ', ['F', 'F']), ('ﬁ', ['F', 'I']),
  ('ﬂ', ['F', 'L']), ('ﬃ', ['F', 'F', 'I']), ('ﬄ', ['F', 'F', 'L']), ('ﬅ', ['S', 'T']),
  ('ﬆ', ['S', 'T'])]

/-- The capital spelling of a character, if it is ASCII. -/
def capitalOf? (c : Char) : Option (List Char) :=
  if c.toNat < 0x80 then some [c.toUpper] else asciiCapitals.lookup c

/-- The capital spelling of a text, if it is ASCII. -/
def capitals? : List Char → Option (List Char)
  | [] => some []
  | c :: cs => do
    let head ← capitalOf? c
    let tail ← capitals? cs
    return head ++ tail

end Text

/-! ## Types -/

/-- The number of bytes a memory access moves. -/
inductive Width where
  | byte
  | word
  deriving Repr, DecidableEq

/-- The size of an access in bytes. -/
def Width.bytes : Width → Nat
  | .byte => 1
  | .word => 4

/-- The type of a variable or of an operand; `unknown` for names that nothing declares. -/
inductive ValueType where
  | int
  | float
  | bool
  | char
  | string
  | unknown
  deriving Repr, DecidableEq

namespace ValueType

/-- The name of a type in listings and messages. -/
def name : ValueType → String
  | .int => "INT"
  | .float => "FLOAT"
  | .bool => "BOOL"
  | .char => "CHAR"
  | .string => "STRING"
  | .unknown => "UNKNOWN"

/-- The type that a declaration names: blanks around the name and its case do not matter, and a name
    that is no type gives `unknown`. -/
def ofName (s : String) : ValueType :=
  match (Text.capitals? (Text.strip s.toList)).map String.ofList with
  | some "INT" | some "INTEGER" => .int
  | some "FLOAT" => .float
  | some "BOOL" | some "BOOLEAN" => .bool
  | some "CHAR" => .char
  | some "STRING" => .string
  | _ => .unknown

/-- The type that a declaration gives, which may name none. -/
def ofGivenName (given : Option String) : ValueType :=
  (given.map ofName).getD .unknown

/-- The width of a value of a type. -/
def width : ValueType → Width
  | .char => .byte
  | _ => .word

/-- The size of a value of a type in bytes. -/
def size (t : ValueType) : Nat :=
  t.width.bytes

end ValueType

end MipsLowering
