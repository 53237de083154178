import MipsLowering.Text.Utf8

/-! # Reading what was written in UTF-8

A text is decoded from its bytes as it was (`Text.decodeUtf8_encodeUtf8`), also where the end of a block
stands in the middle of a character: its first bytes wait for the next block. -/

namespace MipsLowering.Text

/-! ## Bytes -/

theorem isContinuation_iff (b : UInt8) : isContinuation b = true ↔ 128 ≤ b.toNat ∧ b.toNat ≤ 191 := by
  simp [isContinuation, UInt8.le_iff_toNat_le]

theorem isSecond_iff (a b : UInt8) :
    isSecond a b = true ↔ (128 ≤ b.toNat ∧ b.toNat ≤ 191) ∧ (a.toNat = 224 → 160 ≤ b.toNat) ∧
      (a.toNat = 237 → b.toNat ≤ 159) ∧ (a.toNat = 240 → 144 ≤ b.toNat) ∧ (a.toNat = 244 → b.toNat ≤ 143) := by
  simp [isSecond, isContinuation, UInt8.le_iff_toNat_le, ← UInt8.toNat_inj,
    Classical.or_iff_not_imp_left, and_assoc]

/-- The bytes of a character, by the number of them.  The payload of the code point is spread over them from
    the front. -/
inductive Spells (v : Nat) : List UInt8 → Prop where
  | one {a : UInt8} (first : a.toNat = v) (small : v < 128) : Spells v [a]
  | two {a b : UInt8} (first : a.toNat = 192 + v / 64) (second : b.toNat = 128 + v % 64)
      (least : 128 ≤ v) (most : v < 2048) : Spells v [a, b]
  | three {a b c : UInt8} (first : a.toNat = 224 + v / 4096) (second : b.toNat = 128 + v / 64 % 64)
      (third : c.toNat = 128 + v % 64) (least : 2048 ≤ v) (most : v < 65536)
      (scalar : v < 55296 ∨ 57343 < v) : Spells v [a, b, c]
  | four {a b c d : UInt8} (first : a.toNat = 240 + v / 262144) (second : b.toNat = 128 + v / 4096 % 64)
      (third : c.toNat = 128 + v / 64 % 64) (fourth : d.toNat = 128 + v % 64) (least : 65536 ≤ v)
      (most : v < 1114112) : Spells v [a, b, c, d]

theorem spells_encodeChar (c : Char) : Spells c.toNat (String.utf8EncodeChar c) := by
  have valid : c.toNat < 55296 ∨ 57343 < c.toNat ∧ c.toNat < 1114112 := c.valid
  rw [String.utf8EncodeChar.eq_1]
  change Spells c.toNat _
  simp only [show c.val.toNat = c.toNat from rfl]
  generalize c.toNat = v at valid ⊢
  split
  · exact .one (by simp; omega) (by omega)
  · split
    · exact .two (by simp; omega) (by simp; omega) (by omega) (by omega)
    · split
      · exact .three (by simp; omega) (by simp; omega) (by simp; omega) (by omega) (by omega) (by omega)
      · exact .four (by simp; omega) (by simp; omega) (by simp; omega) (by simp; omega) (by omega) (by omega)

/-! ## Characters -/

/-- A first byte counts by where its code lies: on its own, or before one, two or three others. -/
theorem lead_one {a : UInt8} (high : a.toNat < 128) : a < 0x80 := by
  simpa [UInt8.lt_iff_toNat_lt] using high

theorem lead_two {a : UInt8} (low : 194 ≤ a.toNat) (high : a.toNat ≤ 223) :
    ¬ a < 0x80 ∧ (0xC2 ≤ a && a ≤ 0xDF) = true := by
  simp [UInt8.lt_iff_toNat_lt, UInt8.le_iff_toNat_le]
  omega

theorem lead_three {a : UInt8} (low : 224 ≤ a.toNat) (high : a.toNat ≤ 239) :
    ¬ a < 0x80 ∧ (0xC2 ≤ a && a ≤ 0xDF) = false ∧ (0xE0 ≤ a && a ≤ 0xEF) = true := by
  simp [UInt8.lt_iff_toNat_lt, UInt8.le_iff_toNat_le]
  omega

theorem lead_four {a : UInt8} (low : 240 ≤ a.toNat) (high : a.toNat ≤ 244) :
    ¬ a < 0x80 ∧ (0xC2 ≤ a && a ≤ 0xDF) = false ∧ (0xE0 ≤ a && a ≤ 0xEF) = false ∧
      (0xF0 ≤ a && a ≤ 0xF4) = true := by
  simp [UInt8.lt_iff_toNat_lt, UInt8.le_iff_toNat_le]
  omega

/-- A character is read from its bytes, whatever comes behind them. -/
theorem decodeFrom_of_spells {v : Nat} {bytes : List UInt8} (spells : Spells v bytes) (position : Nat)
    (rest : List UInt8) :
    decodeFrom position (bytes ++ rest) = (decodeFrom (position + bytes.length) rest).cons (Char.ofNat v) := by
  cases spells with
  | @one a first small =>
    rw [List.singleton_append, decodeFrom.eq_def]
    simp only [lead_one (first ▸ small), if_true, charOfBits, first, List.foldl_nil, List.length_singleton]
  | @two a b first second least most =>
    obtain ⟨notOne, lead⟩ := lead_two (a := a) (by omega) (by omega)
    have continues : isContinuation b = true := by rw [isContinuation_iff]; omega
    have bits : charOfBits (a.toNat % 32) [b] = Char.ofNat v := by
      simp only [charOfBits, List.foldl_cons, List.foldl_nil]
      congr 1
      omega
    simp [decodeFrom, notOne, lead, continues, bits]
  | @three a b c first second third least most scalar =>
    obtain ⟨notOne, notTwo, lead⟩ := lead_three (a := a) (by omega) (by omega)
    have follows : isSecond a b = true := by rw [isSecond_iff]; omega
    have continues : isContinuation c = true := by rw [isContinuation_iff]; omega
    have bits : charOfBits (a.toNat % 16) [b, c] = Char.ofNat v := by
      simp only [charOfBits, List.foldl_cons, List.foldl_nil]
      congr 1
      omega
    simp [decodeFrom, notOne, notTwo, lead, follows, continues, bits]
  | @four a b c d first second third fourth least most =>
    obtain ⟨notOne, notTwo, notThree, lead⟩ := lead_four (a := a) (by omega) (by omega)
    have follows : isSecond a b = true := by rw [isSecond_iff]; omega
    have continues : isContinuation c = true := by rw [isContinuation_iff]; omega
    have continues' : isContinuation d = true := by rw [isContinuation_iff]; omega
    have bits : charOfBits (a.toNat % 8) [b, c, d] = Char.ofNat v := by
      simp only [charOfBits, List.foldl_cons, List.foldl_nil]
      congr 1
      omega
    simp [decodeFrom, notOne, notTwo, notThree, lead, follows, continues, continues', bits]

/-- Too few bytes of a character are held back. -/
theorem decodeFrom_of_short {v : Nat} {bytes : List UInt8} (spells : Spells v bytes) (position count : Nat)
    (short : count < bytes.length) : decodeFrom position (bytes.take count) = .ok ([], bytes.take count) := by
  cases spells with
  | @one a first small =>
    obtain rfl : count = 0 := by simpa using short
    rfl
  | @two a b first second least most =>
    obtain ⟨notOne, lead⟩ := lead_two (a := a) (by omega) (by omega)
    match count, short with
    | 0, _ => rfl
    | 1, _ => simp [decodeFrom, notOne, lead]
  | @three a b c first second third least most scalar =>
    obtain ⟨notOne, notTwo, lead⟩ := lead_three (a := a) (by omega) (by omega)
    have follows : isSecond a b = true := by rw [isSecond_iff]; omega
    match count, short with
    | 0, _ => rfl
    | 1, _ => simp [decodeFrom, notOne, notTwo, lead]
    | 2, _ => simp [decodeFrom, notOne, notTwo, lead, follows]
  | @four a b c d first second third fourth least most =>
    obtain ⟨notOne, notTwo, notThree, lead⟩ := lead_four (a := a) (by omega) (by omega)
    have follows : isSecond a b = true := by rw [isSecond_iff]; omega
    have continues : isContinuation c = true := by rw [isContinuation_iff]; omega
    match count, short with
    | 0, _ => rfl
    | 1, _ => simp [decodeFrom, notOne, notTwo, notThree, lead]
    | 2, _ => simp [decodeFrom, notOne, notTwo, notThree, lead, follows]
    | 3, _ => simp [decodeFrom, notOne, notTwo, notThree, lead, follows, continues]

/-! ## Blocks -/

theorem encodeUtf8_eq_flatMap (s : String) : encodeUtf8 s = s.toList.flatMap String.utf8EncodeChar := by
  have bytes : s.toByteArray = s.toList.utf8Encode := by
    rw [String.utf8Encode_toList]
  rw [encodeUtf8, String.toUTF8, bytes, List.utf8Encode, List.data_toByteArray]

/-- Bytes that are held back when the characters `unread` are still to come: too few for the first of
    them. -/
def Pending (held : List UInt8) : List Char → Prop
  | [] => held = []
  | c :: _ => ∃ count < (String.utf8EncodeChar c).length, held = (String.utf8EncodeChar c).take count

/-- The characters whose bytes are all there are read, and the bytes behind them are held back. -/
theorem decodeFrom_part {cs : List Char} {part later : List UInt8} (position : Nat)
    (whole : part ++ later = cs.flatMap String.utf8EncodeChar) :
    ∃ read unread held, cs = read ++ unread ∧ decodeFrom position part = .ok (read, held) ∧
      held ++ later = unread.flatMap String.utf8EncodeChar ∧ Pending held unread := by
  induction cs generalizing part position with
  | nil =>
    obtain ⟨rfl, rfl⟩ := List.append_eq_nil_iff.mp whole
    exact ⟨[], [], [], rfl, rfl, rfl, rfl⟩
  | cons c cs ih =>
    have spells := spells_encodeChar c
    rw [List.flatMap_cons] at whole
    by_cases short : part.length < (String.utf8EncodeChar c).length
    · have prior : part = (String.utf8EncodeChar c).take part.length := by
        have := congrArg (List.take part.length) whole
        rwa [List.take_left, List.take_append_of_le_length (Nat.le_of_lt short)] at this
      refine ⟨[], c :: cs, part, rfl, ?_, whole, part.length, short, prior⟩
      rw [prior]
      exact decodeFrom_of_short spells position _ (by simpa using short)
    · obtain ⟨behind, rfl⟩ : String.utf8EncodeChar c <+: part :=
        List.prefix_of_prefix_length_le ⟨_, rfl⟩ ⟨_, whole⟩ (Nat.le_of_not_lt short)
      rw [List.append_assoc, List.append_cancel_left_eq] at whole
      obtain ⟨read, unread, held, rfl, decoded, rest, pending⟩ :=
        ih (position + (String.utf8EncodeChar c).length) whole
      refine ⟨c :: read, unread, held, rfl, ?_, rest, pending⟩
      rw [decodeFrom_of_spells spells, decoded, Char.ofNat_toNat]
      rfl

theorem decodeBlocks_of_encoded {cs : List Char} {held : List UInt8} {blocks : List (List UInt8)}
    (pending : Pending held cs) (whole : held ++ blocks.flatten = cs.flatMap String.utf8EncodeChar) :
    decodeBlocks held blocks = .ok cs := by
  induction blocks generalizing held cs with
  | nil =>
    rw [List.flatten_nil, List.append_nil] at whole
    cases cs with
    | nil =>
      cases pending
      rfl
    | cons c cs =>
      -- Nothing comes any more, though the first character is not complete.
      obtain ⟨count, short, same⟩ := pending
      have lengths := congrArg List.length (same.symm.trans whole)
      simp only [List.length_take, List.flatMap_cons, List.length_append] at lengths
      omega
  | cons block rest ih =>
    rw [List.flatten_cons, ← List.append_assoc] at whole
    obtain ⟨read, unread, kept, rfl, decoded, behind, pending⟩ := decodeFrom_part 0 whole
    have remaining := ih pending behind
    rw [decodeBlocks, decoded]
    show (do return read ++ (← decodeBlocks kept rest)) = _
    rw [remaining]
    rfl

theorem flatten_blocksFrom {count : Nat} {bytes : List UInt8} (enough : bytes.length ≤ count) :
    (blocksFrom count bytes).flatten = bytes := by
  induction count generalizing bytes with
  | zero =>
    obtain rfl : bytes = [] := by simpa using enough
    rfl
  | succ count ih =>
    cases bytes with
    | nil => rfl
    | cons b bytes =>
      have fewer : ((b :: bytes).drop blockSize).length ≤ count := by
        have positive : 0 < blockSize := by decide
        rw [List.length_drop]
        omega
      rw [blocksFrom, List.flatten_cons, ih fewer, List.take_append_drop]
      simp

/-- A text is read from the bytes that spell it, wherever these are cut into blocks. -/
theorem decodeUtf8_encodeUtf8 (s : String) : decodeUtf8 (encodeUtf8 s) = .ok s := by
  have whole : [] ++ (blocks (encodeUtf8 s)).flatten = s.toList.flatMap String.utf8EncodeChar := by
    rw [List.nil_append, blocks, flatten_blocksFrom (Nat.le_refl _), encodeUtf8_eq_flatMap]
  have pending : Pending [] s.toList := by
    cases s.toList with
    | nil => rfl
    | cons c cs => exact ⟨0, String.length_utf8EncodeChar c ▸ c.utf8Size_pos, rfl⟩
  rw [decodeUtf8, decodeBlocks_of_encoded pending whole]
  exact congrArg Except.ok s.ofList_toList

end MipsLowering.Text
