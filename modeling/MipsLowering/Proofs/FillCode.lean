import MipsLowering.Proofs.ArrayCode
import MipsLowering.Proofs.Walks

/-! # Fills on the machine

The code of a fill puts the first index and the address of the first element into registers, fetches the
last index, and goes round a loop that clears one element and moves on to the next.  It leaves the loop
where the index is equal to the last one.  The index counts upward and wraps around, so there are as many
rounds as the difference of the two says when it is taken as a number without a sign
(`FillLoop.walks`). -/

namespace MipsLowering

-- The class of an operand is only used through the theorems about it.
seal Operand.ofString

/-! ## Memory -/

/-- Elements counted from one element are those counted from the next one, moved on by one. -/
theorem Width.add_bytes_add (width : Width) (a : Word) (k : Nat) :
    a + BitVec.ofNat 32 width.bytes + BitVec.ofNat 32 (k * width.bytes) =
      a + BitVec.ofNat 32 ((k + 1) * width.bytes) := by
  rw [BitVec.add_assoc, ← BitVec.ofNat_add, Nat.add_mul, Nat.one_mul, Nat.add_comm]

namespace Memory

/-- Memory with `n` elements from an address on set to zero, one after the other. -/
def clear (width : Width) : Nat → Word → Memory → Memory
  | 0, _, m => m
  | n + 1, a, m => clear width n (a + BitVec.ofNat 32 width.bytes) (m.write width a 0)

theorem write_zero (m : Memory) (width : Width) (a x : Word) :
    m.write width a 0 x = if (x - a).toNat < width.bytes then 0 else m x := by
  simp [write]

/-- A byte is cleared if it belongs to one of the elements, and kept if it does not. -/
theorem clear_apply (width : Width) (n : Nat) (a : Word) (m : Memory) (x : Word) :
    clear width n a m x =
      if ∃ k < n, (x - (a + BitVec.ofNat 32 (k * width.bytes))).toNat < width.bytes then 0 else m x := by
  induction n generalizing a m with
  | zero => simp [clear]
  | succ n ih =>
    simp only [clear, ih, width.add_bytes_add, write_zero, Nat.exists_lt_succ_left, Nat.zero_mul, BitVec.add_zero]
    split
    next later => rw [if_pos (.inr later)]
    next noLater => simp only [noLater, or_false]

end Memory

theorem Width.Admits.add_mul {width : Width} {a : Word} (admits : width.Admits a) (i : Word) :
    width.Admits (a + i * BitVec.ofNat 32 width.bytes) := by
  cases width with
  | byte => exact Nat.mod_one _
  | word =>
    simp only [Width.Admits, Width.bytes] at admits ⊢
    bv_omega

theorem Width.Admits.add {width : Width} {a : Word} (admits : width.Admits a) :
    width.Admits (a + BitVec.ofNat 32 width.bytes) := by
  have next := admits.add_mul 1#32
  rwa [BitVec.one_mul] at next

/-! ## The loop -/

/-- The lines of a loop that clears elements up to the index in a register. -/
def fillLines (width : Width) (loop : String) (last : Register) : List Node :=
  [.label loop,
    (Op.beq "$a2" last (loop ++ "_end")).node,
    (Op.store width zeroRegister (.base "$a3")).node,
    (Op.aluImm .addiu "$a3" "$a3" width.bytes).node,
    (Op.aluImm .addiu "$a2" "$a2" 1).node,
    (Op.j loop).node,
    .label (loop ++ "_end")]

/-- These lines where a listing has them and goes on with `tail`. -/
structure FillLoop (m : Image) (width : Width) (loop : String) (last : Register) (nodes tail : List Node) :
    Prop where
  lines : nodes.map Node.bare = fillLines width loop last
  enters : m.from? loop = some (nodes ++ tail)
  leaves : m.from? (loop ++ "_end") = some (.label (loop ++ "_end") :: tail)
  notIndex : last ≠ "$a2"
  notCursor : last ≠ "$a3"

namespace FillLoop

/-- What the registers and memory hold after one more round. -/
def next (width : Width) (c : Core) : Core :=
  let cleared : Core := { c with memory := c.memory.write width (c.reg "$a3") 0 }
  let moved := cleared.setReg "$a3" (c.reg "$a3" + BitVec.ofNat 32 width.bytes)
  moved.setReg "$a2" (c.reg "$a2" + 1)

variable {m : Image} {place : String → Word} {width : Width} {loop : String} {last : Register}
  {nodes tail : List Node} {c : Core} {stores : List Word}

theorem next_index : (next width c).reg "$a2" = c.reg "$a2" + 1 :=
  Core.reg_setReg_self _ _ (by decide)

theorem next_cursor : (next width c).reg "$a3" = c.reg "$a3" + BitVec.ofNat 32 width.bytes := by
  unfold next
  rw [Core.reg_setReg_of_ne _ _ (by decide), Core.reg_setReg_self _ _ (by decide)]

theorem next_others {r : Register} (notIndex : r ≠ "$a2") (notCursor : r ≠ "$a3") :
    (next width c).reg r = c.reg r := by
  unfold next
  rw [Core.reg_setReg_of_ne _ _ notIndex, Core.reg_setReg_of_ne _ _ notCursor]
  rfl

variable (fill : FillLoop m width loop last nodes tail)

include fill

/-- At the last index the loop is left. -/
theorem stop (equal : c.reg "$a2" = c.reg last) :
    m.Walks place ⟨c, nodes ++ tail, stores⟩ ⟨c, .label (loop ++ "_end") :: tail, stores⟩ := by
  have leaves := fill.leaves
  obtain ⟨head, _, rfl, isLabel, lines⟩ := List.map_eq_cons_iff.mp fill.lines
  obtain ⟨test, _, rfl, isTest, -⟩ := List.map_eq_cons_iff.mp lines
  exact .head (Image.walk?_label isLabel) <| .single (Image.walk?_beq_of_eq isTest equal leaves)

/-- At any other index one more element is cleared. -/
theorem round (differs : c.reg "$a2" ≠ c.reg last) (aligned : width.Admits (c.reg "$a3")) :
    m.Walks place ⟨c, nodes ++ tail, stores⟩ ⟨next width c, nodes ++ tail, stores ++ [c.reg "$a3"]⟩ := by
  let cleared : Core := { c with memory := c.memory.write width (c.reg "$a3") 0 }
  let moved := cleared.setReg "$a3" (c.reg "$a3" + BitVec.ofNat 32 width.bytes)
  have clears : c.exec place (.store width zeroRegister (.base "$a3")) = some cleared := by
    have zero : c.reg zeroRegister = 0 := if_pos rfl
    rw [Core.exec, Core.locate, if_pos aligned, zero]
  have moves : cleared.exec place (.aluImm .addiu "$a3" "$a3" width.bytes) = some moved := by
    rw [Core.exec, ImmOp.eval, BitVec.ofInt_natCast]
    rfl
  have counts : moved.exec place (.aluImm .addiu "$a2" "$a2" 1) = some (next width c) := by
    rw [Core.exec, ImmOp.eval, Core.reg_setReg_of_ne _ _ (by decide)]
    rfl
  -- The six lines of one round, from the label of the loop back to it.
  have enters := fill.enters
  obtain ⟨head, _, rfl, isLabel, lines⟩ := List.map_eq_cons_iff.mp fill.lines
  obtain ⟨test, _, rfl, isTest, lines⟩ := List.map_eq_cons_iff.mp lines
  obtain ⟨store, _, rfl, isStore, lines⟩ := List.map_eq_cons_iff.mp lines
  obtain ⟨move, _, rfl, isMove, lines⟩ := List.map_eq_cons_iff.mp lines
  obtain ⟨count, _, rfl, isCount, lines⟩ := List.map_eq_cons_iff.mp lines
  obtain ⟨jump, _, rfl, isJump, -⟩ := List.map_eq_cons_iff.mp lines
  exact .head (Image.walk?_label isLabel) <| .head (Image.walk?_beq_of_ne isTest differs) <|
    .head (Image.walk?_exec isStore clears) <| .head (Image.walk?_exec_of_isStore isMove rfl moves) <|
    .head (Image.walk?_exec_of_isStore isCount rfl counts) <| .single (Image.walk?_j isJump enters)

/-- The loop is left after as many rounds as the index is away from the last one, counting upward. -/
theorem walks (place : String → Word) (stores : List Word) {n : Nat} (count : (c.reg last - c.reg "$a2").toNat = n)
    (aligned : width.Admits (c.reg "$a3")) :
    ∃ d, m.Walks place ⟨c, nodes ++ tail, stores⟩
        ⟨d, .label (loop ++ "_end") :: tail, stores ++
          (List.range n).map fun k => c.reg "$a3" + BitVec.ofNat 32 (k * width.bytes)⟩ ∧
      d.memory = Memory.clear width n (c.reg "$a3") c.memory ∧
      ∀ r, r ≠ "$a2" → r ≠ "$a3" → d.reg r = c.reg r := by
  -- On the rounds that are left.  The index and the cursor move on together, and so does what is cleared.
  induction n generalizing c stores with
  | zero =>
    have equal : c.reg "$a2" = c.reg last := by bv_omega
    exact ⟨c, by simpa using fill.stop equal, rfl, fun _ _ _ => rfl⟩
  | succ n ih =>
    have differs : c.reg "$a2" ≠ c.reg last := by bv_omega
    have fewer : ((next width c).reg last - (next width c).reg "$a2").toNat = n := by
      rw [next_others fill.notIndex fill.notCursor, next_index]
      bv_omega
    have aligned' : width.Admits ((next width c).reg "$a3") := next_cursor ▸ aligned.add
    obtain ⟨d, later, memory, others⟩ := ih (stores ++ [c.reg "$a3"]) fewer aligned'
    refine ⟨d, ?_, ?_, fun r notIndex notCursor => ?_⟩
    · have addresses : (List.range (n + 1)).map (fun k => c.reg "$a3" + BitVec.ofNat 32 (k * width.bytes)) =
          c.reg "$a3" :: (List.range n).map fun k =>
            (next width c).reg "$a3" + BitVec.ofNat 32 (k * width.bytes) := by
        rw [List.range_succ_eq_map, List.map_cons, List.map_map, Nat.zero_mul, BitVec.add_zero, next_cursor]
        simp only [width.add_bytes_add]
        rfl
      rw [addresses, List.append_cons]
      exact (fill.round differs aligned).trans later
    · rw [memory, next_cursor]
      rfl
    · rw [others r notIndex notCursor, next_others notIndex notCursor]

omit fill in
/-- Jumps find the loop where its labels stand for the first time. -/
theorem of_text {before : List Node} (lines : nodes.map Node.bare = fillLines width loop last)
    (text : m.text = before ++ nodes ++ tail) (absent : ∀ l ∈ [loop, loop ++ "_end"], .label l ∉ before)
    (notIndex : last ≠ "$a2") (notCursor : last ≠ "$a3") :
    FillLoop m width loop last nodes tail ∧ ∃ body, nodes = body ++ [.label (loop ++ "_end")] := by
  obtain ⟨body, exit, rfl, isBody, isExit⟩ :=
    List.map_eq_append_iff.mp (lines.trans (List.dropLast_append_getLast (List.cons_ne_nil _ _)).symm)
  obtain ⟨label, rfl, bare⟩ := List.map_eq_singleton_iff.mp isExit
  obtain rfl : label = .label (loop ++ "_end") := Node.eq_label_of_bare bare
  have notLoop : loop ++ "_end" ≠ loop := by
    intro same
    simpa using congrArg String.length same
  -- Both labels stand nowhere before, so a jump to one of them goes to the line in this loop.
  refine ⟨⟨lines, ?_, ?_, notIndex, notCursor⟩, body, rfl⟩
  · obtain ⟨head, rest, rfl, isHead, -⟩ := List.map_eq_cons_iff.mp isBody
    obtain rfl : head = .label loop := Node.eq_label_of_bare isHead
    have begins : m.text = before ++ .label loop :: (rest ++ [.label (loop ++ "_end")] ++ tail) := by
      simp [text]
    simpa using Image.from?_of_text begins (absent loop (by simp))
  · have ends : m.text = before ++ body ++ .label (loop ++ "_end") :: tail := by
      simp [text]
    refine Image.from?_of_text ends fun early => ?_
    rcases List.mem_append.mp early with before | inBody
    · exact absent _ (by simp) before
    · have member := List.mem_map_of_mem (f := Node.bare) inBody
      rw [isBody] at member
      simp [Op.node, notLoop] at member

end FillLoop

/-! ## Before the loop -/

namespace Tables

variable {t : Tables} {place : String → Word} {array start stop : String}

/-- The operations before the loop. -/
def fillFront (t : Tables) (array start stop : String) : List Op :=
  let first := t.fetch start (some t.config.indexRegister)
  Op.la t.config.addressRegister array :: first.2 ++ moveCode t.config.indexRegister first.1 ++
    t.cursorCode array ++ (t.fetch stop (some t.config.scratch1)).2

/-- The indices between which a fill clears elements, as its code gets them.  The last one is fetched when
    the first one has been brought to its register already. -/
def bounds (t : Tables) (place : String → Word) (c : Core) (start stop : String) : Word × Word :=
  let first := t.value place c start
  let loaded := c.setReg (t.fetch start (some t.config.indexRegister)).1 first
  (first, t.value place loaded stop)

theorem isStore_fetch (operand : String) (wanted : Option Register) :
    ∀ op ∈ (t.fetch operand wanted).2, op.isStore = false := by
  have load : ∀ name register, ∀ op ∈ t.load name register, op.isStore = false := by
    intro name register
    unfold Tables.load
    split
    · exact List.forall_mem_nil _
    · split <;> simp [Op.isStore]
  unfold fetch
  cases Operand.ofString (Text.stripped operand) with
  | name name => exact load name _
  | immediate | float | text => simp [fetchAs, Op.isStore]

theorem isStore_fillFront : ∀ op ∈ t.fillFront array start stop, op.isStore = false := by
  have moves : ∀ dest source, ∀ op ∈ moveCode dest source, op.isStore = false := by
    intro dest source
    unfold moveCode
    split <;> simp [Op.isStore]
  have cursor : ∀ op ∈ t.cursorCode array, op.isStore = false := by simp [cursorCode, Op.isStore]
  intro op member
  simp only [fillFront, List.mem_append, List.mem_cons] at member
  rcases member with (((rfl | first) | move) | scale) | last
  · rfl
  · exact isStore_fetch start _ op first
  · exact moves _ _ op move
  · exact cursor op scale
  · exact isStore_fetch stop _ op last

theorem runs_moveCode (place : String → Word) {dest : Register} (notZero : dest ≠ zeroRegister)
    (source : Register) (c : Core) :
    ∃ d, Core.run place ((moveCode dest source).map Op.node) c = some d ∧ c.Gets dest (c.reg source) d := by
  unfold moveCode
  by_cases same : source = dest
  · exact ⟨c, by simp [same, Core.run], rfl, by rw [same], fun _ _ => rfl⟩
  · rw [if_pos (bne_iff_ne.mpr same)]
    exact ⟨_, Core.run_op_cons rfl, c.gets_setReg _ notZero⟩

/-- The cursor is moved on to the element whose index is in its register. -/
theorem runs_cursorCode (standard : t.Standard) (place : String → Word) (array : String) (c : Core) :
    ∃ d, Core.run place ((t.cursorCode array).map Op.node) c = some d ∧ d.memory = c.memory ∧
      d.reg "$a3" = c.reg "$a3" + c.reg "$a2" * BitVec.ofNat 32 (t.symbols.elementSize array) ∧
      ∀ r, r ≠ "$v1" → r ≠ "$a3" → d.reg r = c.reg r := by
  let size := BitVec.ofNat 32 (t.symbols.elementSize array)
  let sized := c.setReg "$v1" size
  let scaled := sized.setReg "$v1" (sized.reg "$a2" * sized.reg "$v1")
  let added := scaled.setReg "$a3" (scaled.reg "$a3" + scaled.reg "$v1")
  have sizes : c.exec place (.li "$v1" (toString (t.symbols.elementSize array))) = some sized := by
    rw [Core.exec, integer?_elementSize, Option.map_some, BitVec.ofInt_natCast]
  obtain ⟨literal, cursor, -⟩ := usual_ne_zeroRegister
  refine ⟨added, ?_, rfl, ?_, fun r notLiteral notCursor => ?_⟩
  · unfold cursorCode
    rw [standard.addressRegister, standard.indexRegister, standard.scratch0, Core.run_op_cons sizes,
      Core.run_op_cons rfl, Core.run_op_cons rfl]
    rfl
  · simp [added, scaled, sized, size, literal, cursor]
  · simp [added, scaled, sized, notLiteral, notCursor]

theorem Standard.fetch_fst_ne_zeroRegister (standard : t.Standard) (operand : String) {r : Register}
    (named : r ≠ "") (notZero : r ≠ zeroRegister) : (t.fetch operand (some r)).1 ≠ zeroRegister := by
  intro zero
  rcases Standard.fetch_fst (t := t) operand named with offered | ⟨name, -, bound⟩
  · exact notZero (offered.symm.trans zero)
  · exact register_ne_zeroRegister standard.draws name (bound.symm.trans zero)

/-- Before the loop the bounds are brought to registers, and the cursor is at the first element.  Besides the
    registers that code uses for itself, only those of the bounds are written to. -/
theorem runs_fillFront (array : String) (standard : t.Standard) (admits : t.Admits place start)
    (admits' : t.Admits place stop) (c : Core) :
    ∃ d, Core.run place ((t.fillFront array start stop).map Op.node) c = some d ∧ d.memory = c.memory ∧
      d.reg "$a2" = (t.bounds place c start stop).1 ∧
      d.reg "$a3" = place array + (t.bounds place c start stop).1 *
        BitVec.ofNat 32 (t.symbols.elementSize array) ∧
      d.reg (t.fetch stop (some "$a1")).1 = (t.bounds place c start stop).2 ∧
      ∀ r, r ∉ defaultScratch ++ defaultAddress → r ≠ (t.fetch start (some "$a2")).1 →
        r ≠ (t.fetch stop (some "$a1")).1 → d.reg r = c.reg r := by
  let first := (t.fetch start (some "$a2")).1
  let last := (t.fetch stop (some "$a1")).1
  let v := t.value place c start
  let based := c.setReg "$a3" (place array)
  let loaded := c.setReg first v
  have literal : ∀ r : Register, r ≠ "" → r ≠ zeroRegister →
      t.registers.literalRegister (some r) ≠ zeroRegister := by
    intro r named notZero
    rwa [t.registers.literalRegister_of_named named]
  have first_ne : ∀ r ∈ defaultScratch ++ defaultAddress, r ≠ "$a2" → first ≠ r := fun r =>
    standard.fetch_fst_ne start (by decide)
  have last_ne : ∀ r ∈ defaultScratch ++ defaultAddress, r ≠ "$a1" → last ≠ r := fun r =>
    standard.fetch_fst_ne stop (by decide)
  have notZero : first ≠ zeroRegister := standard.fetch_fst_ne_zeroRegister start (by decide) (by decide)
  obtain ⟨fetched, ranFirst, getsFirst⟩ :=
    runs_fetch standard.draws (literal "$a2" (by decide) (by decide)) admits based
  obtain ⟨moved, ranMove, getsMove⟩ :=
    runs_moveCode place (show "$a2" ≠ zeroRegister by decide) first fetched
  obtain ⟨scaled, ranScale, memory, cursor, others⟩ := runs_cursorCode standard place array moved
  obtain ⟨d, ranLast, getsLast⟩ :=
    runs_fetch standard.draws (literal "$a1" (by decide) (by decide)) admits' scaled
  have value : t.value place based start = v :=
    value_congr (c := c) (d := based) rfl
      (fun name => c.reg_setReg_of_ne _ (standard.register_ne name (by decide))) start
  rw [value] at getsFirst
  have sameMemory : scaled.memory = c.memory := by
    rw [memory, getsMove.memory, getsFirst.memory]
    rfl
  -- Apart from what code uses for itself, the first index in its register is all that has changed.
  have early : ∀ r ∉ defaultScratch ++ defaultAddress, scaled.reg r = loaded.reg r := by
    intro r unusual
    have ne : ∀ other ∈ defaultScratch ++ defaultAddress, r ≠ other := by
      rintro other usual rfl
      exact unusual usual
    rw [others r (ne _ (by decide)) (ne _ (by decide)), getsMove.others r (ne _ (by decide))]
    by_cases same : r = first
    · rw [same, getsFirst.value, c.reg_setReg_self v notZero]
    · rw [getsFirst.others r same, c.reg_setReg_of_ne v same, c.reg_setReg_of_ne _ (ne _ (by decide))]
  have index : scaled.reg "$a2" = v := by
    rw [others "$a2" (by decide) (by decide), getsMove.value, getsFirst.value]
  have address : scaled.reg "$a3" = place array + v * BitVec.ofNat 32 (t.symbols.elementSize array) := by
    rw [cursor, getsMove.value, getsFirst.value, getsMove.others "$a3" (by decide),
      getsFirst.others "$a3" (first_ne _ (by decide) (by decide)).symm, c.reg_setReg_self _ (by decide)]
  have fetches : t.value place loaded stop = t.value place scaled stop :=
    value_congr (show loaded.memory = scaled.memory from sameMemory.symm)
      (fun name => (early _ fun usual => standard.register_ne name usual rfl).symm) stop
  have bounded : t.bounds place c start stop = (v, t.value place scaled stop) := by
    rw [bounds, standard.indexRegister, ← fetches]
  rw [bounded]
  refine ⟨d, ?_, getsLast.memory.trans sameMemory, ?_, ?_, getsLast.value, fun r unusual notFirst notLast => ?_⟩
  · unfold fillFront
    rw [standard.indexRegister, standard.addressRegister, standard.scratch1, List.map_append, List.map_append,
      List.map_append]
    exact Core.run_append_some (Core.run_append_some (Core.run_append_some
      ((Core.run_op_cons rfl).trans ranFirst) ranMove) ranScale) ranLast
  · rw [getsLast.others "$a2" (last_ne _ (by decide) (by decide)).symm, index]
  · rw [getsLast.others "$a3" (last_ne _ (by decide) (by decide)).symm, address]
  · rw [getsLast.others r notLast, early r unusual, c.reg_setReg_of_ne v notFirst]

/-! ## Fills -/

theorem fillLoop_eq (standard : t.Standard) {width : Width}
    (type : (t.symbols.elementType array).width = width) (size : t.symbols.elementSize array = width.bytes)
    (loop : String) (last : Register) : t.fillLoop array loop last = fillLines width loop last := by
  unfold fillLoop fillLines
  rw [standard.addressRegister, standard.indexRegister, type, size]

/-- The code of a fill gets to its last line, having cleared the elements from the first index on up to the
    last one, counting upward. -/
theorem walks_fillCode (standard : t.Standard) {width : Width}
    (type : (t.symbols.elementType array).width = width) (size : t.symbols.elementSize array = width.bytes)
    {m : Image} {before nodes tail : List Node} {loop : String}
    (laid : nodes.map Node.bare = t.fillCode array start stop loop)
    (text : m.text = before ++ nodes ++ tail) (absent : ∀ l ∈ [loop, loop ++ "_end"], .label l ∉ before)
    (admits : t.Admits place start) (admits' : t.Admits place stop) (aligned : width.Admits (place array))
    {c : Core} {first last : Word} (bounds : t.bounds place c start stop = (first, last)) :
    let rounds := (last - first).toNat
    let cursor := place array + first * BitVec.ofNat 32 width.bytes
    (∃ code, nodes = code ++ [.label (loop ++ "_end")]) ∧
      ∃ d, m.Walks place ⟨c, nodes ++ tail, []⟩ ⟨d, .label (loop ++ "_end") :: tail,
          (List.range rounds).map fun k => cursor + BitVec.ofNat 32 (k * width.bytes)⟩ ∧
        d.memory = Memory.clear width rounds cursor c.memory ∧
        ∀ r, r ∉ defaultScratch ++ defaultAddress → r ≠ (t.fetch start (some "$a2")).1 →
          r ≠ (t.fetch stop (some "$a1")).1 → d.reg r = c.reg r := by
  intro rounds cursor
  obtain ⟨front, nodes, rfl, isFront, isLoop⟩ := List.map_eq_append_iff.mp laid
  rw [standard.scratch1, fillLoop_eq standard type size] at isLoop
  -- There are neither labels nor stores before the loop.
  have noLabel : ∀ l, .label l ∉ front := by
    intro l member
    have bare := List.mem_map_of_mem (f := Node.bare) member
    rw [isFront] at bare
    simp [Op.node] at bare
  have noStore : ∀ i, .instr i ∈ front → i.op.isStore = false := by
    intro i member
    have bare := List.mem_map_of_mem (f := Node.bare) member
    rw [isFront] at bare
    obtain ⟨op, inFront, same⟩ := List.mem_map.mp bare
    cases same
    exact isStore_fillFront _ inFront
  obtain ⟨c₁, ran, memory, index, address, limit, others⟩ := runs_fillFront array standard admits admits' c
  rw [bounds] at index address limit
  have text' : m.text = before ++ front ++ nodes ++ tail := by simp [text]
  have absent' : ∀ l ∈ [loop, loop ++ "_end"], .label l ∉ before ++ front := fun l member => by
    simp [absent l member, noLabel l]
  obtain ⟨fill, body, rfl⟩ := FillLoop.of_text isLoop text' absent'
    (standard.fetch_fst_ne stop (by decide) (by decide) (by decide))
    (standard.fetch_fst_ne stop (by decide) (by decide) (by decide))
  have atCursor : c₁.reg "$a3" = cursor := by rw [address, size]
  have count : (c₁.reg (t.fetch stop (some "$a1")).1 - c₁.reg "$a2").toNat = rounds := by rw [limit, index]
  obtain ⟨d, walks, cleared, kept⟩ := fill.walks place [] count (atCursor ▸ aligned.add_mul first)
  rw [atCursor, List.nil_append] at walks
  rw [atCursor, memory] at cleared
  have ran' : Core.run place front c = some c₁ := by
    rw [← Core.run_map_bare, isFront]
    exact ran
  refine ⟨⟨front ++ body, by simp⟩, d, ?_, cleared, fun r unusual notFirst notLast => ?_⟩
  · rw [List.append_assoc]
    exact (Image.walks_of_run noStore ran').trans walks
  · have notIndex : r ≠ "$a2" := fun same => unusual (same ▸ by decide)
    have notCursor : r ≠ "$a3" := fun same => unusual (same ▸ by decide)
    rw [kept r notIndex notCursor, others r unusual notFirst notLast]

end Tables

end MipsLowering
