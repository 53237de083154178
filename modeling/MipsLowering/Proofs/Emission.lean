import MipsLowering.Program
import MipsLowering.Proofs.Machine

/-! # What actions of a pass lay out

Lemmas that take a successful run of an action apart.  Tables only grow during a pass: names keep their
registers (`RegisterFile.Extends`), of which the names that are bound determine everything
(`RegisterFile.Sound`), literals keep their labels, and a name that has a cell keeps it
(`SymbolTable.cell?`).  `Lays p q nodes names` says that between two states of a pass the lines
`nodes` were laid out, the names `names` were bound, and nothing else was done that matters. -/

namespace MipsLowering

/-! ## Registers of names -/

namespace RegisterFile

/-- The register of the name that is bound as number `i`, counted from zero. -/
def registerAt (pool : List Register) (i : Nat) : Register :=
  pool.getD (min i (pool.length - 1)) ""

/-- The register file in which names have been bound in order. -/
def ofNames (pool scratch : List Register) (names : List String) : RegisterFile where
  pool := pool
  scratch := scratch
  bindings := names.mapIdx fun i name => (name, registerAt pool i)
  cursor := min names.length pool.length
  reported := pool.length < names.length

/-- The names that are bound determine everything else, and none is bound twice. -/
structure Sound (f : RegisterFile) : Prop where
  distinct : f.names.Nodup
  determined : f = ofNames f.pool f.scratch f.names

instance (f : RegisterFile) : Decidable f.Sound :=
  decidable_of_iff (f.names.Nodup ∧ f = ofNames f.pool f.scratch f.names)
    ⟨fun ⟨distinct, determined⟩ => ⟨distinct, determined⟩, fun sound => ⟨sound.distinct, sound.determined⟩⟩

variable {f g h : RegisterFile} {name : String} {r : Register}

@[simp] theorem names_ofNames (pool scratch : List Register) (names : List String) :
    (ofNames pool scratch names).names = names := by
  apply List.ext_getElem?
  simp [RegisterFile.names, ofNames, List.getElem?_mapIdx, Option.map_map, Function.comp_def]

theorem sound_ofNames {pool scratch : List Register} {names : List String} (distinct : names.Nodup) :
    (ofNames pool scratch names).Sound :=
  ⟨by rwa [names_ofNames], by rw [names_ofNames]; rfl⟩

theorem sound_ofRegisters (pool scratch : List Register) : (ofRegisters pool scratch).Sound :=
  show (ofNames pool scratch []).Sound from sound_ofNames List.nodup_nil

/-- The pool is used up when there are as many names as registers. -/
theorem isExhausted_ofNames (pool scratch : List Register) (names : List String) :
    (ofNames pool scratch names).isExhausted = decide (pool.length ≤ names.length) := by
  rw [isExhausted, decide_eq_decide]
  show pool.length ≤ min names.length pool.length ↔ _
  omega

/-- The cursor is at the number of the next name as long as there are registers left. -/
theorem nextRegister_ofNames (pool scratch : List Register) (names : List String) :
    (ofNames pool scratch names).nextRegister = registerAt pool names.length := by
  rw [nextRegister, isExhausted_ofNames]
  by_cases full : pool.length ≤ names.length
  · simp [full, ofNames, registerAt, List.getLastD_eq_getLast?, List.getLast?_eq_getElem?,
      show min names.length (pool.length - 1) = pool.length - 1 by omega]
  · simp [full, ofNames, registerAt, show min names.length pool.length = names.length by omega,
      show min names.length (pool.length - 1) = names.length by omega]

/-- A step from one register file to the next keeps what the names determine. -/
theorem bind_ofNames (pool scratch : List Register) (names : List String) (name : String) :
    (ofNames pool scratch names).bind name = ofNames pool scratch (names ++ [name]) := by
  unfold bind
  rw [isExhausted_ofNames, nextRegister_ofNames]
  by_cases full : pool.length ≤ names.length
  · simp [full, ofNames, List.mapIdx_append]
    omega
  · simp [full, ofNames, List.mapIdx_append]
    omega

theorem mem_names_iff : name ∈ f.names ↔ ∃ r, (name, r) ∈ f.bindings := by
  simp [names]

theorem lookup?_isSome : (f.lookup? name).isSome ↔ name ∈ f.names := by
  simp [lookup?, mem_names_iff]

theorem not_mem_of_lookup? (free : f.lookup? name = none) : name ∉ f.names := by
  rw [← lookup?_isSome, free]
  simp

theorem bindings_bind (f : RegisterFile) (name : String) :
    (f.bind name).bindings = f.bindings ++ [(name, f.nextRegister)] := by
  unfold bind
  split <;> rfl

@[simp] theorem pool_bind (f : RegisterFile) (name : String) : (f.bind name).pool = f.pool := by
  unfold bind
  split <;> rfl

@[simp] theorem scratch_bind (f : RegisterFile) (name : String) : (f.bind name).scratch = f.scratch := by
  unfold bind
  split <;> rfl

theorem names_bind (f : RegisterFile) (name : String) : (f.bind name).names = f.names ++ [name] := by
  rw [names, bindings_bind, List.map_append]
  rfl

theorem lookup?_bind (free : f.lookup? name = none) : (f.bind name).lookup? name = some f.nextRegister := by
  have none : f.bindings.lookup name = none := free
  simp [lookup?, bindings_bind, List.lookup_append, none]

/-- What is bound later is determined by the names too. -/
theorem Sound.bind (sound : f.Sound) (free : f.lookup? name = none) : (f.bind name).Sound := by
  rw [sound.determined, bind_ofNames]
  apply sound_ofNames
  refine List.nodup_append.mpr ⟨sound.distinct, by simp, ?_⟩
  rintro other member last isLast rfl
  obtain rfl : other = name := List.mem_singleton.mp isLast
  exact not_mem_of_lookup? free member

/-- A register file in which the names of an earlier one are still bound to their registers, and which
    is sound if the earlier one was. -/
structure Extends (f g : RegisterFile) : Prop where
  pool : g.pool = f.pool
  scratch : g.scratch = f.scratch
  bindings : f.bindings <+: g.bindings
  sound : f.Sound → g.Sound

theorem Extends.refl (f : RegisterFile) : f.Extends f :=
  ⟨rfl, rfl, List.prefix_rfl, id⟩

theorem Extends.trans (first : f.Extends g) (second : g.Extends h) : f.Extends h :=
  ⟨second.pool.trans first.pool, second.scratch.trans first.scratch,
    first.bindings.trans second.bindings, fun sound => second.sound (first.sound sound)⟩

theorem extends_bind (free : f.lookup? name = none) : f.Extends (f.bind name) where
  pool := pool_bind f name
  scratch := scratch_bind f name
  bindings := bindings_bind f name ▸ List.prefix_append _ _
  sound sound := sound.bind free

theorem Extends.names (later : f.Extends g) : f.names <+: g.names :=
  later.bindings.map Prod.fst

/-- Bindings are never changed. -/
theorem Extends.lookup? (later : f.Extends g) (bound : f.lookup? name = some r) : g.lookup? name = some r := by
  obtain ⟨more, same⟩ := later.bindings
  -- Names are added at the end, so the first place of a name stays the same.
  have first : f.bindings.lookup name = some r := bound
  rw [RegisterFile.lookup?, ← same, List.lookup_append, first, Option.some_or]

theorem Extends.literalRegister (later : f.Extends g) (wanted : Option Register) :
    g.literalRegister wanted = f.literalRegister wanted := by
  simp only [RegisterFile.literalRegister, later.scratch]

end RegisterFile

/-! ## Cells of names -/

namespace SymbolTable

/-- The entry of a name that has a cell. -/
def cell? (t : SymbolTable) (name : String) : Option Symbol :=
  (t.lookup? name).filter (·.inMemory)

theorem cell?_of_lookup? {t : SymbolTable} {name : String} {s : Symbol}
    (found : t.lookup? name = some s) : t.cell? name = if s.inMemory then some s else none := by
  rw [cell?, found, Option.filter_some]

theorem cell?_of_lookup?_none {t : SymbolTable} {name : String} (absent : t.lookup? name = none) :
    t.cell? name = none := by
  rw [cell?, absent, Option.filter_none]

/-- Recording an assigned name adds an entry for it at most. -/
theorem lookup?_note {t : SymbolTable} {name other : String} {type : ValueType} {s : Symbol}
    (found : (t.note name type).lookup? other = some s) :
    t.lookup? other = some s ∨ other = name ∧ s = ⟨name, .scalar, type, 0, false⟩ := by
  unfold note at found
  split at found
  next absent =>
    rw [lookup?_add] at found
    by_cases same : other = name
    · subst same
      simp only [absent, beq_self_eq_true, if_true, Option.none_or, Option.some.injEq] at found
      exact .inr ⟨rfl, found.symm⟩
    · simp only [Ne.symm same, beq_iff_eq, if_false, Option.or_none] at found
      exact .inl found
  next => exact .inl found

/-- Recording an assigned name gives it no cell. -/
@[simp] theorem cell?_note (t : SymbolTable) (name : String) (type : ValueType) (other : String) :
    (t.note name type).cell? other = t.cell? other := by
  unfold note
  split
  next absent =>
    simp only [cell?, lookup?_add]
    by_cases same : name = other
    · subst same
      simp [absent]
    · simp [same]
  next => rfl

theorem isInMemory_eq_cell? (t : SymbolTable) (name : String) :
    t.isInMemory name = (t.cell? name).isSome := by
  unfold isInMemory cell?
  cases t.lookup? name with
  | none => rfl
  | some s => by_cases backed : s.inMemory <;> simp [backed]

/-- What a declaration does to the entry of every name: the declared one is replaced unless it has a
    cell already. -/
theorem lookup?_giveCell {t : SymbolTable} {name : String} {make : Option Symbol → Symbol}
    (named : (make (t.lookup? name)).name = name) (other : String) :
    (t.giveCell name make).1.lookup? other =
      if other = name ∧ t.isInMemory name = false then some (make (t.lookup? name))
      else t.lookup? other := by
  unfold giveCell isInMemory
  -- An entry is added if there is none; an old one is replaced unless it has a cell.
  cases entry : t.lookup? name with
  | none =>
    rw [entry] at named
    simp only [lookup?_add, named]
    by_cases same : other = name
    · subst same
      simp [entry]
    · simp [same, Ne.symm same]
  | some old =>
    rw [entry] at named
    cases backed : old.inMemory with
    | true => simp [backed]
    | false =>
      simp only [backed, Bool.false_eq_true, if_false, lookup?_replace, named]
      by_cases same : other = name
      · subst same
        simp [entry, backed]
      · simp [same, Ne.symm same]

/-- Names get their cells by declarations, and keep them. -/
theorem isInMemory_giveCell {t : SymbolTable} {name : String} {make : Option Symbol → Symbol}
    (named : (make (t.lookup? name)).name = name)
    (backed : (make (t.lookup? name)).inMemory = true) (other : String) :
    (t.giveCell name make).1.isInMemory other = true ↔ t.isInMemory other = true ∨ other = name := by
  rw [isInMemory, lookup?_giveCell named]
  by_cases replaced : other = name ∧ t.isInMemory name = false
  · simp [replaced, backed]
  · rw [if_neg replaced, ← isInMemory]
    constructor
    · exact .inl
    · rintro (already | rfl)
      · exact already
      -- Its entry is not replaced, so it has a cell already.
      · simpa using replaced

/-- The entry that the declaration of a scalar makes. -/
def declaredEntry (name : String) (type : ValueType) : Option Symbol → Symbol
  | none => ⟨name, .scalar, type, 0, true⟩
  | some old => { old with type := type, inMemory := true }

theorem name_declaredEntry {t : SymbolTable} (name : String) (type : ValueType) :
    (declaredEntry name type (t.lookup? name)).name = name := by
  cases entry : t.lookup? name with
  | none => rfl
  | some old =>
    have named : old.name = name := name_of_lookup? entry
    exact named

theorem inMemory_declaredEntry (name : String) (type : ValueType) (entry : Option Symbol) :
    (declaredEntry name type entry).inMemory = true := by
  cases entry <;> rfl

/-- The cell that a declaration calls for. -/
theorem giveCell_snd (t : SymbolTable) (name : String) (make : Option Symbol → Symbol) :
    (t.giveCell name make).2 =
      if t.isInMemory name then none else some (make (t.lookup? name)) := by
  unfold giveCell isInMemory
  cases entry : t.lookup? name with
  | none => rfl
  | some old => cases backed : old.inMemory <;> simp [backed]

/-- A name that has a cell is not declared again. -/
theorem giveCell_of_isInMemory {t : SymbolTable} {name : String} (backed : t.isInMemory name = true)
    (make : Option Symbol → Symbol) : t.giveCell name make = (t, none) := by
  unfold giveCell
  cases entry : t.lookup? name with
  | none => simp [isInMemory, entry] at backed
  | some old =>
    have inMemory : old.inMemory = true := by simpa [isInMemory, entry] using backed
    simp [inMemory]

end SymbolTable

/-! ## Data -/

namespace DataSection

/-- The section with a new symbol.  Where its cell begins is settled even if it is not written. -/
def enter (d : DataSection) (s : Symbol) : DataSection :=
  if s.isWritable then (d.align s).append s else d.align s

/-- Literals keep their labels when more of them come in. -/
theorem literalLabel?_of_prefix {d e : DataSection} (later : d.literals <+: e.literals)
    {kind : LiteralKind} {written label : String} (found : d.literalLabel? kind written = some label) :
    e.literalLabel? kind written = some label := by
  obtain ⟨more, same⟩ := later
  obtain ⟨literal, present, rfl⟩ := Option.map_eq_some_iff.mp found
  have present' : e.find? kind (kind.stored written) = some literal := by
    simp only [find?] at present ⊢
    rw [← same, List.find?_append, present]
    rfl
  simp only [literalLabel?, present', Option.map_some]

theorem intern_eq_append (d : DataSection) (kind : LiteralKind) (written : String) :
    ∃ more counters, (d.intern kind written).2 =
      { d with literals := d.literals ++ more, counters := counters } := by
  unfold intern
  split
  · exact ⟨[], d.counters, by simp⟩
  · exact ⟨_, _, rfl⟩

end DataSection

/-! ## Stretches of a pass -/

/-- From `p` to `q` the lines `nodes` are laid out.  The names `names` are bound, literals may get
    labels, and the other tables stay as they are. -/
structure Lays (p q : Pass) (nodes : List Node) (names : List String) : Prop where
  text : q.text = p.text ++ nodes
  config : q.config = p.config
  registers : p.registers.Extends q.registers
  bound : ∀ name, name ∈ q.registers.names ↔ name ∈ p.registers.names ∨ name ∈ names
  data : ∃ more counters, q.data =
    { p.data with literals := p.data.literals ++ more, counters := counters }
  symbols : q.symbols = p.symbols
  labels : q.labels = p.labels
  params : q.params = p.params

namespace Lays

/-- A stretch in which lines are laid out and nothing else is done. -/
theorem of_text {p q : Pass} {nodes : List Node} (text : q.text = p.text ++ nodes)
    (config : q.config = p.config) (registers : q.registers = p.registers) (data : q.data = p.data)
    (symbols : q.symbols = p.symbols) (labels : q.labels = p.labels) (params : q.params = p.params) :
    Lays p q nodes [] :=
  ⟨text, config, registers ▸ .refl _, by simp [registers], ⟨[], p.data.counters, by simp [data]⟩, symbols, labels,
    params⟩

theorem refl (p : Pass) : Lays p p [] [] :=
  .of_text (by simp) rfl rfl rfl rfl rfl rfl

theorem trans {p q r : Pass} {first second : List Node} {names more : List String}
    (before : Lays p q first names) (after : Lays q r second more) :
    Lays p r (first ++ second) (names ++ more) where
  text := by rw [after.text, before.text, List.append_assoc]
  config := after.config.trans before.config
  registers := before.registers.trans after.registers
  bound name := by rw [after.bound, before.bound, List.mem_append, or_assoc]
  data := by
    obtain ⟨more, _, first⟩ := before.data
    obtain ⟨most, counters, second⟩ := after.data
    exact ⟨more ++ most, counters, by simp [second, first]⟩
  symbols := after.symbols.trans before.symbols
  labels := after.labels.trans before.labels
  params := after.params.trans before.params

theorem literals {p q : Pass} {nodes : List Node} {names : List String} (lays : Lays p q nodes names) :
    p.data.literals <+: q.data.literals := by
  obtain ⟨more, _, same⟩ := lays.data
  exact ⟨more, by rw [same]⟩

theorem cells {p q : Pass} {nodes : List Node} {names : List String} (lays : Lays p q nodes names) :
    q.data.cells = p.data.cells := by
  obtain ⟨_, _, same⟩ := lays.data
  rw [same]

theorem congr {p q : Pass} {nodes : List Node} {names others : List String}
    (lays : Lays p q nodes names) (same : others = names) : Lays p q nodes others :=
  same ▸ lays

/-- Two stretches of which the second only lays out lines. -/
theorem andCode {p q r : Pass} {first second : List Node} {names : List String}
    (before : Lays p q first names) (after : Lays q r second []) :
    Lays p r (first ++ second) names := by
  simpa using before.trans after

theorem relabel {p q : Pass} {nodes : List Node} {names : List String} (lays : Lays p q nodes names)
    (f : LabelTable → LabelTable) :
    Lays { p with labels := f p.labels } { q with labels := f q.labels } nodes names :=
  { lays with labels := congrArg f lays.labels }

end Lays

namespace Emit

/-- A sequence succeeds where its parts do, one from the state that the other leaves. -/
theorem run_bind_ok {α β : Type} {x : Emit α} {f : α → Emit β} {p r : Pass} {b : β} :
    (x >>= f).run p = .ok b r ↔ ∃ a q, x.run p = .ok a q ∧ (f a).run q = .ok b r := by
  rw [run_bind]
  constructor
  · intro ran
    split at ran
    next a q first => exact ⟨a, q, first, ran⟩
    next => cases ran
  · rintro ⟨a, q, first, second⟩
    rw [first]
    exact second

theorem run_bind_of_ok {α β : Type} {x : Emit α} {p q : Pass} {a : α} (ran : x.run p = .ok a q)
    (f : α → Emit β) : (x >>= f).run p = (f a).run q := by
  rw [run_bind, ran]

theorem run_get_bind {β : Type} {f : Pass → Emit β} {p r : Pass} {b : β} :
    ((get : Emit Pass) >>= f).run p = .ok b r ↔ (f p).run p = .ok b r :=
  Iff.rfl

/-- An action that is not always taken comes before what is done in any case. -/
theorem run_ite_bind {β : Type} {condition : Prop} [Decidable condition] (x : Emit Unit)
    (rest : Emit β) {p : Pass} :
    (if condition then (do x; rest) else rest).run p =
      ((if condition then x else pure ()) >>= fun _ => rest).run p := by
  split <;> rfl

section

variable {p : Pass} (name : String) (make : Option Symbol → Symbol)

theorem run_giveCell_of_backed (backed : p.symbols.isInMemory name = true) :
    (declared (·.giveCell name make)).run p = .ok () p := by
  simp only [declared, run_bind, run_get, run_modify, SymbolTable.giveCell_of_isInMemory backed, run_pure]

/-- A new symbol is entered whether its cell can be written or not. -/
theorem run_giveCell_of_unbacked {s : Symbol} (unbacked : p.symbols.isInMemory name = false)
    (made : make (p.symbols.lookup? name) = s) :
    (declared (·.giveCell name make)).run p =
      (if s.isWritable then pure () else throw (.numeral .write) : Emit Unit).run
        { p with symbols := (p.symbols.giveCell name make).1, data := p.data.enter s } := by
  simp only [declared, run_bind, run_get, run_modify, SymbolTable.giveCell_snd, unbacked, Bool.false_eq_true,
    if_false, reserve, DataSection.enter, made]
  cases s.isWritable <;> rfl

end

theorem lays_code {is : List Instr} {p q : Pass} (ran : (code is).run p = .ok () q) :
    Lays p q (is.map Node.instr) [] := by
  cases ran
  exact .of_text rfl rfl rfl rfl rfl rfl rfl

theorem lays_diagnose {d : Diagnostic} {p q : Pass} (ran : (diagnose d).run p = .ok () q) :
    Lays p q [.comment d.message] [] := by
  cases ran
  exact .of_text rfl rfl rfl rfl rfl rfl rfl

theorem lays_intern {kind : LiteralKind} {written label : String} {p q : Pass}
    (ran : (intern kind written).run p = .ok label q) :
    Lays p q [] [] ∧ q.data.literalLabel? kind written = some label := by
  cases ran
  refine ⟨⟨by simp, rfl, .refl _, by simp, ?_, rfl, rfl, rfl⟩, ?_⟩
  · exact p.data.intern_eq_append kind written
  · exact p.data.literalLabel?_intern kind written

theorem lays_registerFor {name : String} {p q : Pass} {r : Register}
    (ran : (registerFor name).run p = .ok r q) :
    Lays p q [] [name] ∧ q.registers.lookup? name = some r := by
  unfold registerFor at ran
  by_cases empty : name.isEmpty
  · simp [empty] at ran
  simp only [empty, Bool.false_eq_true, if_false, run_get_bind] at ran
  cases bound : p.registers.lookup? name with
  | some register =>
    rw [bound] at ran
    cases ran
    have present : name ∈ p.registers.names := RegisterFile.lookup?_isSome.mp (by simp [bound])
    refine ⟨{ Lays.refl p with bound := fun other => ?_ }, bound⟩
    simp only [List.mem_singleton]
    exact ⟨.inl, fun | .inl early => early | .inr same => same ▸ present⟩
  | none =>
    rw [bound] at ran
    have lays : ∀ warnings, Lays p
        { p with registers := p.registers.bind name, warnings := warnings } [] [name] := fun _ =>
      ⟨by simp, rfl, RegisterFile.extends_bind bound, by simp [RegisterFile.names_bind], ⟨[], p.data.counters, by simp⟩,
        rfl, rfl, rfl⟩
    -- The name is bound in any case; the first to find the pool used up is logged too.
    by_cases full : (p.registers.isExhausted && !p.registers.reported) = true
    · simp only [full, if_true] at ran
      cases ran
      exact ⟨lays _, RegisterFile.lookup?_bind bound⟩
    · simp only [full] at ran
      cases ran
      exact ⟨lays _, RegisterFile.lookup?_bind bound⟩

end Emit

end MipsLowering
