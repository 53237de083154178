import Mathlib.Data.List.Induction
import MipsLowering.Proofs.Registers
import MipsLowering.Proofs.SettledCode

/-! # How registers are handed out

Registers are asked for by name, or by operands of which some are names, while symbols and literals come and go.
The names that have been asked for, each at its first place, determine everything: by induction over what is asked
for, bindings, cursor and flag are those of `RegisterFile.ofNames` (`Pass.state_after`).  So names are bound to the
registers of the pool in order, those beyond the pool to its last register, and the name that finds the pool used up
for the first time is logged. -/

namespace MipsLowering

-- The class of an operand is only used through the theorems about it.
seal Operand.ofString

/-! ## Texts at their first place -/

namespace Text

theorem distinct_concat (ss : List String) (s : String) :
    distinct (ss ++ [s]) = if s ∈ distinct ss then distinct ss else distinct ss ++ [s] := by
  rw [distinct, List.foldl_append, ← distinct]
  simp

theorem nodup_distinct (ss : List String) : (distinct ss).Nodup := by
  induction ss using List.reverseRecOn with
  | nil => exact List.nodup_nil
  | append_singleton ss s ih =>
    rw [distinct_concat]
    split
    next => exact ih
    next new =>
      refine List.nodup_append.mpr ⟨ih, by simp, ?_⟩
      rintro t member last isLast rfl
      obtain rfl := List.mem_singleton.mp isLast
      exact new member

end Text

/-! ## Literals -/

/-- An operand that is no name: an integer, a truth value, a character, a float or a text. -/
def Lexeme.isLiteral (cs : List Char) : Bool :=
  isInteger cs || isBoolean cs || isCharLiteral cs || isFloat cs || isText cs

theorem Operand.ofString_of_not_literal {s : String} (named : Lexeme.isLiteral s.toList = false) :
    ofString s = .name s := by
  simp only [Lexeme.isLiteral, Bool.or_eq_false_iff] at named
  obtain ⟨⟨⟨⟨integer, boolean⟩, char⟩, float⟩, text⟩ := named
  simp [ofString, integer, boolean, char, float, text]

theorem Operand.ofString_of_literal {s : String} (literal : Lexeme.isLiteral s.toList = true) (name : String) :
    ofString s ≠ .name name := by
  intro sort
  obtain rfl := eq_of_ofString_name sort
  revert sort literal
  simp only [ofString, Lexeme.isLiteral]
  grind

/-! ## Queries -/

/-- What can be asked of a pass that hands out registers. -/
inductive Query where
  /-- The register of a name. -/
  | register (name : String)
  /-- A register that holds an operand; a literal goes to the wanted one. -/
  | operand (text : String) (wanted : Option Register)
  /-- Other symbols, and other storage for them and for literals. -/
  | tables (symbols : SymbolTable) (data : DataSection)

namespace Query

/-- What a pass does for a query, and the register that it answers with. -/
def action : Query → Emit (Option Register)
  | .register name => do return some (← Emit.registerFor name)
  | .operand text wanted => do return some (← Emit.fetch text wanted).1
  | .tables symbols data => do
    modify fun p => { p with symbols := symbols, data := data }
    return none

/-- The name for which a query needs a register. -/
def name? : Query → Option String
  | .register name => some name
  | .operand text _ =>
    if Lexeme.isLiteral (Text.stripped text).toList then none else some (Text.stripped text)
  | .tables _ _ => none

/-- The names for which queries need a register, in the order of the first query for each.  There is none for a
    name without characters. -/
def names (queries : List Query) : List String :=
  Text.distinct ((queries.filterMap name?).filter (· ≠ ""))

end Query

namespace Pass

/-- The state after queries, of which some may have been refused. -/
def after (p : Pass) (queries : List Query) : Pass :=
  queries.foldl (fun q query => (q.perform query.action).2) p

/-- The state in which one more name is bound, which is logged if it is the first to find the pool used up. -/
def binding (p : Pass) (name : String) : Pass :=
  let file := p.registers
  { p with
    registers := file.bind name
    warnings := p.warnings ++
      if file.isExhausted && !file.reported then [.poolExhausted name file.nextRegister] else [] }

end Pass

/-! ## What becomes of a query -/

namespace Emit

theorem run_registerFor {name : String} (named : name ≠ "") (p : Pass) :
    (∀ r, p.registers.lookup? name = some r → (registerFor name).run p = .ok r p) ∧
      (p.registers.lookup? name = none →
        (registerFor name).run p = .ok p.registers.nextRegister (p.binding name)) := by
  have filled : name.isEmpty = false := by simpa using named
  simp only [registerFor, filled, Bool.false_eq_true, if_false, run_bind, run_get]
  refine ⟨fun r bound => by rw [bound]; rfl, fun free => ?_⟩
  rw [free, Pass.binding]
  dsimp only
  cases p.registers.isExhausted && !p.registers.reported with
  | true => rfl
  | false =>
    simp only [Bool.false_eq_true, if_false, List.append_nil]
    rfl

/-- A literal is brought to a register without a binding. -/
theorem run_fetch_literal {text : String} (literal : Lexeme.isLiteral (Text.stripped text).toList = true)
    (wanted : Option Register) (p : Pass) :
    ∃ fetched data, (fetch text wanted).run p = .ok fetched { p with data := data } := by
  simp only [fetch, run_bind, run_get]
  cases sort : Operand.ofString (Text.stripped text) with
  | immediate value => exact ⟨_, p.data, rfl⟩
  | float value | text value => exact ⟨_, _, rfl⟩
  | name name => exact absurd sort (Operand.ofString_of_literal literal name)

/-- Any other operand is a name, and gets the register of that name. -/
theorem perform_fetch_name {text : String} (named : Lexeme.isLiteral (Text.stripped text).toList = false)
    (wanted : Option Register) (p : Pass) :
    p.perform (do return some (← fetch text wanted).1) =
      p.perform (do return some (← registerFor (Text.stripped text))) := by
  simp only [Pass.perform, fetch, run_bind, run_get, Operand.ofString_of_not_literal named]
  cases (registerFor (Text.stripped text)).run p <;> rfl

end Emit

/-- What becomes of a query: its answer, and the state that it leaves. -/
inductive Pass.Outcome (p : Pass) (query : Query) : Except Fault (Option Register) × Pass → Prop where
  | unnamed (unnamed : query.name? = none) (answer : Option Register) (symbols : SymbolTable) (data : DataSection) :
      Outcome p query (.ok answer, { p with symbols := symbols, data := data })
  | refused (empty : query.name? = some "") : Outcome p query (.error .emptyName, p)
  | known {name : String} {register : Register} (asks : query.name? = some name) (named : name ≠ "")
      (bound : p.registers.lookup? name = some register) : Outcome p query (.ok (some register), p)
  | new {name : String} (asks : query.name? = some name) (named : name ≠ "")
      (free : p.registers.lookup? name = none) :
      Outcome p query (.ok (some p.registers.nextRegister), p.binding name)

namespace Pass

variable {p : Pass} {query : Query} {result : Except Fault (Option Register) × Pass}

theorem Outcome.of_unnamed (served : p.Outcome query result) (unnamed : query.name? = none) :
    (∃ answer, result.1 = .ok answer) ∧ result.2.registers = p.registers := by
  cases served with
  | unnamed _ answer => exact ⟨⟨answer, rfl⟩, rfl⟩
  | refused asks | known asks | new asks => cases unnamed.symm.trans asks

theorem Outcome.of_empty (served : p.Outcome query result) (empty : query.name? = some "") :
    result = (.error .emptyName, p) := by
  cases served with
  | unnamed asks => cases empty.symm.trans asks
  | refused => rfl
  | known asks named | new asks named => exact absurd (Option.some.inj (asks.symm.trans empty)) named

/-- Who asks for a name is given the register to which the name is bound from then on. -/
theorem Outcome.of_name (served : p.Outcome query result) {name : String} (asks : query.name? = some name)
    (named : name ≠ "") :
    ∃ register, result.1 = .ok (some register) ∧ result.2.registers.lookup? name = some register := by
  cases served with
  | unnamed asks' => cases asks.symm.trans asks'
  | refused asks' => exact absurd (Option.some.inj (asks.symm.trans asks')) named
  | known asks' _ bound =>
    obtain rfl := Option.some.inj (asks.symm.trans asks')
    exact ⟨_, rfl, bound⟩
  | new asks' _ free =>
    obtain rfl := Option.some.inj (asks.symm.trans asks')
    exact ⟨_, rfl, RegisterFile.lookup?_bind free⟩

/-- A query leaves names bound to their registers. -/
theorem Outcome.extends (served : p.Outcome query result) : p.registers.Extends result.2.registers := by
  cases served with
  | unnamed | refused | known => exact .refl _
  | new _ _ free => exact RegisterFile.extends_bind free

theorem outcome_of_name {p : Pass} {query : Query} {name : String} (asks : query.name? = some name)
    (same : p.perform query.action = p.perform (do return some (← Emit.registerFor name))) :
    p.Outcome query (p.perform query.action) := by
  rw [same]
  by_cases named : name = ""
  · subst named
    exact .refused asks
  · obtain ⟨known, new⟩ := Emit.run_registerFor named p
    simp only [perform, Emit.run_bind]
    cases bound : p.registers.lookup? name with
    | some register =>
      rw [known register bound]
      exact .known asks named bound
    | none =>
      rw [new bound]
      exact .new asks named bound

theorem outcome_perform (p : Pass) (query : Query) : p.Outcome query (p.perform query.action) := by
  cases query with
  | register name => exact outcome_of_name rfl rfl
  | operand text wanted =>
    cases sort : Lexeme.isLiteral (Text.stripped text).toList with
    | true =>
      obtain ⟨fetched, data, ran⟩ := Emit.run_fetch_literal sort wanted p
      have performed : p.perform (Query.operand text wanted).action =
          (.ok (some fetched.1), { p with data := data }) := by
        simp only [perform, Query.action, Emit.run_bind, ran]
        rfl
      rw [performed]
      exact .unnamed (by simp [Query.name?, sort]) _ _ _
    | false => exact outcome_of_name (by simp [Query.name?, sort]) (Emit.perform_fetch_name sort wanted p)
  | tables symbols data => exact .unnamed rfl none symbols data

end Pass

/-! ## Sequences of queries -/

theorem Query.names_concat_of_unnamed (queries : List Query) {query : Query}
    (unnamed : query.name? = none ∨ query.name? = some "") : names (queries ++ [query]) = names queries := by
  rcases unnamed with asks | asks <;> simp [names, asks]

/-- A name that is new comes behind the others. -/
theorem Query.names_concat_of_name (queries : List Query) {query : Query} {name : String}
    (asks : query.name? = some name) (named : name ≠ "") :
    names (queries ++ [query]) = if name ∈ names queries then names queries else names queries ++ [name] := by
  have more : ((queries ++ [query]).filterMap name?).filter (· ≠ "") =
      (queries.filterMap name?).filter (· ≠ "") ++ [name] := by
    simp [asks, named]
  rw [names, more, Text.distinct_concat]
  rfl

namespace RegisterFile

/-- From a pool without repetitions the registers in use are taken in order. -/
theorem distinct_ofNames {pool : List Register} (nonempty : pool ≠ []) (distinct : pool.Nodup)
    (scratch : List Register) (names : List String) :
    Text.distinct ((ofNames pool scratch names).bindings.map Prod.snd) = pool.take names.length := by
  induction names using List.reverseRecOn with
  | nil => rfl
  | append_singleton names name ih =>
    have found := getElem?_pool nonempty names.length
    rw [← bind_ofNames, bindings_bind, nextRegister_ofNames, List.map_append, List.map_singleton,
      Text.distinct_concat, ih, List.length_append, List.length_singleton, List.take_add_one]
    -- As long as there is room the next register is a new one; after that it is one that was taken before.
    by_cases room : names.length < pool.length
    · rw [Nat.min_eq_left (by omega)] at found
      have longer : (pool.take names.length ++ [registerAt pool names.length]).Nodup := by
        have taken := distinct.sublist (List.take_sublist (names.length + 1) pool)
        rwa [List.take_add_one, found] at taken
      have new : registerAt pool names.length ∉ pool.take names.length := fun member =>
        (List.nodup_append.mp longer).2.2 _ member _ (List.mem_singleton_self _) rfl
      rw [if_neg new, found, Option.toList_some]
    · have old : registerAt pool names.length ∈ pool.take names.length := by
        rw [List.take_of_length_le (by omega)]
        exact List.mem_of_getElem? found
      rw [if_pos old, List.getElem?_eq_none (by omega), Option.toList_none, List.append_nil]

end RegisterFile

namespace Pass

variable {p : Pass} {pool scratch : List Register}

theorem after_append (p : Pass) (before later : List Query) :
    p.after (before ++ later) = (p.after before).after later :=
  List.foldl_append

theorem after_concat (p : Pass) (queries : List Query) (query : Query) :
    p.after (queries ++ [query]) = ((p.after queries).perform query.action).2 := by
  rw [after_append]
  rfl

theorem extends_after (p : Pass) (queries : List Query) : p.registers.Extends (p.after queries).registers := by
  induction queries generalizing p with
  | nil => exact .refl _
  | cons query later ih => exact (p.outcome_perform query).extends.trans (ih _)

/-- The record of the first name that finds the pool used up. -/
def exhaustion (pool : List Register) (names : List String) : List Warning :=
  (names[pool.length]?.bind fun name => pool.getLast?.map (Warning.poolExhausted name ·)).toList

theorem exhaustion_concat (nonempty : pool ≠ []) (scratch : List Register) (names : List String) (name : String) :
    let file := RegisterFile.ofNames pool scratch names
    exhaustion pool (names ++ [name]) = exhaustion pool names ++
      if file.isExhausted && !file.reported then [.poolExhausted name file.nextRegister] else [] := by
  intro file
  -- A name has been reported when there are more names than registers, so this is the first such name.
  have due : (file.isExhausted && !file.reported) = decide (names.length = pool.length) := by
    rw [RegisterFile.isExhausted_ofNames, Bool.eq_iff_iff]
    simp [file, RegisterFile.ofNames]
    omega
  rw [due, RegisterFile.nextRegister_ofNames]
  unfold exhaustion
  rcases Nat.lt_trichotomy names.length pool.length with room | full | beyond
  · rw [List.getElem?_eq_none (by simp; omega), List.getElem?_eq_none (by omega)]
    simp [Nat.ne_of_lt room]
  · have last := RegisterFile.getElem?_pool nonempty names.length
    rw [Nat.min_eq_right (by omega), ← List.getLast?_eq_getElem?] at last
    have before : names[pool.length]? = none := List.getElem?_eq_none (by omega)
    rw [List.getElem?_append_right (by omega), before, last]
    simp [full]
  · rw [List.getElem?_append_left (by omega)]
    simp [Nat.ne_of_gt beyond]

/-- The register file is determined by the names that were asked for, and nothing is logged but the first of them
    that finds the pool used up. -/
theorem state_after (fresh : p.registers = .ofRegisters pool scratch) (nonempty : pool ≠ [])
    (queries : List Query) :
    (p.after queries).registers = .ofNames pool scratch (Query.names queries) ∧
      (p.after queries).warnings = p.warnings ++ exhaustion pool (Query.names queries) := by
  induction queries using List.reverseRecOn with
  | nil => exact ⟨fresh, by simp [after, exhaustion, Query.names, Text.distinct]⟩
  | append_singleton queries query ih =>
    rw [after_concat]
    cases h : (p.after queries).perform query.action with
    | mk answer q =>
      have served := h ▸ (p.after queries).outcome_perform query
      -- Only a query for a name that is not bound yet changes anything.
      cases served with
      | unnamed asks =>
        rw [Query.names_concat_of_unnamed _ (.inl asks)]
        exact ih
      | refused asks =>
        rw [Query.names_concat_of_unnamed _ (.inr asks)]
        exact ih
      | known asks named bound =>
        have old := RegisterFile.lookup?_isSome.mp (Option.isSome_of_eq_some bound)
        rw [ih.1, RegisterFile.names_ofNames] at old
        rw [Query.names_concat_of_name _ asks named, if_pos old]
        exact ih
      | @new name asks named free =>
        have new := RegisterFile.not_mem_of_lookup? free
        rw [ih.1, RegisterFile.names_ofNames] at new
        rw [Query.names_concat_of_name _ asks named, if_neg new, exhaustion_concat nonempty scratch, binding, ih.1,
          ih.2, List.append_assoc]
        exact ⟨RegisterFile.bind_ofNames pool scratch _ name, rfl⟩

/-! ## The law -/

/-- What queries find, and what they leave behind, when nothing was bound before. -/
structure HandsOut (p : Pass) (pool : List Register) (queries : List Query) : Prop where
  /-- No name is bound twice. -/
  once : (Query.names queries).Nodup
  /-- Names take the registers of the pool in order, and its last one when there are no more. -/
  binds : ∀ i name r, (p.after queries).registers.bindings[i]? = some (name, r) ↔
    (Query.names queries)[i]? = some name ∧ pool[min i (pool.length - 1)]? = some r
  /-- Bindings are never changed. -/
  keeps : ∀ before later, queries = before ++ later →
    (p.after before).registers.bindings <+: (p.after queries).registers.bindings
  /-- Who asks for a name is given the register to which the name stays bound. -/
  grants : ∀ before query later name, queries = before ++ query :: later →
    query.name? = some name → name ≠ "" →
    ∃ register, ((p.after before).perform query.action).1 = .ok (some register) ∧
      (p.after queries).registers.lookup? name = some register
  /-- A literal binds nothing. -/
  unnamed : ∀ before query later, queries = before ++ query :: later → query.name? = none →
    (∃ answer, ((p.after before).perform query.action).1 = .ok answer) ∧
      ((p.after before).perform query.action).2.registers = (p.after before).registers
  /-- A query for a name without characters changes nothing. -/
  refuses : ∀ before query later, queries = before ++ query :: later → query.name? = some "" →
    (p.after before).perform query.action = (.error .emptyName, p.after before)
  /-- The cursor stands behind the registers that are taken. -/
  cursor : (p.after queries).registers.cursor = min (Query.names queries).length pool.length
  exhausted : (p.after queries).statistics.poolExhausted = true ↔ pool.length ≤ (Query.names queries).length
  reported : (p.after queries).registers.reported = true ↔ pool.length < (Query.names queries).length
  /-- The first name beyond the pool is logged, and nothing else is. -/
  logs : (p.after queries).warnings = p.warnings ++ exhaustion pool (Query.names queries)
  /-- Within a pool without repetitions names do not share registers. -/
  apart : pool.Nodup → ∀ i j name other r, i < pool.length → j < pool.length →
    (p.after queries).registers.bindings[i]? = some (name, r) →
    (p.after queries).registers.bindings[j]? = some (other, r) → i = j
  used : pool.Nodup →
    (p.after queries).statistics.registersUsed = min (Query.names queries).length pool.length

/-- Registers are handed out in the order of the pool, whatever is asked for, and are never taken back. -/
theorem handsOut_of_fresh (fresh : p.registers = .ofRegisters pool scratch) (nonempty : pool ≠ [])
    (queries : List Query) :
    p.HandsOut pool queries := by
  obtain ⟨bound, logged⟩ := state_after fresh nonempty queries
  have binds : ∀ i name r, (p.after queries).registers.bindings[i]? = some (name, r) ↔
      (Query.names queries)[i]? = some name ∧ pool[min i (pool.length - 1)]? = some r := by
    intro i name r
    have sound : (RegisterFile.ofNames pool scratch (Query.names queries)).Sound :=
      RegisterFile.sound_ofNames (Text.nodup_distinct _)
    rw [bound, sound.getElem?_bindings, RegisterFile.getElem?_pool nonempty i, RegisterFile.names_ofNames]
    cases (Query.names queries)[i]? <;> simp [RegisterFile.ofNames]
  refine ⟨Text.nodup_distinct _, binds, ?_, ?_, ?_, ?_, ?_, ?_, ?_, logged, ?_, ?_⟩
  · rintro before later rfl
    rw [after_append]
    exact (extends_after _ later).bindings
  · rintro before query later name rfl asks named
    obtain ⟨register, answered, known⟩ := ((p.after before).outcome_perform query).of_name asks named
    rw [after_append]
    exact ⟨register, answered, (extends_after _ later).lookup? known⟩
  · rintro before query later rfl unnamed
    exact ((p.after before).outcome_perform query).of_unnamed unnamed
  · rintro before query later rfl empty
    exact ((p.after before).outcome_perform query).of_empty empty
  · rw [bound]
    rfl
  · rw [statistics, bound, RegisterFile.isExhausted_ofNames, decide_eq_true_iff]
  · simp [bound, RegisterFile.ofNames]
  · intro distinct i j name other r insideI insideJ first second
    obtain ⟨-, first⟩ := (binds i name r).mp first
    obtain ⟨-, second⟩ := (binds j other r).mp second
    rw [Nat.min_eq_left (by omega)] at first second
    exact (List.getElem?_inj insideI distinct).mp (first.trans second.symm)
  · intro distinct
    rw [statistics, RegisterFile.used, bound, RegisterFile.distinct_ofNames nonempty distinct, List.length_take]

/-- A pass that has two registers for names. -/
def withTwoRegisters : Pass :=
  { Pass.start (Config.standard false) with registers := .ofRegisters ["$s0", "$s1"] ["$v1"] }

/-- Names old and new, literals, a name without characters, and a declaration in between. -/
def asksWidely : List Query :=
  [.register "a", .operand " 12 " none, .operand "b" none, .register "", .operand "   " (some "$a0"),
    .tables ⟨[⟨"c", .scalar, .int, 0, true⟩]⟩ .empty, .operand "\"c\"" none, .register "c", .operand "a " none,
    .operand "a+b" none]

theorem asksWidely_handsOut :
    withTwoRegisters.HandsOut ["$s0", "$s1"] asksWidely ∧ Query.names asksWidely = ["a", "b", "c", "a+b"] ∧
      (withTwoRegisters.after asksWidely).registers.bindings[3]? = some ("a+b", "$s1") ∧
      (withTwoRegisters.after asksWidely).registers.cursor = 2 ∧
      (withTwoRegisters.after asksWidely).registers.reported = true ∧
      (withTwoRegisters.after asksWidely).warnings = [.poolExhausted "c" "$s1"] ∧
      (withTwoRegisters.after asksWidely).statistics.registersUsed = 2 := by
  have law : withTwoRegisters.HandsOut ["$s0", "$s1"] asksWidely := handsOut_of_fresh rfl (by decide) asksWidely
  have names : Query.names asksWidely = ["a", "b", "c", "a+b"] := by decide +kernel
  refine ⟨law, names, ?_, ?_, ?_, ?_, ?_⟩
  · rw [law.binds, names]
    decide
  · rw [law.cursor, names]
    rfl
  · rw [law.reported, names]
    decide
  · rw [law.logs, names]
    rfl
  · rw [law.used (by decide), names]
    rfl

end Pass

end MipsLowering
