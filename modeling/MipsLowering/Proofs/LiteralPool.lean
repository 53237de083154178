import MipsLowering.Proofs.DataGrowth
import MipsLowering.Proofs.Operands
import MipsLowering.Proofs.Registrations

/-! # The pool of literals

Strings and floats are kept in a pool of the data section, each value once.  Calls that intern literals may
come between calls that enter names, and whoever makes them goes on behind one that has failed.

What is in the pool follows from the calls alone: `DataCall.pool` lists the literals that they ask for, each
where it is asked for first.  `Pass.Served` says that the section agrees with the list.  One call keeps it
(`Pass.Served.step`), and as the list only grows at its end, a label once given stays right
(`LiteralKind.labelIn_of_prefix`).  `serve_literals` reads the labels, the directives and the look-ups off
the list. -/

namespace MipsLowering

/-! ## Stored values -/

namespace LiteralKind

theorem stored_quoted (v : String) : stored .string ("\"" ++ v ++ "\"") = v := by
  simp [stored, Lexeme.unquote, Lexeme.isQuoted]

theorem stored_of_unquoted {written : String} (bare : ∀ inner, written ≠ "\"" ++ inner ++ "\"") :
    stored .string written = written := by
  have unquoted : ¬ Lexeme.isQuoted written.toList = true := by
    rw [Lexeme.isQuoted_iff]
    rintro ⟨inner, shape⟩
    apply bare (String.ofList inner)
    apply String.toList_injective
    simpa using shape
  simp [stored, Lexeme.unquote, unquoted]

/-- Text loses one pair of quotes around it if there is one. -/
theorem stored_string_eq_iff (written v : String) :
    stored .string written = v ↔
      written = "\"" ++ v ++ "\"" ∨ written = v ∧ ∀ inner, v ≠ "\"" ++ inner ++ "\"" := by
  constructor
  · rintro rfl
    by_cases quoted : ∃ inner, written = "\"" ++ inner ++ "\""
    · obtain ⟨inner, rfl⟩ := quoted
      rw [stored_quoted]
      exact .inl rfl
    · have bare : ∀ inner, written ≠ "\"" ++ inner ++ "\"" := not_exists.mp quoted
      rw [stored_of_unquoted bare]
      exact .inr ⟨rfl, bare⟩
  · rintro (rfl | ⟨rfl, bare⟩)
    · exact stored_quoted v
    · exact stored_of_unquoted bare

/-! ## Labels by position -/

/-- The values of a kind among literals. -/
def valuesIn (kind : LiteralKind) (literals : List (LiteralKind × String)) : List String :=
  (literals.filter (·.1 == kind)).map Prod.snd

/-- The label of a literal in a pool, whose number is that of the values of its kind before it. -/
def labelIn (pool : List (LiteralKind × String)) (literal : LiteralKind × String) : String :=
  literal.1.label ((literal.1.valuesIn pool).idxOf literal.2)

theorem mem_valuesIn {kind : LiteralKind} {literals : List (LiteralKind × String)} {value : String} :
    value ∈ kind.valuesIn literals ↔ (kind, value) ∈ literals := by
  simp [valuesIn]

theorem nodup_valuesIn {literals : List (LiteralKind × String)} (distinct : literals.Nodup)
    (kind : LiteralKind) : (kind.valuesIn literals).Nodup := by
  refine (distinct.filter _).map_on fun a first b second same => ?_
  have kinds : a.1 = b.1 := by
    rw [beq_iff_eq.mp (List.mem_filter.mp first).2, beq_iff_eq.mp (List.mem_filter.mp second).2]
  exact Prod.ext kinds same

theorem labelIn_of_prefix {pool more : List (LiteralKind × String)} {literal : LiteralKind × String}
    (member : literal ∈ pool) : labelIn (pool ++ more) literal = labelIn pool literal := by
  have before : literal.2 ∈ literal.1.valuesIn pool := mem_valuesIn.mpr member
  have appended : literal.1.valuesIn (pool ++ more) = literal.1.valuesIn pool ++ literal.1.valuesIn more := by
    simp [valuesIn]
  rw [labelIn, appended, List.idxOf_append_of_mem before, labelIn]

theorem labelIn_inj {pool : List (LiteralKind × String)} {literal other : LiteralKind × String}
    (member : literal ∈ pool) : labelIn pool literal = labelIn pool other ↔ literal = other := by
  constructor
  · intro same
    obtain ⟨kind, number⟩ := label_inj same
    obtain ⟨otherKind, otherValue⟩ := other
    dsimp only at kind number
    subst kind
    exact Prod.ext rfl ((List.idxOf_inj (mem_valuesIn.mpr member)).mp number)
  · rintro rfl
    rfl

/-- The literal with the number `k` is the one with `k` others of its kind before it. -/
theorem getElem?_valuesIn {pool : List (LiteralKind × String)} (distinct : pool.Nodup) (kind : LiteralKind)
    (k : Nat) (value : String) :
    (kind.valuesIn pool)[k]? = some value ↔
      (kind, value) ∈ pool ∧ labelIn pool (kind, value) = kind.label k := by
  constructor
  · intro found
    obtain ⟨inside, rfl⟩ := List.getElem?_eq_some_iff.mp found
    refine ⟨mem_valuesIn.mp (List.getElem_mem inside), ?_⟩
    rw [labelIn, (nodup_valuesIn distinct kind).idxOf_getElem k inside]
  · rintro ⟨member, label⟩
    obtain ⟨-, rfl⟩ := label_inj label
    exact List.getElem?_idxOf (mem_valuesIn.mpr member)

end LiteralKind

/-- The kind and the value of a literal. -/
def Literal.key (l : Literal) : LiteralKind × String :=
  (l.kind, l.value)

namespace DataSection

variable {d : DataSection}

theorem mem_of_find? {kind : LiteralKind} {value : String} {l : Literal} (found : d.find? kind value = some l) :
    l ∈ d.literals ∧ l.key = (kind, value) := by
  refine ⟨List.mem_of_find?_eq_some found, ?_⟩
  have hit := List.find?_some found
  simpa [Literal.key] using hit

theorem notMem_of_find? {kind : LiteralKind} {value : String} (missing : d.find? kind value = none) :
    (kind, value) ∉ d.literals.map Literal.key := by
  intro member
  obtain ⟨l, inside, key⟩ := List.mem_map.mp member
  cases key
  simpa using List.find?_eq_none.mp missing l inside

/-- In a numbered pool without duplicates the label of a literal shows its place. -/
theorem Numbered.label_eq (numbered : d.Numbered) (distinct : (d.literals.map Literal.key).Nodup) {l : Literal}
    (member : l ∈ d.literals) : l.label = LiteralKind.labelIn (d.literals.map Literal.key) l.key := by
  have values : l.kind.valuesIn (d.literals.map Literal.key) =
      (d.literals.filter (·.kind == l.kind)).map Literal.value := by
    rw [LiteralKind.valuesIn, List.filter_map, List.map_map]
    rfl
  have once : ((d.literals.filter (·.kind == l.kind)).map Literal.value).Nodup :=
    values ▸ LiteralKind.nodup_valuesIn distinct l.kind
  have kept : l ∈ d.literals.filter (·.kind == l.kind) := List.mem_filter.mpr ⟨member, beq_self_eq_true _⟩
  obtain ⟨i, inside, place⟩ := List.mem_iff_getElem.mp kept
  have number : l.number = i := by
    have here := List.getElem_of_eq (numbered l.kind) ((List.length_map Literal.number).symm ▸ inside)
    simpa [place] using here
  have first : ((d.literals.filter (·.kind == l.kind)).map Literal.value).idxOf l.value = i := by
    have here := once.idxOf_getElem i ((List.length_map Literal.value).symm ▸ inside)
    simpa [place] using here
  calc l.label = l.kind.label l.number := rfl
    _ = LiteralKind.labelIn (d.literals.map Literal.key) l.key := by
      rw [number, ← first, ← values]
      rfl

end DataSection

/-! ## Calls -/

/-- A call on the tables: it enters a name or interns a literal of a type. -/
inductive DataCall where
  | enter (call : Registration)
  | intern (type : ValueType) (written : String)
  deriving Repr, DecidableEq

namespace DataCall

/-- What a call does.  One that interns a literal answers with a label. -/
def action : DataCall → Emit (Option String)
  | .enter call => do
    call.enter
    return none
  | .intern type written => do
    let label ← Emit.internAs type written
    return some label

def registration? : DataCall → Option Registration
  | .enter call => some call
  | .intern _ _ => none

/-- The literal for which a call asks.  Only strings and floats have a pool. -/
def literal? : DataCall → Option (LiteralKind × String)
  | .enter _ => none
  | .intern type written => (LiteralKind.ofType? type).map fun kind => (kind, kind.stored written)

/-- The literals for which calls ask, in the order of the first calls for them. -/
def pool (calls : List DataCall) : List (LiteralKind × String) :=
  (calls.filterMap literal?).eraseDups

theorem mem_pool {calls : List DataCall} {literal : LiteralKind × String} :
    literal ∈ pool calls ↔ ∃ call ∈ calls, call.literal? = some literal := by
  rw [pool, List.mem_eraseDups, List.mem_filterMap]

theorem nodup_pool (calls : List DataCall) : (pool calls).Nodup := by
  have distinct := nodup_eraseDupsBy id (calls.filterMap literal?)
  rwa [List.map_id] at distinct

theorem pool_append (done more : List DataCall) : ∃ rest, pool (done ++ more) = pool done ++ rest := by
  rw [pool, List.filterMap_append, List.eraseDups_append]
  exact ⟨_, rfl⟩

section

variable {call : DataCall} {literal : LiteralKind × String} {done : List DataCall}

theorem pool_concat_of_none (asks : call.literal? = none) : pool (done ++ [call]) = pool done := by
  simp [pool, asks]

theorem pool_concat_of_some (asks : call.literal? = some literal) :
    pool (done ++ [call]) = pool done ++ ([literal].removeAll (done.filterMap literal?)).eraseDups := by
  have single : [call].filterMap literal? = [literal] := List.filterMap_cons_some asks
  rw [pool, List.filterMap_append, List.eraseDups_append, single, pool]

theorem pool_concat_of_mem (asks : call.literal? = some literal) (known : literal ∈ pool done) :
    pool (done ++ [call]) = pool done := by
  rw [pool, List.mem_eraseDups] at known
  rw [pool_concat_of_some asks, List.removeAll]
  simp [-List.mem_filterMap, known]

theorem pool_concat_of_notMem (asks : call.literal? = some literal) (new : literal ∉ pool done) :
    pool (done ++ [call]) = pool done ++ [literal] := by
  rw [pool, List.mem_eraseDups] at new
  rw [pool_concat_of_some asks, List.removeAll]
  simp [-List.mem_filterMap, new, List.eraseDups_cons]

end

/-- Calls that are answered alike ask for the same literal. -/
theorem map_labelIn_inj {calls : List DataCall} {call other : DataCall} (member : call ∈ calls) :
    call.literal?.map (LiteralKind.labelIn (pool calls)) = other.literal?.map (LiteralKind.labelIn (pool calls)) ↔
      call.literal? = other.literal? := by
  constructor
  · intro same
    cases asks : call.literal? with
    | none =>
      rw [asks, Option.map_none] at same
      exact (Option.map_eq_none_iff.mp same.symm).symm
    | some literal =>
      rw [asks, Option.map_some] at same
      obtain ⟨literal', asks', label⟩ := Option.map_eq_some_iff.mp same.symm
      have inside : literal ∈ pool calls := mem_pool.mpr ⟨call, member, asks⟩
      rw [asks', (LiteralKind.labelIn_inj inside).mp label.symm]
  · intro same
    rw [same]

end DataCall

/-- The answer to a call; there is none to a call that fails. -/
def Pass.answer (p : Pass) (call : DataCall) : Option String :=
  (p.perform call.action).1.toOption.join

/-- The state behind calls. -/
def Pass.serve (p : Pass) (calls : List DataCall) : Pass :=
  calls.foldl (fun q call => (q.perform call.action).2) p

/-- The answers to calls, each made in the state that those before it leave. -/
def Pass.answers (p : Pass) : List DataCall → List (Option String)
  | [] => []
  | call :: rest => p.answer call :: (p.perform call.action).2.answers rest

/-- The state behind the calls `done`. -/
structure Pass.Served (p : Pass) (done : List DataCall) : Prop where
  registered : p.Registered (done.filterMap DataCall.registration?)
  literals : p.data.literals.map Literal.key = DataCall.pool done
  numbered : p.data.Numbered

namespace Pass.Served

variable {p : Pass} {done : List DataCall}

theorem literals_enter (served : p.Served done) (call : Registration) :
    (p.perform call.enter).2.data.literals = p.data.literals ∧
      (p.perform call.enter).2.data.counters = p.data.counters := by
  have opens := served.registered.opens
  cases asks : call.entry? with
  | none =>
    cases call with
    | note name type => exact ⟨rfl, rfl⟩
    | declare | declareArray => cases asks
  | some s =>
    cases cell : p.symbols.cell? s.name with
    | some old =>
      rw [Registration.perform_enter_of_isSome asks opens (cell ▸ rfl)]
      exact ⟨rfl, rfl⟩
    | none =>
      obtain ⟨table, performed, -⟩ := Registration.perform_enter_of_none asks opens cell
      rw [performed]
      simp only [DataSection.enter]
      split <;> exact ⟨rfl, rfl⟩

theorem enter (served : p.Served done) (call : Registration) :
    p.answer (.enter call) = none ∧
      (p.perform (DataCall.enter call).action).2.Served (done ++ [DataCall.enter call]) := by
  have performed : p.perform (DataCall.enter call).action =
      ((p.perform call.enter).1.map fun _ => none, (p.perform call.enter).2) := by
    simp only [Pass.perform, DataCall.action, Emit.run_bind]
    cases call.enter.run p <;> rfl
  obtain ⟨literals, counters⟩ := served.literals_enter call
  rw [Pass.answer, performed]
  refine ⟨?_, ?_, ?_, ?_⟩
  · cases (p.perform call.enter).1 <;> rfl
  · rw [List.filterMap_append]
    exact (served.registered.perform_enter call).2
  · rw [DataCall.pool_concat_of_none rfl, ← served.literals, literals]
  · intro kind
    have numbered := served.numbered kind
    rwa [← literals, ← counters] at numbered

theorem literalLabel?_eq_some_iff (served : p.Served done) (kind : LiteralKind) (written label : String) :
    p.data.literalLabel? kind written = some label ↔
      (kind, kind.stored written) ∈ DataCall.pool done ∧
        label = LiteralKind.labelIn (DataCall.pool done) (kind, kind.stored written) := by
  have distinct : (p.data.literals.map Literal.key).Nodup := served.literals ▸ DataCall.nodup_pool done
  rw [DataSection.literalLabel?, ← served.literals]
  cases found : p.data.find? kind (kind.stored written) with
  | none =>
    have missing := DataSection.notMem_of_find? found
    simp only [Option.map_none, reduceCtorEq, missing, false_and]
  | some l =>
    obtain ⟨member, key⟩ := DataSection.mem_of_find? found
    rw [← key, ← served.numbered.label_eq distinct member, Option.map_some, Option.some.injEq]
    constructor
    · rintro rfl
      exact ⟨List.mem_map_of_mem member, rfl⟩
    · rintro ⟨-, rfl⟩
      rfl

theorem intern (served : p.Served done) {call : DataCall} {kind : LiteralKind} {written : String}
    (asks : call.literal? = some (kind, kind.stored written)) (silent : call.registration? = none) :
    Served { p with data := (p.data.intern kind written).2 } (done ++ [call]) := by
  obtain ⟨more, counters, grown⟩ := p.data.intern_eq_append kind written
  refine ⟨?_, ?_, served.numbered.intern kind written⟩
  · have same : (done ++ [call]).filterMap DataCall.registration? = done.filterMap DataCall.registration? := by
      simp [silent]
    obtain ⟨opens, entries, counted, cells⟩ := served.registered
    rw [same, grown]
    exact ⟨opens, entries, counted, cells⟩
  · dsimp only
    -- A literal with the same key is served again, and only a new one is added to the pool.
    unfold DataSection.intern
    split
    next l found =>
      obtain ⟨member, key⟩ := DataSection.mem_of_find? found
      have known := List.mem_map_of_mem member (f := Literal.key)
      rw [served.literals, key] at known
      rw [DataCall.pool_concat_of_mem asks known]
      exact served.literals
    next missing =>
      have new := DataSection.notMem_of_find? missing
      rw [served.literals] at new
      rw [DataCall.pool_concat_of_notMem asks new, ← served.literals, List.map_append]
      rfl

theorem step (served : p.Served done) (call : DataCall) :
    p.answer call = call.literal?.map (LiteralKind.labelIn (DataCall.pool (done ++ [call]))) ∧
      (p.perform call.action).2.Served (done ++ [call]) := by
  cases call with
  | enter call => exact served.enter call
  | intern type written =>
    cases pooled : LiteralKind.ofType? type with
    | some kind =>
      have asks : (DataCall.intern type written).literal? = some (kind, kind.stored written) := by
        rw [DataCall.literal?, pooled]
        rfl
      have performed : p.perform (DataCall.intern type written).action =
          (.ok (some (p.data.intern kind written).1), { p with data := (p.data.intern kind written).2 }) := by
        simp only [Pass.perform, DataCall.action, Emit.internAs, pooled]
        rfl
      have behind := served.intern asks rfl
      -- The label answered is the one under which the literal is found from then on.
      have found := p.data.literalLabel?_intern kind written
      have label := ((behind.literalLabel?_eq_some_iff kind written _).mp found).2
      rw [Pass.answer, performed, asks]
      exact ⟨congrArg some label, behind⟩
    | none =>
      -- Values of the other types have no pool: the call fails and changes nothing.
      have asks : (DataCall.intern type written).literal? = none := by
        rw [DataCall.literal?, pooled]
        rfl
      have performed : p.perform (DataCall.intern type written).action = (.error (.noLiteralPool type), p) := by
        simp only [Pass.perform, DataCall.action, Emit.internAs, pooled]
        rfl
      rw [Pass.answer, performed, asks]
      refine ⟨rfl, ?_, ?_, served.numbered⟩
      · rw [List.filterMap_append]
        exact (List.append_nil _).symm ▸ served.registered
      · rw [DataCall.pool_concat_of_none asks]
        exact served.literals

/-- The list of literals only grows at its end, so that the labels given stay right. -/
theorem answers (served : p.Served done) (calls : List DataCall) :
    p.answers calls = calls.map (·.literal?.map (LiteralKind.labelIn (DataCall.pool (done ++ calls)))) ∧
      (p.serve calls).Served (done ++ calls) := by
  induction calls generalizing p done with
  | nil => exact ⟨rfl, by simpa [Pass.serve] using served⟩
  | cons call rest ih =>
    obtain ⟨answer, behind⟩ := served.step call
    obtain ⟨later, final⟩ := ih behind
    rw [List.append_assoc, List.singleton_append] at later final
    refine ⟨?_, final⟩
    rw [Pass.answers, later, List.map_cons, answer]
    congr 1
    cases asks : call.literal? with
    | none => rfl
    | some literal =>
      obtain ⟨more, grown⟩ := DataCall.pool_append (done ++ [call]) rest
      have member : literal ∈ DataCall.pool (done ++ [call]) :=
        DataCall.mem_pool.mpr ⟨call, List.mem_append_right done List.mem_cons_self, asks⟩
      rw [List.append_assoc, List.singleton_append] at grown
      rw [grown, Option.map_some, Option.map_some, LiteralKind.labelIn_of_prefix member]

end Pass.Served

theorem Pass.served_start (config : Config) : (Pass.start config).Served [] :=
  ⟨Pass.registered_start config [], rfl, DataSection.numbered_empty⟩

/-- The directive of a literal in a pool. -/
def LiteralKind.directiveIn (pool : List (LiteralKind × String)) (literal : LiteralKind × String) : Directive :=
  match literal.1 with
  | .string => ⟨some (labelIn pool literal), .asciiz literal.2, none⟩
  | .float => ⟨some (labelIn pool literal), .float literal.2, none⟩

theorem Pass.Served.directives {p : Pass} {done : List DataCall} (served : p.Served done) :
    p.data.directives =
      layOut 0 (Registration.symbols (done.filterMap DataCall.registration?)) ++
        (DataCall.pool done).map (LiteralKind.directiveIn (DataCall.pool done)) := by
  have distinct : (p.data.literals.map Literal.key).Nodup := served.literals ▸ DataCall.nodup_pool done
  rw [DataSection.directives, served.registered.cells, ← served.literals, List.map_map]
  congr 1
  apply List.map_congr_left
  intro l member
  have label := served.numbered.label_eq distinct member
  rw [Literal.directive, label]
  rfl

/-- Whatever literals are interned and names entered, in any order:

    * a call is answered with the label of its literal in the pool of all calls, and two calls have the same
      answer if and only if they ask for the same kind and the same stored value;
    * a string is stored without one pair of quotes around it, and a float as it is written;
    * the value of a kind with `k` others before it has the label with the number `k`, and no two labels of
      the pool are the same;
    * the directives are those of the symbols and then one for each literal, in the order of first use;
    * a literal has a label if and only if a call asked for it, and it is the one answered. -/
theorem serve_literals (config : Config) (calls : List DataCall) :
    let p := (Pass.start config).serve calls
    let answers := (Pass.start config).answers calls
    let pool := DataCall.pool calls
    answers = calls.map (·.literal?.map (LiteralKind.labelIn pool)) ∧
    (∀ i j : Nat, answers[i]? = answers[j]? ↔ calls[i]?.map DataCall.literal? = calls[j]?.map DataCall.literal?) ∧
    (∀ written v, LiteralKind.stored .string written = v ↔
      written = "\"" ++ v ++ "\"" ∨ written = v ∧ ∀ inner, v ≠ "\"" ++ inner ++ "\"") ∧
    (∀ written, LiteralKind.stored .float written = written) ∧
    (∀ (kind : LiteralKind) (k : Nat) (value : String), (kind.valuesIn pool)[k]? = some value ↔
      (kind, value) ∈ pool ∧ LiteralKind.labelIn pool (kind, value) = kind.label k) ∧
    (pool.map (LiteralKind.labelIn pool)).Nodup ∧
    p.data.directives =
      layOut 0 (Registration.symbols (calls.filterMap DataCall.registration?)) ++
        pool.map (LiteralKind.directiveIn pool) ∧
    ∀ (kind : LiteralKind) (written label : String), p.data.literalLabel? kind written = some label ↔
      (∃ call ∈ calls, call.literal? = some (kind, kind.stored written)) ∧
        label = LiteralKind.labelIn pool (kind, kind.stored written) := by
  intro p answers pool
  obtain ⟨answered, served⟩ :
      answers = calls.map (·.literal?.map (LiteralKind.labelIn pool)) ∧ p.Served calls :=
    (Pass.served_start config).answers calls
  have distinct : pool.Nodup := DataCall.nodup_pool calls
  refine ⟨answered, ?_, LiteralKind.stored_string_eq_iff, fun _ => rfl,
    LiteralKind.getElem?_valuesIn distinct, ?_, served.directives, ?_⟩
  · intro i j
    rw [answered, List.getElem?_map, List.getElem?_map]
    cases first : calls[i]? with
    | none => simp
    | some call =>
      cases calls[j]? with
      | none => simp
      | some other =>
        have member : call ∈ calls := List.mem_of_getElem? first
        simp only [Option.map_some, Option.some.injEq]
        exact DataCall.map_labelIn_inj member
  · exact distinct.map_on fun a member b _ same => (LiteralKind.labelIn_inj member).mp same
  · intro kind written label
    rw [← DataCall.mem_pool]
    exact served.literalLabel?_eq_some_iff kind written label

example :
    (Pass.start (.standard false)).answers
        [.intern .string "\"a\"", .enter (.declare "x" .int), .intern .float "1.5", .intern .string "a",
          .intern .int "3", .intern .string "\"\"a\"\""] =
      [some "str_lit_0", none, some "flt_lit_0", some "str_lit_0", none, some "str_lit_1"] := by
  decide +kernel

end MipsLowering
