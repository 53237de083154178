import Mathlib.Data.List.Basic
import MipsLowering.Proofs.Ledger

/-! # The cells of a program

A declaration, a call with a target and a read ask for a cell.  The first of them that names a symbol
settles its cell and its entry in the table; whatever else happens to the name, before or after, makes no
difference.  `Ledger.Houses` says so of the lines up to a place, and as cells are only ever added behind
others, what it says of a part of a program stays true until the end. -/

namespace MipsLowering

/-! ## First occurrences -/

section

variable {α β : Type} [BEq β] (key : α → β)

/-- An element at the end is kept if its key is new. -/
theorem eraseDupsBy_concat [LawfulBEq β] (as : List α) (a : α) :
    (as ++ [a]).eraseDupsBy (key · == key ·) =
      as.eraseDupsBy (key · == key ·) ++ if as.any (key a == key ·) then [] else [a] := by
  cases as with
  | nil => rfl
  | cons first rest =>
    rw [List.cons_append, List.eraseDupsBy_cons, List.eraseDupsBy_cons, List.filter_append]
    by_cases same : key a = key first
    · simp [same]
    · have kept : [a].filter (fun b => decide ((key b == key first) = false)) = [a] := by simp [same]
      -- What has the key of `a` has not that of `first`.
      have others : (rest.filter fun b => decide ((key b == key first) = false)).any (key a == key ·) =
          rest.any (key a == key ·) := by
        rw [List.any_filter]
        congr 1
        funext b
        by_cases hit : key a = key b
        · simp [← hit, same]
        · simp [hit]
      have differs : (key a == key first) = false := beq_false_of_ne same
      rw [kept, eraseDupsBy_concat, others, List.any_cons, differs, Bool.false_or, List.cons_append]
termination_by as.length
decreasing_by exact Nat.lt_succ_of_le (List.length_filter_le _ _)

theorem eraseDupsBy_sublist (as : List α) : (as.eraseDupsBy (key · == key ·)).Sublist as := by
  cases as with
  | nil => exact .slnil
  | cons first rest =>
    rw [List.eraseDupsBy_cons]
    exact ((eraseDupsBy_sublist _).trans List.filter_sublist).cons_cons first
termination_by as.length
decreasing_by exact Nat.lt_succ_of_le (List.length_filter_le _ _)

theorem nodup_eraseDupsBy [LawfulBEq β] (as : List α) :
    ((as.eraseDupsBy (key · == key ·)).map key).Nodup := by
  cases as with
  | nil => exact .nil
  | cons first rest =>
    rw [List.eraseDupsBy_cons, List.map_cons, List.nodup_cons]
    refine ⟨?_, nodup_eraseDupsBy _⟩
    intro again
    obtain ⟨a, member, same⟩ := List.mem_map.mp again
    have kept := (List.mem_filter.mp ((eraseDupsBy_sublist key _).subset member)).2
    simp [same] at kept
termination_by as.length
decreasing_by exact Nat.lt_succ_of_le (List.length_filter_le _ _)

end

/-! ## Cells of statements -/

/-- The cell for which a statement asks. -/
def Stmt.directive? : Stmt → Option Directive
  | .declare name typeName _ =>
    let storage : Storage := match ValueType.ofGivenName typeName with
      | .float => .float "0.0"
      | .char => .byte
      | _ => .word
    some ⟨some name, storage, none⟩
  | .declareArray name length typeName _ =>
    let type := ValueType.ofGivenName typeName
    let size := if type = .char then 1 else 4
    some ⟨some name, .space (max 1 length.toNat * size),
      some (type.name ++ "[" ++ toString length ++ "]")⟩
  | .call _ _ target _ => (given target).map (⟨some ·, .word, none⟩)
  | .read target => some ⟨some target, .word, none⟩
  | _ => none

theorem Stmt.directive?_eq (s : Stmt) : s.directive? = s.entry?.map Symbol.directive := by
  cases s with
  | declareArray name length typeName isGlobal =>
    simp only [directive?, entry?]
    cases ValueType.ofGivenName typeName <;> rfl
  | call function count target rawCount =>
    simp only [directive?, entry?, Option.map_map]
    rfl
  | _ => rfl

theorem Symbol.label_directive (s : Symbol) : s.directive.label = some s.name := by
  unfold directive
  split <;> rfl

/-! ## The account of cells -/

def Directive.isStorage (d : Directive) : Bool :=
  d.storage != .alignWord

theorem Symbol.isStorage_directive (s : Symbol) : s.directive.isStorage = true := by
  unfold directive
  split
  · cases s.type <;> rfl
  · rfl

/-- The first entry of a name stays the first. -/
theorem find?_entries_concat {α : Type} {asked : α → Option Symbol} {a : α} {s : Symbol}
    (asks : asked a = some s) (done : List α) (name : String) :
    ((done ++ [a]).filterMap asked).find? (·.name == name) =
      ((done.filterMap asked).find? (·.name == name)).or (if s.name = name then some s else none) := by
  rw [List.filterMap_append, List.filterMap_cons_some asks, List.filterMap_nil, List.find?_append,
    List.find?_singleton]
  simp

/-- The statements `done` have got the cells for which they ask, each name its first. -/
structure Ledger.Houses (g : Ledger) (done : List Stmt) : Prop where
  cells : g.data.cells.filter Directive.isStorage =
    (done.filterMap Stmt.directive?).eraseDupsBy (·.label == ·.label)
  entries : ∀ name, g.cell? name = (done.filterMap Stmt.entry?).find? (·.name == name)

namespace Ledger

variable {g : Ledger} {done : List Stmt}

theorem cell?_give (s : Symbol) (name : String) :
    (g.give s).cell? name = (g.cell? name).or (if s.name = name then some s else none) := by
  unfold give
  split
  next has =>
    by_cases same : s.name = name
    · obtain ⟨old, found⟩ := Option.isSome_iff_exists.mp has
      simp [← same, found]
    · simp [same]
  next lacks =>
    by_cases same : s.name = name
    · rw [Bool.not_eq_true, Option.isSome_eq_false_iff, Option.isNone_iff_eq_none] at lacks
      simp [← same, lacks]
    · simp [same, Function.update_of_ne (Ne.symm same)]

/-- Padding is no storage, so that a symbol adds the directive of its cell or nothing. -/
theorem cells_give (s : Symbol) :
    (g.give s).data.cells.filter Directive.isStorage =
      g.data.cells.filter Directive.isStorage ++
        if (g.cell? s.name).isSome then [] else [s.directive] := by
  have padding : ∀ b : Bool, (if b then [paddingDirective] else []).filter Directive.isStorage = [] := by
    intro b
    cases b <;> rfl
  have cell : [s.directive].filter Directive.isStorage = [s.directive] := by
    simp [s.isStorage_directive]
  unfold give
  split
  · simp
  · simp only [DataSection.append, DataSection.align, List.filter_append, padding, cell, List.append_nil]

theorem prefix_after (s : Stmt) : g.data.cells <+: (g.after s).data.cells := by
  have given : ∀ (g : Ledger) (e : Symbol), g.data.cells <+: (g.give e).data.cells := by
    intro g e
    unfold give
    split
    · exact List.prefix_rfl
    · exact (List.prefix_append _ _).trans (List.prefix_append _ _)
  rw [after, ← g.data_record s]
  cases s.entry? with
  | none => exact List.prefix_rfl
  | some e => exact given _ e

theorem prefix_foldl (rest : List Stmt) (g : Ledger) :
    g.data.cells <+: (rest.foldl after g).data.cells := by
  induction rest generalizing g with
  | nil => exact List.prefix_rfl
  | cons s rest ih => exact (prefix_after s).trans (ih (g.after s))

namespace Houses

theorem give (houses : g.Houses done) {s : Stmt} {e : Symbol} (asks : s.entry? = some e) :
    (g.give e).Houses (done ++ [s]) := by
  have asked : s.directive? = some e.directive := by rw [s.directive?_eq, asks]; rfl
  have known : (done.filterMap Stmt.directive?).any (e.directive.label == ·.label) =
      (g.cell? e.name).isSome := by
    have listed : done.filterMap Stmt.directive? = (done.filterMap Stmt.entry?).map Symbol.directive := by
      rw [List.map_filterMap]
      exact congrArg (done.filterMap ·) (funext Stmt.directive?_eq)
    rw [listed, houses.entries, List.any_map, List.isSome_find?]
    congr 1
    funext other
    simp [Symbol.label_directive, Bool.beq_eq_decide_eq, eq_comm]
  constructor
  · rw [cells_give, houses.cells, List.filterMap_append, List.filterMap_cons_some asked,
      List.filterMap_nil, eraseDupsBy_concat Directive.label, known]
  · intro name
    rw [cell?_give, houses.entries, find?_entries_concat asks]

theorem after (houses : g.Houses done) (s : Stmt) : (g.after s).Houses (done ++ [s]) := by
  have recorded : (g.record s).Houses done :=
    ⟨g.data_record s ▸ houses.cells, g.cell?_record s ▸ houses.entries⟩
  unfold Ledger.after
  cases asks : s.entry? with
  | none =>
    have silent : s.directive? = none := by rw [s.directive?_eq, asks]; rfl
    exact ⟨by simpa [silent] using recorded.cells, by simpa [asks] using recorded.entries⟩
  | some e => exact recorded.give asks

theorem foldl (houses : g.Houses done) (rest : List Stmt) :
    (rest.foldl Ledger.after g).Houses (done ++ rest) := by
  induction rest generalizing g done with
  | nil => simpa using houses
  | cons s rest ih => simpa using ih (houses.after s)

end Houses

end Ledger

/-! ## Programs -/

theorem SymbolTable.lookup?_of_cell? {t : SymbolTable} {name : String} {s : Symbol}
    (cell : t.cell? name = some s) : t.lookup? name = some s :=
  (Option.filter_eq_some_iff.mp cell).1

/-- The cells behind the first lines of a program. -/
theorem cells_lines {config : Config} {program part : Program} {r : Pass}
    (ran : (Lower.lines part).run (Pass.ready config program) = .ok () r) :
    r.data.cells.filter Directive.isStorage =
        (part.filterMap (·.stmt.directive?)).eraseDupsBy (·.label == ·.label) ∧
      ∀ name, r.symbols.cell? name = (part.filterMap (·.stmt.entry?)).find? (·.name == name) := by
  have ready : (Pass.ready config program).ledger.Houses [] := ⟨rfl, fun _ => rfl⟩
  have houses := ready.foldl (part.map Line.stmt)
  rw [← (Lower.ledger_lines ran (Pass.ready_opens config program)).1] at houses
  have cells := houses.cells
  have entries := houses.entries
  rw [List.nil_append, List.filterMap_map] at cells entries
  exact ⟨cells, entries⟩

/-- The entries behind a step. -/
theorem Chain.cell?_after {config : Config} {program : Program} {before after : List TraceStep}
    {s : TraceStep} {q : Pass} (chain : Chain (Pass.ready config program) (before ++ s :: after) q)
    (name : String) :
    s.after.symbols.cell? name =
      ((before ++ [s]).filterMap (·.stmt.entry?)).find? (·.name == name) := by
  obtain ⟨earlier, ran, -⟩ := chain.around
  rw [(cells_lines (earlier.concat ran).run_lines).2 name, List.filterMap_map]
  rfl

/-- The cells of a program are those for which its statements ask, each name getting its first.  From the
    statement on that first asks, cell and entry stay as they are. -/
theorem lowerProgram_cells {config : Config} {program : Program} {listing : String} {p : Pass}
    (lowered : lowerProgram config program = (.ok listing, p)) :
    p.data.cells.filter Directive.isStorage =
        (program.filterMap (·.stmt.directive?)).eraseDupsBy (·.label == ·.label) ∧
      ((p.data.cells.filter Directive.isStorage).map Directive.label).Nodup ∧
      ∀ before after, program = before ++ after →
        ∃ r, (Lower.lines before).run (Pass.ready config program) = .ok () r ∧
          r.data.cells <+: p.data.cells ∧
          r.data.cells.filter Directive.isStorage =
            (before.filterMap (·.stmt.directive?)).eraseDupsBy (·.label == ·.label) ∧
          ∀ name,
            match (before.filterMap (·.stmt.entry?)).find? (·.name == name) with
            | some s => r.symbols.lookup? name = some s ∧ p.symbols.lookup? name = some s
            | none => r.symbols.isInMemory name = false := by
  obtain ⟨q, ran, -, final⟩ := lowerProgram_iff.mp ⟨listing, lowered⟩
  have data : p.data = q.data := by rw [final]
  have symbols : p.symbols = q.symbols := by rw [final]
  obtain ⟨cells, entries⟩ := cells_lines ran
  rw [data, symbols]
  refine ⟨cells, cells ▸ nodup_eraseDupsBy Directive.label _, ?_⟩
  intro before after parts
  have ranParts := ran
  rw [parts, Lower.lines_append, ← parts] at ranParts
  obtain ⟨_, r, ranBefore, ranAfter⟩ := Emit.run_bind_ok.mp ranParts
  obtain ⟨cells', entries'⟩ := cells_lines ranBefore
  have opens := (Lower.ledger_lines ranBefore (Pass.ready_opens config program)).2
  have grows : r.ledger.data.cells <+: q.ledger.data.cells := by
    rw [(Lower.ledger_lines ranAfter opens).1]
    exact Ledger.prefix_foldl _ _
  refine ⟨r, ranBefore, grows, cells', fun name => ?_⟩
  split
  next s first =>
    have still : (program.filterMap (·.stmt.entry?)).find? (·.name == name) = some s := by
      rw [parts, List.filterMap_append, List.find?_append, first]
      rfl
    constructor
    · exact SymbolTable.lookup?_of_cell? ((entries' name).trans first)
    · exact SymbolTable.lookup?_of_cell? ((entries name).trans still)
  next none =>
    rw [SymbolTable.isInMemory_eq_cell?, entries' name, none]
    rfl

/-- Names that are assigned before they are declared, and declared again as something else. -/
def declaresAgain : Program :=
  Program.ofStmts
    [.assign "t" (some "5") none none,
      .declare "c" (some "char") false,
      .declareArray "t" 3 (some "float") false,
      .declare "t" (some "char") false,
      .call "f" (some 0) (some "r") none,
      .declareArray "r" 0 (some "int") false,
      .read "n",
      .declare "n" (some "float") false,
      .assign "t" (some "c") none none]

theorem declaresAgain_cells :
    ∃ listing p, lowerProgram (Config.standard false) declaresAgain = (.ok listing, p) ∧
      p.data.cells =
        [⟨some "c", .byte, none⟩, ⟨none, .alignWord, none⟩, ⟨some "t", .space 12, some "FLOAT[3]"⟩,
          ⟨some "r", .word, none⟩, ⟨some "n", .word, none⟩] ∧
      p.symbols.lookup? "t" = some ⟨"t", .array, .float, 3, true⟩ := by
  have runs : (lowerProgram (Config.standard false) declaresAgain).1.isOk = true ∧
      (lowerProgram (Config.standard false) declaresAgain).2.data.cells =
        [⟨some "c", .byte, none⟩, ⟨none, .alignWord, none⟩, ⟨some "t", .space 12, some "FLOAT[3]"⟩,
          ⟨some "r", .word, none⟩, ⟨some "n", .word, none⟩] := by
    decide +kernel
  cases lowered : lowerProgram (Config.standard false) declaresAgain with
  | mk result p =>
    rw [lowered] at runs
    cases result with
    | error => cases runs.1
    | ok listing =>
      obtain ⟨-, -, stable⟩ := lowerProgram_cells lowered
      obtain ⟨r, -, -, -, settled⟩ := stable (declaresAgain.take 3) (declaresAgain.drop 3) rfl
      have first : ((declaresAgain.take 3).filterMap (·.stmt.entry?)).find? (·.name == "t") =
          some ⟨"t", .array, .float, 3, true⟩ := by
        decide +kernel
      have kept := settled "t"
      rw [first] at kept
      exact ⟨listing, p, rfl, runs.2, kept.2⟩

end MipsLowering
