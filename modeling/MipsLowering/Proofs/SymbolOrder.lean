import Mathlib.Data.List.Induction
import Mathlib.Data.List.Pairwise
import MipsLowering.Proofs.Registrations

/-! # The order of symbols and the order of cells

The table of symbols keeps names in the order in which they first come up, whether by a declaration or by an
assignment.  A cell is laid out when its name is first declared.  The two orders agree unless a name that was assigned
to waits for its declaration while another that came up later is declared before it (`register_order_iff`). -/

namespace MipsLowering

/-! ## First occurrences -/

section

variable {α β : Type} [BEq β] [LawfulBEq β]

theorem eraseDups_concat (as : List β) (a : β) :
    (as ++ [a]).eraseDups = as.eraseDups ++ if a ∈ as then [] else [a] := by
  have concat := eraseDupsBy_concat id as a
  simpa [List.eraseDups] using concat

theorem nodup_eraseDups (as : List β) : as.eraseDups.Nodup := by
  have distinct := nodup_eraseDupsBy id as
  simpa [List.eraseDups] using distinct

theorem map_eraseDupsBy (key : α → β) (as : List α) :
    (as.eraseDupsBy (key · == key ·)).map key = (as.map key).eraseDups := by
  induction as using List.reverseRecOn with
  | nil => rfl
  | append_singleton as a ih =>
    rw [eraseDupsBy_concat, List.map_append, ih, List.map_append, List.map_singleton, eraseDups_concat]
    have known : as.any (key a == key ·) = true ↔ key a ∈ as.map key := by
      simp only [List.any_eq_true, beq_iff_eq, List.mem_map, @eq_comm β (key a)]
    simp only [known]
    split <;> rfl

/-- Elements without repetitions come in the order of their first places. -/
theorem pairwise_idxOf_eraseDups (as : List β) :
    as.eraseDups.Pairwise fun a b => as.idxOf a < as.idxOf b := by
  induction as using List.reverseRecOn with
  | nil => exact .nil
  | append_singleton as a ih =>
    have kept : as.eraseDups.Pairwise fun b c => (as ++ [a]).idxOf b < (as ++ [a]).idxOf c := by
      refine ih.imp_of_mem fun first second before => ?_
      rw [List.idxOf_append, if_pos (List.mem_eraseDups.mp first), List.idxOf_append,
        if_pos (List.mem_eraseDups.mp second)]
      exact before
    rw [eraseDups_concat]
    by_cases known : a ∈ as
    · rw [if_pos known, List.append_nil]
      exact kept
    · rw [if_neg known, List.pairwise_append]
      refine ⟨kept, List.pairwise_singleton _ _, fun b first c last => ?_⟩
      have inside : b ∈ as := List.mem_eraseDups.mp first
      rw [List.mem_singleton.mp last, List.idxOf_append, if_pos inside, List.idxOf_append, if_neg known]
      exact Nat.lt_of_lt_of_le (List.idxOf_lt_length_of_mem inside) (Nat.le_add_left _ _)

end

/-! ## Names in the table -/

namespace SymbolTable

/-- The names of the symbols, in the order of the table. -/
def names (t : SymbolTable) : List String :=
  t.entries.map Symbol.name

/-- The names that have a cell, in the order of the table. -/
def namesInMemory (t : SymbolTable) : List String :=
  (t.entries.filter Symbol.inMemory).map Symbol.name

variable {t : SymbolTable} {name : String}

theorem mem_names_iff : name ∈ t.names ↔ (t.lookup? name).isSome = true := by
  simp [names, lookup?, List.find?_isSome]

theorem names_add (t : SymbolTable) (s : Symbol) : (t.add s).names = t.names ++ [s.name] := by
  simp [names, add]

theorem names_replace (t : SymbolTable) (s : Symbol) : (t.replace s).names = t.names := by
  simp only [names, replace, List.map_map]
  refine List.map_congr_left fun old _ => ?_
  simp only [Function.comp_apply]
  split
  next same => exact (beq_iff_eq.mp same).symm
  next => rfl

theorem names_giveCell {make : Option Symbol → Symbol} (named : (make (t.lookup? name)).name = name) :
    (t.giveCell name make).1.names = t.names ++ if name ∈ t.names then [] else [name] := by
  unfold giveCell
  cases entry : t.lookup? name with
  | none =>
    rw [entry] at named
    have new : name ∉ t.names := by simp [mem_names_iff, entry]
    rw [if_neg new, names_add, named]
  | some old =>
    have known : name ∈ t.names := by simp [mem_names_iff, entry]
    rw [if_pos known, List.append_nil]
    dsimp only
    split
    · rfl
    · exact names_replace _ _

theorem names_note (t : SymbolTable) (name : String) (type : ValueType) :
    (t.note name type).names = t.names ++ if name ∈ t.names then [] else [name] := by
  unfold note
  cases entry : t.lookup? name with
  | none =>
    have new : name ∉ t.names := by simp [mem_names_iff, entry]
    rw [if_neg new]
    exact names_add _ _
  | some old =>
    have known : name ∈ t.names := by simp [mem_names_iff, entry]
    rw [if_pos known, List.append_nil]

theorem lookup?_of_mem {s : Symbol} (distinct : t.names.Nodup) (member : s ∈ t.entries) :
    t.lookup? s.name = some s := by
  have known : s.name ∈ t.names := List.mem_map_of_mem member
  obtain ⟨found, entry⟩ := Option.isSome_iff_exists.mp (mem_names_iff.mp known)
  rw [entry]
  congr 1
  exact List.inj_on_of_nodup_map distinct (List.mem_of_find?_eq_some entry) member (name_of_lookup? entry)

theorem namesInMemory_eq_filter (distinct : t.names.Nodup) : t.namesInMemory = t.names.filter t.isInMemory := by
  rw [namesInMemory, names, List.filter_map]
  congr 1
  refine List.filter_congr fun s member => ?_
  rw [Function.comp_apply, isInMemory, lookup?_of_mem distinct member, Option.any_some]

end SymbolTable

/-! ## Names behind calls -/

namespace Registration

def name : Registration → String
  | .declare name _ => name
  | .declareArray name _ _ => name
  | .note name _ => name

/-- The names that calls mention, with repetitions. -/
def mentioned (calls : List Registration) : List String :=
  calls.map name

/-- The names that calls declare, with repetitions. -/
def declared (calls : List Registration) : List String :=
  (calls.filterMap entry?).map Symbol.name

theorem symbols_perform_giveCell (p : Pass) (name : String) (make : Option Symbol → Symbol) :
    (p.perform (Emit.declared (·.giveCell name make))).2.symbols = (p.symbols.giveCell name make).1 := by
  rw [Pass.perform]
  cases backed : p.symbols.isInMemory name with
  | true => rw [Emit.run_giveCell_of_backed name make backed, SymbolTable.giveCell_of_isInMemory backed]
  | false =>
    rw [Emit.run_giveCell_of_unbacked name make backed rfl]
    cases (make (p.symbols.lookup? name)).isWritable <;> rfl

theorem names_perform_enter (p : Pass) (call : Registration) :
    (p.perform call.enter).2.symbols.names =
      p.symbols.names ++ if call.name ∈ p.symbols.names then [] else [call.name] := by
  cases call with
  | note name type => exact p.symbols.names_note name type
  | declare name type =>
    have entered := symbols_perform_giveCell p name (SymbolTable.declaredEntry name type)
    exact (congrArg SymbolTable.names entered).trans
      (SymbolTable.names_giveCell (SymbolTable.name_declaredEntry name type))
  | declareArray name type length =>
    have entered := symbols_perform_giveCell p name fun _ => ⟨name, .array, type, length, true⟩
    exact (congrArg SymbolTable.names entered).trans (SymbolTable.names_giveCell rfl)

theorem names_register {p : Pass} {done : List Registration} (names : p.symbols.names = (mentioned done).eraseDups)
    (calls : List Registration) : (p.register calls).symbols.names = (mentioned (done ++ calls)).eraseDups := by
  induction calls generalizing p done with
  | nil => simpa [Pass.register] using names
  | cons call rest ih =>
    have step : (p.perform call.enter).2.symbols.names = (mentioned (done ++ [call])).eraseDups := by
      rw [names_perform_enter, names, mentioned, mentioned, List.map_append, List.map_singleton, eraseDups_concat]
      simp only [List.mem_eraseDups]
    simpa [Pass.register] using ih step

theorem declared_subset_mentioned (calls : List Registration) : declared calls ⊆ mentioned calls := by
  intro name member
  obtain ⟨s, asked, rfl⟩ := List.mem_map.mp member
  obtain ⟨call, inside, asks⟩ := List.mem_filterMap.mp asked
  refine List.mem_map.mpr ⟨call, inside, ?_⟩
  cases call with
  | note => cases asks
  | declare | declareArray =>
    cases asks
    rfl

theorem names_symbols (calls : List Registration) : (symbols calls).map Symbol.name = (declared calls).eraseDups :=
  map_eraseDupsBy Symbol.name _

end Registration

theorem filterMap_label_layOut (counter : Nat) (symbols : List Symbol) :
    (layOut counter symbols).filterMap Directive.label = (symbols.filter Symbol.isWritable).map Symbol.name := by
  induction symbols generalizing counter with
  | nil => rfl
  | cons s rest ih =>
    have labels : (s.lines counter).filterMap Directive.label = if s.isWritable then [s.name] else [] := by
      have padding : paddingDirective.label = none := rfl
      rw [Symbol.lines, List.filterMap_append]
      cases s.isWritable <;> split <;> simp [s.label_directive, padding]
    rw [layOut, List.filterMap_append, labels, ih]
    cases writable : s.isWritable <;> simp [writable]

/-! ## The two orders -/

namespace Registration

variable (calls : List Registration)

/-- Declared names are first declared in the order in which they first come up. -/
def InOrder : Prop :=
  ∀ a ∈ declared calls, ∀ b ∈ declared calls, (mentioned calls).idxOf a < (mentioned calls).idxOf b →
    (declared calls).idxOf a < (declared calls).idxOf b

/-- The declared names in the order in which they first come up. -/
def firstMentions : List String :=
  (mentioned calls).eraseDups.filter fun name => decide (name ∈ declared calls)

theorem mem_firstMentions_iff {name : String} : name ∈ firstMentions calls ↔ name ∈ declared calls := by
  simp only [firstMentions, List.mem_filter, List.mem_eraseDups, decide_eq_true_eq, and_iff_right_iff_imp]
  exact fun member => declared_subset_mentioned calls member

theorem pairwise_firstMentions :
    (firstMentions calls).Pairwise fun a b => (mentioned calls).idxOf a < (mentioned calls).idxOf b :=
  (pairwise_idxOf_eraseDups _).sublist List.filter_sublist

theorem inOrder_of_eq (same : firstMentions calls = (declared calls).eraseDups) : InOrder calls := by
  intro a first b second before
  let Before (a b : String) : Prop :=
    (mentioned calls).idxOf a < (mentioned calls).idxOf b ∧ (declared calls).idxOf a < (declared calls).idxOf b
  have both : (firstMentions calls).Pairwise Before := by
    refine (pairwise_firstMentions calls).and ?_
    rw [same]
    exact pairwise_idxOf_eraseDups _
  -- Any two names of the list stand in both orders, one way or the other.
  have either : (firstMentions calls).Pairwise fun a b => Before a b ∨ Before b a := both.imp .inl
  have symmetric : Std.Symm fun a b => Before a b ∨ Before b a := ⟨fun _ _ => Or.symm⟩
  have differs : a ≠ b := by
    rintro rfl
    exact Nat.lt_irrefl _ before
  rcases either.forall ((mem_firstMentions_iff calls).mpr first) ((mem_firstMentions_iff calls).mpr second) differs
    with ⟨-, declared⟩ | ⟨mentioned, -⟩
  · exact declared
  · exact absurd before (Nat.lt_asymm mentioned)

theorem eq_of_inOrder (inOrder : InOrder calls) : firstMentions calls = (declared calls).eraseDups := by
  have distinct : (firstMentions calls).Nodup := (nodup_eraseDups _).filter _
  have sorted : (firstMentions calls).Pairwise fun a b => (declared calls).idxOf a < (declared calls).idxOf b :=
    (pairwise_firstMentions calls).imp_of_mem fun first second before =>
      inOrder _ ((mem_firstMentions_iff calls).mp first) _ ((mem_firstMentions_iff calls).mp second) before
  refine List.Perm.eq_of_pairwise ?_ sorted (pairwise_idxOf_eraseDups _) ?_
  · intro a b _ _ less greater
    exact absurd less (Nat.lt_asymm greater)
  · rw [List.perm_ext_iff_of_nodup distinct (nodup_eraseDups _)]
    intro name
    rw [mem_firstMentions_iff, List.mem_eraseDups]

theorem firstMentions_eq_iff :
    firstMentions calls = ((symbols calls).filter Symbol.isWritable).map Symbol.name ↔
      (∀ s ∈ symbols calls, s.isWritable = true) ∧ InOrder calls := by
  have whole : (∀ s ∈ symbols calls, s.isWritable = true) →
      ((symbols calls).filter Symbol.isWritable).map Symbol.name = (declared calls).eraseDups := fun writable => by
    rw [List.filter_eq_self.mpr writable, names_symbols]
  constructor
  · intro same
    have writable : ∀ s ∈ symbols calls, s.isWritable = true := by
      intro s member
      have named : s.name ∈ (symbols calls).map Symbol.name := List.mem_map_of_mem member
      rw [names_symbols, List.mem_eraseDups, ← mem_firstMentions_iff, same] at named
      obtain ⟨other, kept, names⟩ := List.mem_map.mp named
      obtain ⟨inside, writable⟩ := List.mem_filter.mp kept
      rwa [List.inj_on_of_nodup_map (nodup_eraseDupsBy Symbol.name _) inside member names] at writable
    exact ⟨writable, inOrder_of_eq calls (same.trans (whole writable))⟩
  · rintro ⟨writable, inOrder⟩
    rw [whole writable, eq_of_inOrder calls inOrder]

end Registration

theorem Pass.Registered.namesInMemory_eq {p : Pass} {calls : List Registration} (registered : p.Registered calls)
    (names : p.symbols.names = (Registration.mentioned calls).eraseDups) :
    p.symbols.namesInMemory = Registration.firstMentions calls := by
  have distinct : p.symbols.names.Nodup := names ▸ nodup_eraseDups _
  rw [SymbolTable.namesInMemory_eq_filter distinct, names, Registration.firstMentions]
  refine List.filter_congr fun name _ => ?_
  rw [SymbolTable.isInMemory_eq_cell?, registered.entries, List.isSome_find?, Bool.eq_iff_iff]
  simp only [Registration.declared, List.any_eq_true, beq_iff_eq, decide_eq_true_eq, List.mem_map]

/-- Whatever names are entered, the table keeps them in the order in which they first come up, and the cells come in
    the order in which names are first declared.  The names that have a cell come in one and the same order in the
    table and in the data section exactly if every directive can be written and the names are first declared in the
    order in which they come up. -/
theorem register_order_iff (config : Config) (calls : List Registration) :
    let p := (Pass.start config).register calls
    p.symbols.names = (Registration.mentioned calls).eraseDups ∧
    p.symbols.namesInMemory = Registration.firstMentions calls ∧
    p.data.cells.filterMap Directive.label =
      ((Registration.symbols calls).filter Symbol.isWritable).map Symbol.name ∧
    (p.symbols.namesInMemory = p.data.cells.filterMap Directive.label ↔
      (∀ s ∈ Registration.symbols calls, s.isWritable = true) ∧ Registration.InOrder calls) := by
  intro p
  have registered : p.Registered calls := Pass.registered_start config calls
  have names : p.symbols.names = (Registration.mentioned calls).eraseDups :=
    @Registration.names_register (Pass.start config) [] rfl calls
  have labels : p.data.cells.filterMap Directive.label =
      ((Registration.symbols calls).filter Symbol.isWritable).map Symbol.name := by
    rw [registered.cells, filterMap_label_layOut]
  have held : p.symbols.namesInMemory = Registration.firstMentions calls := registered.namesInMemory_eq names
  refine ⟨names, held, labels, ?_⟩
  rw [labels, held]
  exact Registration.firstMentions_eq_iff calls

/-- The name `t` is assigned to, and declared only behind `x`. -/
def lateCalls : List Registration :=
  [.note "t" .int, .declare "x" .int, .declare "t" .int]

/-- The table has `t` before `x`, and the data section has it behind. -/
theorem lateCalls_out_of_order :
    ((Pass.start (.standard false)).register lateCalls).symbols.namesInMemory = ["t", "x"] ∧
    ((Pass.start (.standard false)).register lateCalls).data.cells.filterMap Directive.label = ["x", "t"] := by
  decide +kernel

end MipsLowering
