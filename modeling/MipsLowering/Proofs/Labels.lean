import Mathlib.Data.Finset.Card
import Mathlib.Data.List.Nodup
import Mathlib.Data.List.ProdSigma
import Mathlib.Order.Interval.Finset.Nat
import MipsLowering.Proofs.Ledger

/-! # The labels of a program

A program names labels of its own, and every fill with zeros adds two more: one for its loop and one for
the end of the loop.

* The search for a number ends at a free one (`LabelTable.isFree_nextFree`): each number that is passed
  over puts one of the suffixes on a taken label, so there are only so many of them.
* All labels that the program names anywhere are reserved before the first line is lowered, so what is
  generated is free of them, and of everything generated before because the numbers ascend.
* `Ledger.Accounts` says what the lines up to a place have made of the table of labels.  From it follow
  the label lines of the text and the labels that are counted and missed. -/

namespace MipsLowering

/-! ## Numbered labels -/

namespace LabelTable

theorem numbered_append_inj {stem suffix : String} {m n : Nat}
    (same : numbered stem m ++ suffix = numbered stem n ++ suffix) : m = n := by
  have digits : Nat.toDigits 10 m = Nat.toDigits 10 n := by
    simpa [numbered] using congrArg String.toList same
  simpa using congrArg (fun ds => Nat.ofDigitChars 10 ds 0) digits

theorem numbered_inj {stem : String} {m n : Nat} (same : numbered stem m = numbered stem n) : m = n :=
  numbered_append_inj (congrArg (· ++ "") same)

/-- The label of a loop is not the label of the end of a loop: a number is made of digits. -/
theorem numbered_ne_end (stem : String) (m n : Nat) : numbered stem m ≠ numbered stem n ++ "_end" := by
  intro same
  have digits : Nat.toDigits 10 m = Nat.toDigits 10 n ++ ['_', 'e', 'n', 'd'] := by
    simpa [numbered] using congrArg String.toList same
  have underscore : '_' ∈ Nat.toDigits 10 m := by simp [digits]
  have digit := Nat.isDigit_of_mem_toDigits (by decide) (by decide) underscore
  cases digit

/-! ## The search for a free number -/

/-- A search that ends at a number without the property has tried all it may. -/
theorem firstFrom_eq_of_missed {p : Nat → Bool} {bound number : Nat}
    (missed : p (firstFrom p bound number) = false) : firstFrom p bound number = number + bound := by
  induction bound generalizing number with
  | zero => rfl
  | succ bound ih =>
    simp only [firstFrom] at missed ⊢
    split at missed
    next found =>
      rw [found] at missed
      cases missed
    next passed =>
      rw [if_neg passed, ih missed]
      omega

def taken (t : LabelTable) : List String :=
  t.defined ++ t.referenced ++ t.reserved

theorem isTaken_iff {t : LabelTable} {label : String} : t.isTaken label = true ↔ label ∈ t.taken := by
  simp [isTaken, isDefined, isReferenced, taken, or_assoc]

theorem isFree_iff {t : LabelTable} {stem : String} {suffixes : List String} {number : Nat} :
    t.isFree stem suffixes number = true ↔
      ∀ suffix ∈ suffixes, numbered stem number ++ suffix ∉ t.taken := by
  simp only [isFree, List.all_eq_true, Bool.not_eq_true', ← Bool.not_eq_true, isTaken_iff]

/-- There is a free number among those that are tried, as the others are too few. -/
theorem isFree_nextFree (t : LabelTable) (stem : String) (suffixes : List String) :
    t.isFree stem suffixes (t.nextFree stem suffixes) = true := by
  by_contra missed
  rw [Bool.not_eq_true] at missed
  have last : t.nextFree stem suffixes = t.counter stem + t.takenBound suffixes :=
    firstFrom_eq_of_missed missed
  let tried := Finset.Icc (t.counter stem) (t.counter stem + t.takenBound suffixes)
  have hit : ∀ n ∈ tried, ∃ pair ∈ t.taken ×ˢ suffixes, numbered stem n ++ pair.2 = pair.1 := by
    intro n member
    obtain ⟨low, high⟩ := Finset.mem_Icc.mp member
    have notFree : t.isFree stem suffixes n = false := by
      rcases Nat.lt_or_eq_of_le high with before | rfl
      · apply eq_false_of_lt_firstFrom _ (t.takenBound suffixes) _ low
        rw [← nextFree, last]
        exact before
      · rw [← last]
        exact missed
    rw [← Bool.not_eq_true, isFree_iff] at notFree
    push Not at notFree
    obtain ⟨suffix, inSuffixes, isTaken⟩ := notFree
    exact ⟨(_, suffix), List.mem_product.mpr ⟨isTaken, inSuffixes⟩, rfl⟩
  choose! pair inPairs made using hit
  -- A taken label and a suffix tell the number, so there are no more numbers than such pairs.
  have few : tried.card ≤ (t.taken ×ˢ suffixes).toFinset.card := by
    apply Finset.card_le_card_of_injOn pair
    · intro n member
      exact List.mem_toFinset.mpr (inPairs n member)
    · intro m inTried n inTried' same
      have label : numbered stem m ++ (pair m).2 = numbered stem n ++ (pair m).2 := by
        rw [made m inTried, same, made n inTried']
      exact numbered_append_inj label
  have pairs : (t.taken ×ˢ suffixes).length = t.takenBound suffixes := by
    simp [List.length_product, taken, takenBound, Nat.add_assoc]
  have bounded := few.trans (List.toFinset_card_le _)
  rw [pairs, Nat.card_Icc] at bounded
  omega

end LabelTable

/-! ## Loops -/

/-- The labels of the loop with a number. -/
def loopLabels (n : Nat) : List String :=
  [LabelTable.numbered "arr_pad" n, LabelTable.numbered "arr_pad" n ++ "_end"]

theorem LabelTable.notMem_taken_of_loopLabels (t : LabelTable) :
    ∀ l ∈ loopLabels (t.nextFree "arr_pad" ["", "_end"]), l ∉ t.taken := by
  have search := isFree_iff.mp (t.isFree_nextFree "arr_pad" ["", "_end"])
  simpa [loopLabels] using search

open LabelTable in
theorem disjoint_loopLabels {m n : Nat} (distinct : m ≠ n) :
    (loopLabels m).Disjoint (loopLabels n) := by
  intro label inFirst inSecond
  simp only [loopLabels, List.mem_cons, List.not_mem_nil, or_false] at inFirst inSecond
  rcases inFirst with rfl | rfl
  · rcases inSecond with same | same
    · exact distinct (numbered_inj same)
    · exact numbered_ne_end _ _ _ same
  · rcases inSecond with same | same
    · exact numbered_ne_end _ _ _ same.symm
    · exact distinct (numbered_append_inj same)

theorem nodup_loopLabels {numbers : List Nat} (ascending : numbers.Pairwise (· < ·)) :
    (numbers.flatMap loopLabels).Nodup := by
  refine List.nodup_flatMap.mpr ⟨fun n _ => ?_, ascending.imp fun less => ?_⟩
  · simp [loopLabels, LabelTable.numbered_ne_end]
  · exact disjoint_loopLabels (Nat.ne_of_lt less)

theorem length_loopLabels (numbers : List Nat) :
    (numbers.flatMap loopLabels).length = 2 * numbers.length := by
  induction numbers with
  | nil => rfl
  | cons n rest ih =>
    rw [List.flatMap_cons, List.length_append, ih]
    simp only [loopLabels, List.length_cons, List.length_nil]
    omega

namespace Stmt

def definedLabel? : Stmt → Option String
  | .label name => some name
  | _ => none

/-- The label that a statement jumps to, or the function that it calls. -/
def usedLabel? : Stmt → Option String
  | .goto name | .branch _ name _ _ | .call name _ _ _ => some name
  | _ => none

def isZeroFill : Stmt → Bool
  | .zeroFill .. => true
  | _ => false

theorem namedLabel?_iff {s : Stmt} {l : String} :
    s.namedLabel? = some l ↔ s.definedLabel? = some l ∨ s.usedLabel? = some l := by
  cases s <;> simp [namedLabel?, definedLabel?, usedLabel?]

/-- The label lines of statements: the labels that these define and, for each fill, the labels of a loop.
    The loops are numbered in order by `numbers`. -/
def labelLines : List Stmt → (numbers : List Nat) → List String
  | .label name :: rest, numbers => name :: labelLines rest numbers
  | .zeroFill .. :: rest, n :: numbers => loopLabels n ++ labelLines rest numbers
  | _ :: rest, numbers => labelLines rest numbers
  | [], _ => []

theorem labelLines_append {first second : List Stmt} {numbers more : List Nat}
    (counted : numbers.length = first.countP isZeroFill) :
    labelLines (first ++ second) (numbers ++ more) =
      labelLines first numbers ++ labelLines second more := by
  induction first generalizing numbers with
  | nil =>
    obtain rfl : numbers = [] := List.length_eq_zero_iff.mp counted
    rfl
  | cons s rest ih =>
    cases s with
    | zeroFill array start stop =>
      cases numbers with
      | nil => simp [List.countP_cons, isZeroFill] at counted
      | cons n numbers =>
        have counted' : numbers.length = rest.countP isZeroFill := by
          simpa [List.countP_cons, isZeroFill] using counted
        simp [labelLines, ih counted']
    | label name => simp [labelLines, ih (by simpa [isZeroFill] using counted)]
    | _ => exact ih (by simpa [isZeroFill] using counted)

/-- Label lines are the labels of the program and those of the loops. -/
theorem labelLines_perm {stmts : List Stmt} {numbers : List Nat}
    (counted : numbers.length = stmts.countP isZeroFill) :
    (labelLines stmts numbers).Perm
      (stmts.filterMap definedLabel? ++ numbers.flatMap loopLabels) := by
  induction stmts generalizing numbers with
  | nil =>
    obtain rfl : numbers = [] := List.length_eq_zero_iff.mp counted
    exact .refl _
  | cons s rest ih =>
    cases s with
    | zeroFill array start stop =>
      cases numbers with
      | nil => simp [List.countP_cons, isZeroFill] at counted
      | cons n numbers =>
        have counted' : numbers.length = rest.countP isZeroFill := by
          simpa [List.countP_cons, isZeroFill] using counted
        have later := ih counted'
        rw [List.flatMap_cons]
        exact (later.append_left (loopLabels n)).trans (List.perm_append_comm_assoc _ _ _)
    | label name => exact (ih (by simpa [isZeroFill] using counted)).cons name
    | _ => exact ih (by simpa [isZeroFill] using counted)

end Stmt

/-! ## The account of labels -/

namespace LabelTable

variable {labels : List String}

theorem nodup_insert (once : labels.Nodup) (l : String) : (insert labels l).Nodup := by
  unfold insert
  split
  · exact once
  next absent =>
    have absent : l ∉ labels := by simpa using absent
    exact List.nodup_append_comm.mp (List.nodup_cons.mpr ⟨absent, once⟩)

theorem mem_insert? {l : String} {label? : Option String} :
    l ∈ label?.elim labels (insert labels) ↔ l ∈ labels ∨ label? = some l := by
  cases label? with
  | none => simp
  | some label => simp [eq_comm]

theorem nodup_insert? (once : labels.Nodup) (label? : Option String) :
    (label?.elim labels (insert labels)).Nodup := by
  cases label? with
  | none => exact once
  | some label => exact nodup_insert once label

theorem counter_setCounter (t : LabelTable) (stem : String) (number : Nat) :
    (t.setCounter stem number).counter stem = number := by
  simp [counter, setCounter]

end LabelTable

/-- What the statements `done` have made of the labels, in a program that names the labels `named`.  The
    loops among them have got the numbers `numbers`. -/
structure Ledger.Accounts (g : Ledger) (named : List String) (done : List Stmt) (numbers : List Nat) :
    Prop where
  placed : g.placed = Stmt.labelLines done numbers
  counted : numbers.length = done.countP Stmt.isZeroFill
  ascending : numbers.Pairwise (· < ·)
  below : ∀ n ∈ numbers, n < g.labels.counter "arr_pad"
  reserved : ∀ l ∈ named, l ∈ g.labels.reserved
  fresh : ∀ l ∈ numbers.flatMap loopLabels, l ∉ named
  defined : ∀ l, l ∈ g.labels.defined ↔
    l ∈ done.filterMap Stmt.definedLabel? ∨ l ∈ numbers.flatMap loopLabels
  used : ∀ l, l ∈ g.labels.referenced ↔
    l ∈ done.filterMap Stmt.usedLabel? ∨ l ∈ numbers.flatMap loopLabels
  definedOnce : g.labels.defined.Nodup
  usedOnce : g.labels.referenced.Nodup

namespace Ledger.Accounts

variable {g : Ledger} {named : List String} {done : List Stmt} {numbers : List Nat}

/-- A statement other than a fill defines a label, uses one, or does neither. -/
theorem plain (accounts : g.Accounts named done numbers) {s : Stmt} (noFill : s.isZeroFill = false) :
    (g.after s).Accounts named (done ++ [s]) numbers := by
  have labels : (g.after s).labels = { g.labels with
      defined := s.definedLabel?.elim g.labels.defined (LabelTable.insert g.labels.defined)
      referenced := s.usedLabel?.elim g.labels.referenced (LabelTable.insert g.labels.referenced) } := by
    rw [labels_after]
    cases s with
    | zeroFill array start stop => cases noFill
    | _ => rfl
  have placed : (g.after s).placed = g.placed ++ Stmt.labelLines [s] [] := by
    rw [placed_after]
    cases s with
    | zeroFill array start stop => cases noFill
    | label name => rfl
    | _ => exact (List.append_nil _).symm
  constructor
  case placed =>
    rw [placed, accounts.placed, ← Stmt.labelLines_append accounts.counted, List.append_nil]
  case counted => simpa [noFill] using accounts.counted
  case ascending => exact accounts.ascending
  case below =>
    rw [labels]
    exact accounts.below
  case reserved => simpa [labels] using accounts.reserved
  case fresh => exact accounts.fresh
  case defined =>
    intro l
    simp only [labels, LabelTable.mem_insert?, accounts.defined]
    simp [List.filterMap_append, or_right_comm]
  case used =>
    intro l
    simp only [labels, LabelTable.mem_insert?, accounts.used]
    simp [List.filterMap_append, or_right_comm]
  case definedOnce => simpa [labels] using LabelTable.nodup_insert? accounts.definedOnce _
  case usedOnce => simpa [labels] using LabelTable.nodup_insert? accounts.usedOnce _

/-- A fill takes the labels of the next free number. -/
theorem fill (accounts : g.Accounts named done numbers) (array start stop : String) :
    (g.after (.zeroFill array start stop)).Accounts named (done ++ [.zeroFill array start stop])
      (numbers ++ [g.labels.nextFree "arr_pad" ["", "_end"]]) := by
  let n := g.labels.nextFree "arr_pad" ["", "_end"]
  -- The next free number is higher than all before it, and its labels are taken by nothing else.
  have free : ∀ l ∈ loopLabels n, l ∉ g.labels.taken := g.labels.notMem_taken_of_loopLabels
  have later : ∀ m ∈ numbers, m < n := fun m member =>
    Nat.lt_of_lt_of_le (accounts.below m member) (LabelTable.le_firstFrom _ _ _)
  have members : ∀ (labels : List String) (l : String),
      l ∈ LabelTable.insert (LabelTable.insert labels (LabelTable.numbered "arr_pad" n))
        (LabelTable.numbered "arr_pad" n ++ "_end") ↔ l ∈ labels ∨ l ∈ loopLabels n := by
    intro labels l
    simp [loopLabels, or_assoc]
  constructor
  case placed =>
    have placed : (g.after (.zeroFill array start stop)).placed = g.placed ++ loopLabels n := by
      simp [after, record, loop, place, use, LabelTable.generate, Stmt.entry?, loopLabels, n]
    rw [placed, accounts.placed, Stmt.labelLines_append accounts.counted]
    rfl
  case counted => simpa [Stmt.isZeroFill] using accounts.counted
  case ascending => exact List.pairwise_append.mpr ⟨accounts.ascending, by simp, by simpa using later⟩
  case below =>
    show ∀ m ∈ _, m < (g.labels.setCounter "arr_pad" (n + 1)).counter "arr_pad"
    rw [LabelTable.counter_setCounter]
    intro m member
    rcases List.mem_append.mp member with old | new
    · exact (later m old).trans (Nat.lt_succ_self n)
    · rw [List.mem_singleton.mp new]
      exact Nat.lt_succ_self n
  case reserved => exact accounts.reserved
  case fresh =>
    intro l member isNamed
    rw [List.flatMap_append, List.flatMap_singleton] at member
    rcases List.mem_append.mp member with old | new
    · exact accounts.fresh l old isNamed
    · exact free l new (List.mem_append_right _ (accounts.reserved l isNamed))
  case defined =>
    intro l
    refine (members g.labels.defined l).trans ?_
    rw [accounts.defined]
    simp [List.filterMap_append, Stmt.definedLabel?, or_assoc, n]
  case used =>
    intro l
    refine (members g.labels.referenced l).trans ?_
    rw [accounts.used]
    simp [List.filterMap_append, Stmt.usedLabel?, or_assoc, n]
  case definedOnce => exact LabelTable.nodup_insert (LabelTable.nodup_insert accounts.definedOnce _) _
  case usedOnce => exact LabelTable.nodup_insert (LabelTable.nodup_insert accounts.usedOnce _) _

theorem foldl (accounts : g.Accounts named done numbers) (rest : List Stmt) :
    ∃ more, (rest.foldl after g).Accounts named (done ++ rest) more := by
  induction rest generalizing g done numbers with
  | nil => exact ⟨numbers, by simpa using accounts⟩
  | cons s rest ih =>
    have step : ∃ next, (g.after s).Accounts named (done ++ [s]) next := by
      cases kind : s.isZeroFill with
      | false => exact ⟨numbers, accounts.plain kind⟩
      | true =>
        cases s with
        | zeroFill array start stop => exact ⟨_, accounts.fill array start stop⟩
        | _ => cases kind
    obtain ⟨next, step⟩ := step
    obtain ⟨more, all⟩ := ih step
    exact ⟨more, by simpa using all⟩

/-! ### What an account tells -/

theorem undefined_iff (accounts : g.Accounts named done numbers)
    (own : ∀ s ∈ done, ∀ l, s.namedLabel? = some l → l ∈ named) (l : String) :
    l ∈ g.labels.undefined ↔
      l ∈ done.filterMap Stmt.usedLabel? ∧ l ∉ done.filterMap Stmt.definedLabel? := by
  rw [LabelTable.mem_undefined, accounts.used, accounts.defined]
  constructor
  · rintro ⟨used | looped, undefined⟩
    · exact ⟨used, fun defined => undefined (.inl defined)⟩
    · exact absurd (.inr looped) undefined
  · rintro ⟨used, undefined⟩
    refine ⟨.inl used, ?_⟩
    rintro (defined | looped)
    · exact undefined defined
    · obtain ⟨s, member, uses⟩ := List.mem_filterMap.mp used
      exact accounts.fresh l looped (own s member l (Stmt.namedLabel?_iff.mpr (.inr uses)))

theorem undefined_ascending (accounts : g.Accounts named done numbers) :
    g.labels.undefined.Pairwise (· < ·) := by
  have once : g.labels.undefined.Nodup :=
    (Text.sorted_perm _).nodup_iff.mpr (accounts.usedOnce.filter _)
  have sorted : g.labels.undefined.Pairwise (· ≤ ·) := Text.pairwise_sorted _
  exact (sorted.and once).imp fun ⟨le, ne⟩ => Std.lt_of_le_of_ne le ne

theorem length_all (accounts : g.Accounts named done numbers)
    (own : ∀ s ∈ done, ∀ l, s.namedLabel? = some l → l ∈ named) :
    g.labels.all.length =
      (done.filterMap Stmt.definedLabel? ++ done.filterMap Stmt.usedLabel?).toFinset.card +
        2 * done.countP Stmt.isZeroFill := by
  have once : g.labels.all.Nodup := by
    rw [LabelTable.all, (Text.sorted_perm _).nodup_iff]
    refine accounts.definedOnce.append (accounts.usedOnce.filter _) ?_
    intro l defined undefined
    simp [LabelTable.isDefined, defined] at undefined
  have union : g.labels.all.toFinset =
      (done.filterMap Stmt.definedLabel? ++ done.filterMap Stmt.usedLabel?).toFinset ∪
        (numbers.flatMap loopLabels).toFinset := by
    ext l
    have member : l ∈ g.labels.all ↔ l ∈ g.labels.defined ∨ l ∈ g.labels.referenced := by
      simp only [LabelTable.all, Text.mem_sorted, List.mem_append, List.mem_filter,
        LabelTable.isDefined]
      by_cases defined : l ∈ g.labels.defined <;> simp [defined]
    rw [List.mem_toFinset, member, accounts.defined, accounts.used]
    simp only [Finset.mem_union, List.mem_toFinset, List.mem_append]
    tauto
  -- Labels of loops are fresh, so no statement names one of them.
  have apart : Disjoint
      (done.filterMap Stmt.definedLabel? ++ done.filterMap Stmt.usedLabel?).toFinset
      (numbers.flatMap loopLabels).toFinset := by
    rw [Finset.disjoint_left]
    intro l isOwn looped
    rw [List.mem_toFinset] at isOwn looped
    have mentioned : ∃ s ∈ done, s.namedLabel? = some l := by
      rcases List.mem_append.mp isOwn with defined | used
      · obtain ⟨s, member, defines⟩ := List.mem_filterMap.mp defined
        exact ⟨s, member, Stmt.namedLabel?_iff.mpr (.inl defines)⟩
      · obtain ⟨s, member, uses⟩ := List.mem_filterMap.mp used
        exact ⟨s, member, Stmt.namedLabel?_iff.mpr (.inr uses)⟩
    obtain ⟨s, member, names⟩ := mentioned
    exact accounts.fresh l looped (own s member l names)
  calc g.labels.all.length
      = g.labels.all.toFinset.card := (List.toFinset_card_of_nodup once).symm
    _ = _ + (numbers.flatMap loopLabels).toFinset.card := by
        rw [union, Finset.card_union_of_disjoint apart]
    _ = _ + 2 * done.countP Stmt.isZeroFill := by
        rw [List.toFinset_card_of_nodup (nodup_loopLabels accounts.ascending), length_loopLabels,
          accounts.counted]

end Ledger.Accounts

/-! ## Programs -/

theorem LabelTable.mem_reserved_foldl {l : String} {labels : List String} {t : LabelTable} :
    l ∈ (labels.foldl reserve t).reserved ↔ l ∈ t.reserved ∨ l ∈ labels := by
  induction labels generalizing t with
  | nil => simp
  | cons label rest ih => simp [ih, reserve, or_assoc]

theorem accounts_ready (config : Config) (program : Program) :
    (Pass.ready config program).ledger.Accounts (program.filterMap (·.stmt.namedLabel?)) [] [] := by
  have reserving := LabelTable.foldl_reserve (program.filterMap (·.stmt.namedLabel?)) .empty
  have undefined : (Pass.ready config program).labels.defined = [] := reserving.1
  have unused : (Pass.ready config program).labels.referenced = [] := reserving.2
  constructor
  case placed => rfl
  case counted => rfl
  case ascending => exact .nil
  case below => simp
  case reserved =>
    intro l member
    exact LabelTable.mem_reserved_foldl.mpr (.inr member)
  case fresh => simp
  case defined => simp [Pass.ledger, undefined]
  case used => simp [Pass.ledger, unused]
  case definedOnce => simp [Pass.ledger, undefined]
  case usedOnce => simp [Pass.ledger, unused]

theorem accounts_lines {config : Config} {program : Program} {q : Pass}
    (ran : (Lower.lines program).run (Pass.ready config program) = .ok () q) :
    ∃ numbers, q.ledger.Accounts (program.filterMap (·.stmt.namedLabel?)) (program.map Line.stmt)
      numbers := by
  rw [(Lower.ledger_lines ran (Pass.ready_opens config program)).1]
  exact (accounts_ready config program).foldl (program.map Line.stmt)

theorem accounts_lowerProgram {config : Config} {program : Program}
    (sound : ∀ step ∈ (traceProgram config program).1, step.fault = none) :
    ∃ numbers, (lowerProgram config program).2.ledger.Accounts
      (program.filterMap (·.stmt.namedLabel?)) (program.map Line.stmt) numbers := by
  obtain ⟨q, ran⟩ := run_lines_of_trace sound
  rw [ledger_lowerProgram ran]
  exact (accounts_ready config program).foldl (program.map Line.stmt)

theorem mem_named (program : Program) : ∀ s ∈ program.map Line.stmt, ∀ l, s.namedLabel? = some l →
    l ∈ program.filterMap (·.stmt.namedLabel?) := by
  intro s member l names
  obtain ⟨line, inProgram, rfl⟩ := List.mem_map.mp member
  exact List.mem_filterMap.mpr ⟨line, inProgram, names⟩

/-- The label lines of a program are those that it has itself and, for every fill, two that are new in the
    whole program. -/
theorem lowerProgram_labels_fresh (config : Config) (program : Program)
    (sound : ∀ step ∈ (traceProgram config program).1, step.fault = none) :
    let lines := (lowerProgram config program).2.text.filterMap Node.label?
    ∃ numbers : List Nat,
      lines = Stmt.labelLines (program.map Line.stmt) numbers ∧
      numbers.length = (program.map Line.stmt).countP Stmt.isZeroFill ∧
      (numbers.flatMap loopLabels).Nodup ∧
      (∀ label ∈ numbers.flatMap loopLabels, ∀ l ∈ program, l.stmt.namedLabel? ≠ some label) ∧
      ((program.filterMap (·.stmt.definedLabel?)).Nodup → lines.Nodup) := by
  intro lines
  obtain ⟨numbers, accounts⟩ := accounts_lowerProgram sound
  have new : (numbers.flatMap loopLabels).Nodup := nodup_loopLabels accounts.ascending
  refine ⟨numbers, accounts.placed, accounts.counted, new, ?_, ?_⟩
  · intro label looped l member names
    exact accounts.fresh label looped (List.mem_filterMap.mpr ⟨l, member, names⟩)
  · intro once
    have ownOnce : ((program.map Line.stmt).filterMap Stmt.definedLabel?).Nodup := by
      rw [List.filterMap_map]
      exact once
    have apart : ((program.map Line.stmt).filterMap Stmt.definedLabel?).Disjoint
        (numbers.flatMap loopLabels) := by
      intro label own looped
      obtain ⟨s, member, defines⟩ := List.mem_filterMap.mp own
      exact accounts.fresh label looped
        (mem_named program s member label (Stmt.namedLabel?_iff.mpr (.inl defines)))
    have parts := (Stmt.labelLines_perm accounts.counted).nodup_iff.mpr (ownOnce.append new apart)
    rw [← accounts.placed] at parts
    exact parts

/-- Two fills in a program that has the label of a loop's end, and jumps to the label of a loop. -/
def padsTwice : Program :=
  Program.ofStmts
    [.declareArray "a" 4 (some "int") false,
      .zeroFill "a" "0" "2",
      .label "arr_pad_0_end",
      .branch "i" "arr_pad_2" none none,
      .zeroFill "a" "2" "4",
      .goto "arr_pad_0_end"]

theorem padsTwice_labels_fresh :
    (∀ step ∈ (traceProgram (Config.standard false) padsTwice).1, step.fault = none) ∧
    ((lowerProgram (Config.standard false) padsTwice).2.text.filterMap Node.label?).Nodup ∧
    (lowerProgram (Config.standard false) padsTwice).2.text.filterMap Node.label? =
      ["arr_pad_1", "arr_pad_1_end", "arr_pad_0_end", "arr_pad_3", "arr_pad_3_end"] := by
  have sound : ∀ step ∈ (traceProgram (Config.standard false) padsTwice).1, step.fault = none := by
    decide +kernel
  obtain ⟨numbers, _, _, _, _, once⟩ := lowerProgram_labels_fresh _ padsTwice sound
  exact ⟨sound, once (by decide +kernel), by decide +kernel⟩

/-- The labels that are missing behind a pass are those that the program uses and does not define.  All
    labels that it names are counted, and two for every fill. -/
theorem lowerProgram_labels_counted (config : Config) (program : Program)
    (sound : ∀ step ∈ (traceProgram config program).1, step.fault = none) :
    let p := (lowerProgram config program).2
    let defined := program.filterMap (·.stmt.definedLabel?)
    let used := program.filterMap (·.stmt.usedLabel?)
    p.labels.undefined.Pairwise (· < ·) ∧
      (∀ label, label ∈ p.labels.undefined ↔ label ∈ used ∧ label ∉ defined) ∧
      p.statistics.labels =
        (used ++ defined).toFinset.card + 2 * (program.map Line.stmt).countP Stmt.isZeroFill := by
  intro p defined used
  obtain ⟨numbers, accounts⟩ := accounts_lowerProgram sound
  have definedEq : (program.map Line.stmt).filterMap Stmt.definedLabel? = defined := List.filterMap_map
  have usedEq : (program.map Line.stmt).filterMap Stmt.usedLabel? = used := List.filterMap_map
  refine ⟨accounts.undefined_ascending, fun label => ?_, ?_⟩
  · rw [← definedEq, ← usedEq]
    exact accounts.undefined_iff (mem_named program) label
  · rw [← definedEq, ← usedEq, List.toFinset_append, Finset.union_comm, ← List.toFinset_append]
    exact accounts.length_all (mem_named program)

theorem padsTwice_labels_counted :
    (∀ step ∈ (traceProgram (Config.standard true) padsTwice).1, step.fault = none) ∧
    (lowerProgram (Config.standard true) padsTwice).2.labels.undefined = ["arr_pad_2"] ∧
    (lowerProgram (Config.standard true) padsTwice).2.statistics.labels = 6 := by
  have sound : ∀ step ∈ (traceProgram (Config.standard true) padsTwice).1, step.fault = none := by
    decide +kernel
  obtain ⟨_, _, counted⟩ := lowerProgram_labels_counted _ padsTwice sound
  exact ⟨sound, by decide +kernel, counted.trans (by decide +kernel)⟩

end MipsLowering
