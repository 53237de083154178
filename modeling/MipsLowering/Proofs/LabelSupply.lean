import Mathlib.Order.Bounds.Defs
import MipsLowering.Proofs.Labels

/-! # The supply of numbered labels

A table of labels hands out numbered labels between definitions, uses and reservations.  The search for a number
has no bound of its own: it goes up from the next number of the stem until no label made from a number is taken.
It ends because taken labels are finite in number, although one of them can stand in the way of several numbers
(`L_10` is `L_10`, and it is `L_1` with the suffix `0`).

Numbers of one stem ascend.  Labels with different stems differ because a number holds no underscore, so the last
underscore of a label tells its stem.  No label is handed out twice in a run (`run_supplies`). -/

namespace MipsLowering

namespace LabelTable

/-! ## The search -/

/-- A search that goes up from a number ends at another, the first with a property.  A search that never ends is at
    no number. -/
inductive SearchEnds (p : Nat → Bool) : Nat → Nat → Prop where
  | found {n : Nat} (holds : p n = true) : SearchEnds p n n
  | pass {n m : Nat} (fails : p n = false) (ends : SearchEnds p (n + 1) m) : SearchEnds p n m

theorem SearchEnds.isLeast {p : Nat → Bool} {n m : Nat} (ends : SearchEnds p n m) :
    IsLeast {k | n ≤ k ∧ p k = true} m := by
  induction ends with
  | found holds => exact ⟨⟨Nat.le_refl _, holds⟩, fun k member => member.1⟩
  | @pass n m fails ends ih =>
    obtain ⟨⟨above, holds⟩, lowest⟩ := ih
    refine ⟨⟨Nat.le_of_succ_le above, holds⟩, fun k ⟨upward, holds'⟩ => lowest ⟨?_, holds'⟩⟩
    have other : n ≠ k := by
      rintro rfl
      rw [fails] at holds'
      cases holds'
    omega

theorem searchEnds_firstFrom {p : Nat → Bool} {bound n : Nat} (holds : p (firstFrom p bound n) = true) :
    SearchEnds p n (firstFrom p bound n) := by
  induction bound generalizing n with
  | zero => exact .found holds
  | succ bound ih =>
    simp only [firstFrom] at holds ⊢
    split at holds
    next here =>
      rw [if_pos here]
      exact .found here
    next passed =>
      rw [if_neg passed]
      exact .pass (by simpa using passed) (ih holds)

theorem firstFrom_le (p : Nat → Bool) (bound n : Nat) : firstFrom p bound n ≤ n + bound := by
  induction bound generalizing n with
  | zero => exact Nat.le_refl _
  | succ bound ih =>
    simp only [firstFrom]
    split
    · omega
    · have := ih (n + 1)
      omega

/-! ## One label -/

/-- A label with number `n` is handed out by a table, which is `later` from then on. -/
structure Supplies (t : LabelTable) (stem : String) (suffixes : List String) (n : Nat) (label : String)
    (later : LabelTable) : Prop where
  ends : SearchEnds (t.isFree stem suffixes) (t.counter stem) n
  /-- Each number that is passed over puts a suffix on a taken label, and no two numbers the same on the same. -/
  bounded : n ≤ t.counter stem + t.taken.length * suffixes.length
  least : IsLeast {k | t.counter stem ≤ k ∧ ∀ suffix ∈ suffixes, numbered stem k ++ suffix ∉ t.taken} n
  label : label = numbered stem n
  counter : later.counter stem = n + 1
  otherCounters : ∀ other, other ≠ stem → later.counter other = t.counter other
  labels : later.defined = t.defined ∧ later.referenced = t.referenced ∧ later.reserved = t.reserved

theorem counter_setCounter_of_ne {stem other : String} (differs : other ≠ stem) (t : LabelTable) (number : Nat) :
    (t.setCounter stem number).counter other = t.counter other := by
  have kept : ∀ counters : List (String × Nat),
      (counters.filter (·.1 != stem)).lookup other = counters.lookup other := by
    intro counters
    induction counters with
    | nil => rfl
    | cons entry rest ih =>
      obtain ⟨key, value⟩ := entry
      by_cases same : key = stem
      · have apart : (other == key) = false := by simpa [same] using differs
        rw [List.filter_cons_of_neg (by simp [same]), ih, List.lookup_cons, apart]
      · rw [List.filter_cons_of_pos (by simpa using same), List.lookup_cons, List.lookup_cons, ih]
  have apart : (other == stem) = false := by simpa using differs
  rw [counter, setCounter, List.lookup_cons, apart, kept, ← counter]

theorem supplies_generate (t : LabelTable) (stem : String) (suffixes : List String) :
    t.Supplies stem suffixes (t.nextFree stem suffixes) (t.generate stem suffixes).1
      (t.generate stem suffixes).2 := by
  have ends : SearchEnds (t.isFree stem suffixes) (t.counter stem) (t.nextFree stem suffixes) :=
    searchEnds_firstFrom (t.isFree_nextFree stem suffixes)
  constructor
  case ends => exact ends
  case bounded =>
    have size : t.taken.length * suffixes.length = t.takenBound suffixes := by
      simp [taken, takenBound, Nat.add_assoc]
    rw [size]
    exact firstFrom_le _ _ _
  case least => simpa only [isFree_iff] using ends.isLeast
  case label => rfl
  case counter => exact counter_setCounter _ _ _
  case otherCounters => exact fun other differs => counter_setCounter_of_ne differs _ _
  case labels => exact ⟨rfl, rfl, rfl⟩

theorem Supplies.counter_le {t later : LabelTable} {stem label : String} {suffixes : List String} {n : Nat}
    (supplies : t.Supplies stem suffixes n label later) (other : String) : t.counter other ≤ later.counter other := by
  by_cases same : other = stem
  · rw [same, supplies.counter]
    exact Nat.le_succ_of_le supplies.least.1.1
  · rw [supplies.otherCounters other same]

/-- The last underscore of a label stands right behind its stem, as a number is made of digits. -/
theorem stem_eq_of_numbered_eq {stem stem' : String} {m n : Nat} (same : numbered stem m = numbered stem' n) :
    stem = stem' := by
  have cut : ∀ (stem : String) (n : Nat),
      (numbered stem n).toList.reverse.dropWhile (· != '_') = '_' :: stem.toList.reverse := by
    intro stem n
    have digits : ∀ c ∈ (Nat.toDigits 10 n).reverse, (c != '_') = true := by
      intro c member
      have digit := Nat.isDigit_of_mem_toDigits (by decide) (by decide) (List.mem_reverse.mp member)
      rw [bne_iff_ne]
      rintro rfl
      cases digit
    have spelled : (numbered stem n).toList.reverse =
        (Nat.toDigits 10 n).reverse ++ '_' :: stem.toList.reverse := by
      simp [numbered]
    rw [spelled, List.dropWhile_append_of_pos digits]
    rfl
  have reversed : '_' :: stem.toList.reverse = '_' :: stem'.toList.reverse := by
    rw [← cut stem m, same, cut stem' n]
  exact String.toList_injective (List.reverse_injective (List.cons.inj reversed).2)

/-! ## Runs -/

/-- What can be done with a table of labels. -/
inductive Action where
  | define (label : String)
  | reference (label : String)
  | reserve (label : String)
  | generate (stem : String) (suffixes : List String)
  deriving Repr, DecidableEq

/-- The table behind an action. -/
def act (t : LabelTable) : Action → LabelTable
  | .define label => t.define label
  | .reference label => t.reference label
  | .reserve label => t.reserve label
  | .generate stem suffixes => (t.generate stem suffixes).2

/-- The label that an action hands out. -/
def handedOut? (t : LabelTable) : Action → Option String
  | .generate stem suffixes => some (t.generate stem suffixes).1
  | _ => none

/-- The table behind actions. -/
def run (t : LabelTable) (actions : List Action) : LabelTable :=
  actions.foldl act t

/-- The labels that actions hand out, in order. -/
def handedOut (t : LabelTable) : List Action → List String
  | [] => []
  | action :: rest => (t.handedOut? action).toList ++ (t.act action).handedOut rest

theorem counter_le_act (t : LabelTable) (action : Action) (stem : String) :
    t.counter stem ≤ (t.act action).counter stem := by
  cases action with
  | define | reference | reserve => exact Nat.le_refl _
  | generate stem' suffixes => exact (t.supplies_generate stem' suffixes).counter_le stem

/-- A label that is handed out has a number that its stem has not passed yet. -/
theorem exists_of_mem_handedOut {t : LabelTable} {actions : List Action} {label : String}
    (member : label ∈ t.handedOut actions) : ∃ stem n, label = numbered stem n ∧ t.counter stem ≤ n := by
  induction actions generalizing t with
  | nil => cases member
  | cons action rest ih =>
    rcases List.mem_append.mp member with now | later
    · cases action with
      | define | reference | reserve => cases now
      | generate stem suffixes =>
        obtain rfl := List.mem_singleton.mp now
        exact ⟨stem, _, rfl, (t.supplies_generate stem suffixes).least.1.1⟩
    · obtain ⟨stem, n, spelled, above⟩ := ih later
      exact ⟨stem, n, spelled, (t.counter_le_act action stem).trans above⟩

theorem nodup_handedOut (t : LabelTable) (actions : List Action) : (t.handedOut actions).Nodup := by
  induction actions generalizing t with
  | nil => exact List.nodup_nil
  | cons action rest ih =>
    cases action with
    | define | reference | reserve => exact ih _
    | generate stem suffixes =>
      have supplies := t.supplies_generate stem suffixes
      refine List.nodup_cons.mpr ⟨fun again => ?_, ih _⟩
      -- A later label with the same stem has a number above this one.
      obtain ⟨stem', n, same, above⟩ := exists_of_mem_handedOut again
      obtain rfl := stem_eq_of_numbered_eq same
      obtain rfl := numbered_inj same
      have passed := supplies.counter
      change (t.generate stem suffixes).2.counter stem ≤ _ at above
      omega

/-- The labels of a table behind actions are those that it had and those that the actions define, use or reserve. -/
structure Records (t : LabelTable) (actions : List Action) (later : LabelTable) : Prop where
  defined : ∀ label, label ∈ later.defined ↔ label ∈ t.defined ∨ .define label ∈ actions
  referenced : ∀ label, label ∈ later.referenced ↔ label ∈ t.referenced ∨ .reference label ∈ actions
  reserved : ∀ label, label ∈ later.reserved ↔ label ∈ t.reserved ∨ .reserve label ∈ actions
  taken : ∀ label, later.isTaken label = true ↔ t.isTaken label = true ∨
    .define label ∈ actions ∨ .reference label ∈ actions ∨ .reserve label ∈ actions

theorem records_of_sets {t later : LabelTable} {actions : List Action}
    (defined : ∀ label, label ∈ later.defined ↔ label ∈ t.defined ∨ .define label ∈ actions)
    (referenced : ∀ label, label ∈ later.referenced ↔ label ∈ t.referenced ∨ .reference label ∈ actions)
    (reserved : ∀ label, label ∈ later.reserved ↔ label ∈ t.reserved ∨ .reserve label ∈ actions) :
    t.Records actions later := by
  refine ⟨defined, referenced, reserved, fun label => ?_⟩
  simp only [isTaken, isDefined, isReferenced, List.contains_eq_mem, Bool.or_eq_true, decide_eq_true_eq, defined,
    referenced, reserved]
  tauto

theorem records_act (t : LabelTable) (action : Action) : t.Records [action] (t.act action) := by
  apply records_of_sets
  all_goals
    intro label
    cases action <;> simp [act, define, reference, reserve, generate, setCounter]

theorem Records.trans {t middle later : LabelTable} {first second : List Action} (before : t.Records first middle)
    (after : middle.Records second later) : t.Records (first ++ second) later := by
  apply records_of_sets
  · simp only [after.defined, before.defined, List.mem_append, or_assoc, implies_true]
  · simp only [after.referenced, before.referenced, List.mem_append, or_assoc, implies_true]
  · simp only [after.reserved, before.reserved, List.mem_append, or_assoc, implies_true]

theorem records_run (t : LabelTable) (actions : List Action) : t.Records actions (t.run actions) := by
  induction actions generalizing t with
  | nil => exact records_of_sets (by simp [run]) (by simp [run]) (by simp [run])
  | cons action rest ih => exact (t.records_act action).trans (ih (t.act action))

/-- Whatever was defined, used, reserved and handed out before, the search for the number of a label ends, at the
    least number from which on no label with one of the suffixes is taken; nothing but the counter of the stem
    changes.  Taken are the labels that were taken at first and those that the run has defined, used or reserved.
    The labels that a run hands out are all different. -/
theorem run_supplies (t : LabelTable) (actions : List Action) :
    (t.handedOut actions).Nodup ∧ t.Records actions (t.run actions) ∧
    ∀ stem suffixes, ∃ n, (t.run actions).Supplies stem suffixes n ((t.run actions).generate stem suffixes).1
      ((t.run actions).generate stem suffixes).2 :=
  ⟨t.nodup_handedOut actions, t.records_run actions,
    fun stem suffixes => ⟨_, (t.run actions).supplies_generate stem suffixes⟩⟩

/-- The label `L_10` stands in the way of the numbers 1 and 10, and of no number of the stem `L_1`. -/
example :
    empty.handedOut [.define "L_10", .generate "L" ["", "0"], .generate "L_1" [], .generate "L" ["", "0"],
      .generate "L_1" ["_0", ""]] = ["L_0", "L_1_0", "L_2", "L_1_1"] := by
  decide +kernel

end LabelTable

end MipsLowering
