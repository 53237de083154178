import Mathlib.Data.List.Induction
import Mathlib.Data.Nat.Find
import Mathlib.Order.Bounds.Basic
import MipsLowering.Proofs.FrontEnds
import MipsLowering.Proofs.Tokens

/-! # The sign of an assignment

A line is searched for its sign of assignment by a scan that knows whether it is between quotes.  Here the quoted
segments of a text are told without the scan: a segment is opened by a quote outside of all others, and goes on to
the next quote of its kind that no backslash hides, or to the end of the text (`Segment`).

* What the scan knows behind a front of the text is where the segments lie (`Reached`).
* A sign outside of all segments is a sign that the scan comes to outside of quotes (`isSign_iff_seesSign`).
* The search finds the first of these (`findAssignment_first`).  On a line that puts a target before the sign,
  nothing that comes behind it matters. -/

namespace MipsLowering

namespace Lexeme

/-! ## Quoted segments -/

/-- A quote opens a segment of text. -/
def IsQuote (c : Char) : Prop :=
  c = '\'' ∨ c = '"'

/-- The text between two quotes: a backslash hides the character behind it, whatever it is. -/
inductive Body (quote : Char) : List Char → Prop where
  | nil : Body quote []
  | char {body : List Char} {c : Char} (text : Body quote body) (other : c ≠ quote) (plain : c ≠ '\\') :
      Body quote (body ++ [c])
  | escape {body : List Char} (text : Body quote body) (c : Char) : Body quote (body ++ ['\\', c])

/-- A text that ends outside of quotes: all segments that it opens it closes. -/
inductive Closed : List Char → Prop where
  | nil : Closed []
  | char {front : List Char} {c : Char} (outside : Closed front) (plain : ¬ IsQuote c) : Closed (front ++ [c])
  | segment {front body : List Char} {quote : Char} (outside : Closed front) (opens : IsQuote quote)
      (text : Body quote body) : Closed (front ++ quote :: (body ++ [quote]))

/-- A quoted segment from one place up to another: a quote outside of the segments before it opens it.  It ends with
    the same quote, or with the text if there is none, where the last backslash may hide nothing. -/
inductive Segment (cs : List Char) : Nat → Nat → Prop where
  | closed {front body back : List Char} {quote : Char} (whole : cs = front ++ quote :: (body ++ quote :: back))
      (outside : Closed front) (opens : IsQuote quote) (text : Body quote body) :
      Segment cs front.length (front.length + body.length + 2)
  | unclosed {front body last : List Char} {quote : Char} (whole : cs = front ++ quote :: (body ++ last))
      (outside : Closed front) (opens : IsQuote quote) (text : Body quote body) (ends : last = [] ∨ last = ['\\']) :
      Segment cs front.length cs.length

/-- An equals sign outside of quotes that is not part of a comparison. -/
structure IsSign (cs : List Char) (p : Nat) : Prop where
  sign : cs[p]? = some '='
  outside : ∀ start stop, Segment cs start stop → ¬ (start ≤ p ∧ p < stop)
  before : ∀ q, q + 1 = p → ∀ c ∈ ['=', '!', '<', '>'], cs[q]? ≠ some c
  behind : cs[p + 1]? ≠ some '='

/-! ## What the scan knows -/

/-- The scan behind a text. -/
def Scan.after (cs : List Char) : Scan :=
  cs.foldl Scan.step .plain

@[simp] theorem Scan.after_concat (front : List Char) (c : Char) : after (front ++ [c]) = (after front).step c := by
  simp [after]

theorem IsQuote.step_plain {quote : Char} (opens : IsQuote quote) : Scan.plain.step quote = .inside quote := by
  rcases opens with rfl | rfl <;> rfl

theorem IsQuote.step_inside {quote : Char} (opens : IsQuote quote) : (Scan.inside quote).step quote = .plain := by
  rcases opens with rfl | rfl <;> rfl

theorem Body.step_inside {quote c : Char} (other : c ≠ quote) (plain : c ≠ '\\') :
    (Scan.inside quote).step c = .inside quote := by
  simp [Scan.step, other, plain]

theorem Body.foldl_step {quote : Char} {body : List Char} (text : Body quote body) :
    body.foldl Scan.step (.inside quote) = .inside quote := by
  induction text with
  | nil => rfl
  | char _ other plain ih => rw [List.foldl_concat, ih, step_inside other plain]
  | escape _ c ih =>
    rw [List.foldl_append, ih]
    rfl

theorem IsQuote.after_append {quote : Char} (opens : IsQuote quote) {front : List Char}
    (outside : Scan.after front = .plain) (text : List Char) :
    Scan.after (front ++ quote :: text) = text.foldl Scan.step (.inside quote) := by
  rw [Scan.after, List.foldl_append, ← Scan.after, outside, List.foldl_cons, opens.step_plain]

theorem after_of_closed {front : List Char} (closed : Closed front) : Scan.after front = .plain := by
  induction closed with
  | nil => rfl
  | char _ plain ih =>
    rw [IsQuote, not_or] at plain
    rw [Scan.after_concat, ih]
    simp [Scan.step, plain]
  | segment _ opens text ih =>
    rw [opens.after_append ih, List.foldl_concat, text.foldl_step, opens.step_inside]

/-- Where the segments of a text lie if it takes the scan to a state. -/
def Reached (front : List Char) : Scan → Prop
  | .plain => Closed front
  | .inside quote => ∃ outer body, front = outer ++ quote :: body ∧ Closed outer ∧ IsQuote quote ∧ Body quote body
  | .escaped quote =>
    ∃ outer body, front = outer ++ quote :: (body ++ ['\\']) ∧ Closed outer ∧ IsQuote quote ∧ Body quote body

theorem Reached.step {front : List Char} {scan : Scan} (reached : Reached front scan) (c : Char) :
    Reached (front ++ [c]) (scan.step c) := by
  cases scan with
  | plain =>
    by_cases opens : IsQuote c
    · rw [opens.step_plain]
      exact ⟨front, [], rfl, reached, opens, .nil⟩
    · have stays : Scan.plain.step c = .plain := by
        rw [IsQuote, not_or] at opens
        simp [Scan.step, opens]
      rw [stays]
      exact .char reached opens
  | inside quote =>
    obtain ⟨outer, body, rfl, closed, opens, text⟩ := reached
    by_cases hides : c = '\\'
    · subst hides
      exact ⟨outer, body, by simp, closed, opens, text⟩
    · by_cases ends : c = quote
      · subst ends
        rw [opens.step_inside]
        simpa [Reached] using Closed.segment closed opens text
      · rw [Body.step_inside ends hides]
        exact ⟨outer, body ++ [c], by simp, closed, opens, .char text ends hides⟩
  | escaped quote =>
    obtain ⟨outer, body, rfl, closed, opens, text⟩ := reached
    exact ⟨outer, body ++ ['\\', c], by simp, closed, opens, .escape text c⟩

theorem reached_after (front : List Char) : Reached front (Scan.after front) := by
  induction front using List.reverseRecOn with
  | nil => exact Closed.nil
  | append_singleton front c ih =>
    rw [Scan.after_concat]
    exact ih.step c

/-! ## Signs outside of segments -/

/-- The scan stays between quotes over what stands between two quotes. -/
theorem Body.foldl_step_ne {quote : Char} {body front : List Char} (text : Body quote body) (start : front <+: body) :
    front.foldl Scan.step (.inside quote) ≠ .plain := by
  induction text with
  | nil =>
    rw [List.prefix_nil.mp start]
    simp
  | char text other plain ih =>
    rcases List.prefix_concat_iff.mp start with rfl | shorter
    · rw [(Body.char text other plain).foldl_step]
      simp
    · exact ih shorter
  | @escape body text c ih =>
    have split : body ++ ['\\', c] = (body ++ ['\\']) ++ [c] := by simp
    rw [split] at start
    rcases List.prefix_concat_iff.mp start with rfl | shorter
    · rw [← split, (Body.escape text c).foldl_step]
      simp
    · rcases List.prefix_concat_iff.mp shorter with rfl | shorter
      · rw [List.foldl_concat, text.foldl_step]
        simp [Scan.step]
      · exact ih shorter

/-- A segment that is open behind a part of its text goes on over the next place. -/
theorem exists_segment {cs front body last rest : List Char} {quote : Char} {p : Nat} (outside : Closed front)
    (opens : IsQuote quote) (text : Body quote body) (ends : last = [] ∨ last = ['\\'])
    (whole : cs = front ++ quote :: (body ++ (last ++ rest)))
    (near : p ≤ front.length + 1 + body.length + last.length) (within : p < cs.length) :
    ∃ stop, Segment cs front.length stop ∧ p < stop := by
  induction rest generalizing body last with
  | nil =>
    rw [List.append_nil] at whole
    exact ⟨_, .unclosed whole outside opens text ends, within⟩
  | cons c rest ih =>
    rcases ends with rfl | rfl
    · rw [List.nil_append] at whole
      by_cases closes : c = quote
      · subst closes
        refine ⟨_, .closed whole outside opens text, ?_⟩
        simp only [List.length_nil] at near
        omega
      · by_cases hides : c = '\\'
        · subst hides
          exact ih text (.inr rfl) whole (Nat.le_succ_of_le near)
        · refine ih (text.char closes hides) (.inl rfl) (by simp [whole]) ?_
          simp only [List.length_append, List.length_cons, List.length_nil] at near ⊢
          omega
    · refine ih (text.escape c) (.inl rfl) (by simp [whole]) ?_
      simp only [List.length_append, List.length_cons, List.length_nil] at near ⊢
      omega

theorem Segment.shape {cs : List Char} {start stop : Nat} (segment : Segment cs start stop) :
    ∃ front quote body rest, cs = front ++ quote :: (body ++ rest) ∧ Closed front ∧ IsQuote quote ∧
      Body quote body ∧ start = front.length ∧ stop ≤ front.length + 1 + body.length + 1 := by
  cases segment with
  | closed whole outside opens text => exact ⟨_, _, _, _, whole, outside, opens, text, rfl, by omega⟩
  | unclosed whole outside opens text ends =>
    refine ⟨_, _, _, _, whole, outside, opens, text, rfl, ?_⟩
    rcases ends with rfl | rfl
    all_goals
      rw [whole]
      simp only [List.length_append, List.length_cons, List.length_nil]
      omega

theorem after_of_outside {front back : List Char} {c : Char}
    (outside : ∀ start stop, Segment (front ++ c :: back) start stop →
      ¬ (start ≤ front.length ∧ front.length < stop)) : Scan.after front = .plain := by
  have within : front.length < (front ++ c :: back).length := by simp
  have never : ∀ {outer body last : List Char} {quote : Char}, front = outer ++ quote :: (body ++ last) →
      Closed outer → IsQuote quote → Body quote body → last = [] ∨ last = ['\\'] → False := by
    intro outer body last quote shape closed opens text ends
    have whole : front ++ c :: back = outer ++ quote :: (body ++ (last ++ c :: back)) := by simp [shape]
    have length : front.length = outer.length + 1 + body.length + last.length := by
      rw [shape]
      simp only [List.length_append, List.length_cons]
      omega
    obtain ⟨stop, segment, beyond⟩ := exists_segment closed opens text ends whole (Nat.le_of_eq length) within
    exact outside _ _ segment ⟨by omega, beyond⟩
  have reached := reached_after front
  cases scanned : Scan.after front with
  | plain => rfl
  | inside quote =>
    rw [scanned] at reached
    obtain ⟨outer, body, shape, closed, opens, text⟩ := reached
    exact (never (by rw [shape, List.append_nil]) closed opens text (.inl rfl)).elim
  | escaped quote =>
    rw [scanned] at reached
    obtain ⟨outer, body, shape, closed, opens, text⟩ := reached
    exact (never shape closed opens text (.inr rfl)).elim

theorem outside_of_after {front back : List Char} {c : Char} (plain : ¬ IsQuote c)
    (scanned : Scan.after front = .plain) (start stop : Nat) (segment : Segment (front ++ c :: back) start stop) :
    ¬ (start ≤ front.length ∧ front.length < stop) := by
  rintro ⟨low, high⟩
  obtain ⟨outer, quote, body, rest, whole, closed, opens, text, rfl, upper⟩ := segment.shape
  -- The front goes on behind the opening quote, so the character lies between the quotes.
  have begins : outer <+: front :=
    List.prefix_of_prefix_length_le ⟨_, whole.symm⟩ (List.prefix_append front (c :: back)) low
  obtain ⟨middle, rfl⟩ := begins
  rw [List.append_assoc, List.append_cancel_left_eq] at whole
  cases middle with
  | nil =>
    obtain rfl := (List.cons.inj whole).1
    exact plain opens
  | cons first inner =>
    obtain ⟨rfl, inside⟩ := List.cons.inj whole
    have short : inner.length ≤ body.length := by
      simp only [List.length_append, List.length_cons] at high
      omega
    have start : inner <+: body :=
      List.prefix_of_prefix_length_le ⟨_, inside⟩ (List.prefix_append body rest) short
    rw [opens.after_append (after_of_closed closed)] at scanned
    exact text.foldl_step_ne start scanned

/-! ## The first sign -/

/-- A sign of assignment as the scan sees it. -/
structure SeesSign (cs : List Char) (p : Nat) : Prop where
  sign : cs[p]? = some '='
  outside : Scan.after (cs.take p) = .plain
  before : endsComparison (cs.take p).getLast? = false
  behind : cs[p + 1]? ≠ some '='

theorem seesSign_append_iff {front back : List Char} {c : Char} :
    SeesSign (front ++ c :: back) front.length ↔
      (Scan.after front == .plain && c == '=' && !endsComparison front.getLast? && back.head? != some '=') = true := by
  have here : (front ++ c :: back)[front.length]? = some c := by simp
  have next : (front ++ c :: back)[front.length + 1]? = back.head? := by
    rw [List.getElem?_append_right (Nat.le_add_right _ _), Nat.add_sub_cancel_left, List.head?_eq_getElem?]
    rfl
  have before : (front ++ c :: back).take front.length = front := List.take_left
  constructor
  · rintro ⟨sign, outside, notComparison, behind⟩
    rw [here] at sign
    rw [before] at outside notComparison
    rw [next] at behind
    simp [Option.some.inj sign, outside, notComparison, behind]
  · intro seen
    simp only [Bool.and_eq_true, beq_iff_eq, Bool.not_eq_true', bne_iff_ne] at seen
    obtain ⟨⟨⟨outside, sign⟩, notComparison⟩, behind⟩ := seen
    exact ⟨by rw [here, sign], by rw [before, outside], by rw [before, notComparison], by rwa [next]⟩

/-- The search from a place on finds the first sign from there on. -/
theorem findAssignmentFrom_eq_some_iff {front rest : List Char} {p : Nat} :
    findAssignmentFrom (Scan.after front) front.getLast? front.length rest = some p ↔
      IsLeast {q | front.length ≤ q ∧ SeesSign (front ++ rest) q} p := by
  induction rest generalizing front with
  | nil =>
    refine ⟨fun found => (by cases found), ?_⟩
    rintro ⟨⟨above, sees⟩, -⟩
    obtain ⟨within, -⟩ := List.getElem?_eq_some_iff.mp sees.sign
    rw [List.append_nil] at within
    omega
  | cons c rest ih =>
    rw [findAssignmentFrom]
    split
    next seen =>
      have least : IsLeast {q | front.length ≤ q ∧ SeesSign (front ++ c :: rest) q} front.length :=
        ⟨⟨Nat.le_refl _, seesSign_append_iff.mpr seen⟩, fun q member => member.1⟩
      rw [Option.some_inj]
      exact ⟨fun same => same ▸ least, least.unique⟩
    next unseen =>
      -- There is no sign here, so the first sign is the first from the next place on.
      have rest_eq : {q | front.length ≤ q ∧ SeesSign (front ++ c :: rest) q} =
          {q | (front ++ [c]).length ≤ q ∧ SeesSign ((front ++ [c]) ++ rest) q} := by
        ext q
        simp only [Set.mem_ofPred_eq, List.length_append, List.length_singleton, List.append_assoc,
          List.singleton_append]
        constructor
        · rintro ⟨above, sees⟩
          have other : front.length ≠ q := by
            rintro rfl
            exact unseen (seesSign_append_iff.mp sees)
          exact ⟨Nat.lt_of_le_of_ne above other, sees⟩
        · rintro ⟨above, sees⟩
          exact ⟨Nat.le_of_succ_le above, sees⟩
      rw [rest_eq, ← ih]
      simp

theorem endsComparison_iff {previous : Option Char} :
    endsComparison previous = true ↔ ∃ c ∈ ['=', '!', '<', '>'], previous = some c := by
  simp [endsComparison, or_assoc]

theorem getLast?_eq_some_iff_getElem? {front : List Char} {c : Char} (back : List Char) :
    front.getLast? = some c ↔ ∃ q, q + 1 = front.length ∧ (front ++ back)[q]? = some c := by
  cases front using List.reverseRecOn with
  | nil => simp
  | append_singleton front last => simp

theorem endsComparison_eq_false_iff {front : List Char} (back : List Char) :
    endsComparison front.getLast? = false ↔
      ∀ q, q + 1 = front.length → ∀ c ∈ ['=', '!', '<', '>'], (front ++ back)[q]? ≠ some c := by
  rw [← Bool.not_eq_true, endsComparison_iff]
  constructor
  · intro none q place c member found
    exact none ⟨c, member, (getLast?_eq_some_iff_getElem? back).mpr ⟨q, place, found⟩⟩
  · rintro none ⟨c, member, last⟩
    obtain ⟨q, place, found⟩ := (getLast?_eq_some_iff_getElem? back).mp last
    exact none q place c member found

theorem isSign_iff_seesSign {cs : List Char} {p : Nat} : IsSign cs p ↔ SeesSign cs p := by
  by_cases sign : cs[p]? = some '='
  · obtain ⟨within, found⟩ := List.getElem?_eq_some_iff.mp sign
    obtain ⟨front, back, rfl, rfl⟩ : ∃ front back, cs = front ++ '=' :: back ∧ front.length = p :=
      ⟨cs.take p, cs.drop (p + 1), by rw [← found, List.getElem_cons_drop, List.take_append_drop],
        List.length_take_of_le (Nat.le_of_lt within)⟩
    have plain : ¬ IsQuote '=' := by simp [IsQuote]
    have cut : (front ++ '=' :: back).take front.length = front := List.take_left
    constructor
    · rintro ⟨-, outside, before, behind⟩
      refine ⟨sign, ?_, ?_, behind⟩
      · rw [cut]
        exact after_of_outside outside
      · rw [cut]
        exact (endsComparison_eq_false_iff _).mpr before
    · rintro ⟨-, outside, before, behind⟩
      rw [cut] at outside before
      exact ⟨sign, outside_of_after plain outside, (endsComparison_eq_false_iff _).mp before, behind⟩
  · exact ⟨fun isSign => absurd isSign.sign sign, fun sees => absurd sees.sign sign⟩

theorem findAssignment_eq_some_iff {cs : List Char} {p : Nat} :
    findAssignment cs = some p ↔ IsLeast {q | IsSign cs q} p := by
  have search : findAssignment cs = some p ↔ IsLeast {q | 0 ≤ q ∧ SeesSign cs q} p :=
    @findAssignmentFrom_eq_some_iff [] cs p
  simpa [isSign_iff_seesSign] using search

theorem findAssignment_eq_none_iff {cs : List Char} : findAssignment cs = none ↔ ∀ p, ¬ IsSign cs p := by
  constructor
  · intro missing p isSign
    classical
    have signs : ∃ q, IsSign cs q := ⟨p, isSign⟩
    have least : IsLeast {q | IsSign cs q} (Nat.find signs) :=
      ⟨Nat.find_spec signs, fun q member => Nat.find_min' signs member⟩
    rw [findAssignment_eq_some_iff.mpr least] at missing
    cases missing
  · intro never
    cases found : findAssignment cs with
    | none => rfl
    | some p => exact absurd (findAssignment_eq_some_iff.mp found).1 (never p)

/-- The search finds the first equals sign that lies outside of all quoted segments and in no comparison, and nothing
    if there is none.  A line that has a target without quotes and equals signs, then ` = `, is cut at that sign,
    whatever comes behind it. -/
theorem findAssignment_first (cs : List Char) :
    (∀ p, findAssignment cs = some p ↔ IsLeast {q | IsSign cs q} p) ∧
    (findAssignment cs = none ↔ ∀ p, ¬ IsSign cs p) ∧
    ∀ target rest, (∀ c ∈ target, c ≠ '=' ∧ ¬ IsQuote c) → cs = target ++ ' ' :: '=' :: ' ' :: rest →
      findAssignment cs = some (target.length + 1) ∧
      Text.strip (cs.take (target.length + 1)) = Text.strip target ∧
      Text.strip (cs.drop (target.length + 2)) = Text.strip rest := by
  refine ⟨fun p => findAssignment_eq_some_iff, findAssignment_eq_none_iff, ?_⟩
  rintro target rest plain rfl
  have clean : ∀ c ∈ target, c ≠ '=' ∧ c ≠ '\'' ∧ c ≠ '"' := by
    intro c member
    obtain ⟨sign, quote⟩ := plain c member
    rw [IsQuote, not_or] at quote
    exact ⟨sign, quote⟩
  refine ⟨findAssignment_append clean rest, ?_, ?_⟩
  · rw [List.take_length_add_append]
    refine Text.strip_append_of_blank fun c member => ?_
    rw [List.mem_singleton.mp member]
    rfl
  · rw [List.drop_length_add_append]
    exact Text.strip_cons_of_isBlank rfl rest

/-- A text with a hidden quote, a comparison, and a segment that is not closed behind the sign. -/
def quotedText : List Char :=
  "'a\\'=' <= \"=\" = \"b = c".toList

/-- The text has its sign behind the second segment, but what stands behind a target is not searched. -/
theorem quotedText_first :
    IsLeast {q | IsSign quotedText q} 14 ∧
    (∀ c ∈ ['x'], c ≠ '=' ∧ ¬ IsQuote c) ∧
    findAssignment ('x' :: ' ' :: '=' :: ' ' :: quotedText) = some 2 := by
  have plain : ∀ c ∈ ['x'], c ≠ '=' ∧ ¬ IsQuote c := by simp [IsQuote]
  refine ⟨?_, plain, ?_⟩
  · exact ((findAssignment_first quotedText).1 14).mp (by decide)
  · exact ((findAssignment_first _).2.2 ['x'] quotedText plain rfl).1

end Lexeme

end MipsLowering
