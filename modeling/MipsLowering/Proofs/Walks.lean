import Mathlib.Logic.Relation
import MipsLowering.Proofs.ByteMachine

/-! # Walks through a listing

`Core.run` passes lines from the first to the last.  A `Walker` stands somewhere in a listing: it follows
branches and jumps, and it notes the addresses at which it stores something.  `Image.Walks` says that one
walker gets to where another one stands.  Calls, returns and the console are still left to those who need
them.

Lines that `Core.run` can pass are passed by a walker in the same way (`Image.walks_of_run`), and a jump goes
to the first line with its label (`Image.from?_of_text`). -/

namespace MipsLowering

/-- A machine at work in a listing. -/
structure Walker where
  core : Core
  /-- The listing from where the machine stands. -/
  rest : List Node
  /-- The addresses at which something has been stored, from the first to the last. -/
  stores : List Word

/-- The addresses at which an operation stores something. -/
def Op.storesAt (place : String → Word) (c : Core) : Op → List Word
  | .store _ _ address => [c.locate place address]
  | _ => []

def Op.isStore : Op → Bool
  | .store _ _ _ => true
  | _ => false

theorem Op.storesAt_of_isStore {op : Op} (noStore : op.isStore = false) (place : String → Word) (c : Core) :
    op.storesAt place c = [] := by
  cases op with
  | store => cases noStore
  | _ => rfl

namespace Image

variable (m : Image) (place : String → Word)

/-- One step of a walker, if it can be made. -/
def walk? (w : Walker) : Option Walker :=
  match w.rest with
  | .instr i :: rest =>
    let passed : Walker := { w with rest := rest }
    let jumped (label : String) : Option Walker := (m.from? label).map fun there => { w with rest := there }
    match i.op with
    | .j label => jumped label
    | .beq left right label => if w.core.reg left = w.core.reg right then jumped label else some passed
    | .bnez register label => if w.core.reg register = 0 then some passed else jumped label
    | op => (w.core.exec place op).map fun d => ⟨d, rest, w.stores ++ op.storesAt place w.core⟩
  | .label _ :: rest | .comment _ :: rest => some { w with rest := rest }
  | .directive _ :: _ | [] => none

/-- A walker gets from one place to another. -/
def Walks : Walker → Walker → Prop :=
  Relation.ReflTransGen fun w v => m.walk? place w = some v

variable {m place} {c d : Core} {rest : List Node} {stores : List Word}

/-! ## Steps

What the next line makes a walker do.  The comment behind the line does not matter. -/

theorem walk?_bare (node : Node) (w : Walker) :
    m.walk? place { w with rest := node :: rest } = m.walk? place { w with rest := node.bare :: rest } := by
  cases node <;> rfl

variable {node : Node} {label : String}

theorem walk?_label (bare : node.bare = .label label) :
    m.walk? place ⟨c, node :: rest, stores⟩ = some ⟨c, rest, stores⟩ := by
  rw [walk?_bare node ⟨c, rest, stores⟩, bare]
  rfl

/-- An operation behind which the machine goes on. -/
theorem walk?_exec {op : Op} (bare : node.bare = op.node) (done : c.exec place op = some d) :
    m.walk? place ⟨c, node :: rest, stores⟩ = some ⟨d, rest, stores ++ op.storesAt place c⟩ := by
  rw [walk?_bare node ⟨c, rest, stores⟩, bare]
  cases op with
  | beq | bnez | j => cases done
  | _ => simp only [walk?, Op.node, done, Option.map_some]

theorem walk?_exec_of_isStore {op : Op} (bare : node.bare = op.node) (noStore : op.isStore = false)
    (done : c.exec place op = some d) :
    m.walk? place ⟨c, node :: rest, stores⟩ = some ⟨d, rest, stores⟩ := by
  rw [walk?_exec bare done, Op.storesAt_of_isStore noStore, List.append_nil]

theorem walk?_j {there : List Node} (bare : node.bare = (Op.j label).node)
    (found : m.from? label = some there) :
    m.walk? place ⟨c, node :: rest, stores⟩ = some ⟨c, there, stores⟩ := by
  rw [walk?_bare node ⟨c, rest, stores⟩, bare]
  simp only [walk?, Op.node, found, Option.map_some]

theorem walk?_beq_of_eq {left right : Register} {there : List Node}
    (bare : node.bare = (Op.beq left right label).node) (equal : c.reg left = c.reg right)
    (found : m.from? label = some there) :
    m.walk? place ⟨c, node :: rest, stores⟩ = some ⟨c, there, stores⟩ := by
  rw [walk?_bare node ⟨c, rest, stores⟩, bare]
  simp only [walk?, Op.node, equal, if_true, found, Option.map_some]

theorem walk?_beq_of_ne {left right : Register} (bare : node.bare = (Op.beq left right label).node)
    (differs : c.reg left ≠ c.reg right) :
    m.walk? place ⟨c, node :: rest, stores⟩ = some ⟨c, rest, stores⟩ := by
  rw [walk?_bare node ⟨c, rest, stores⟩, bare]
  simp only [walk?, Op.node, differs, if_false]

/-! ## Walks -/

/-- Lines without stores that are passed from the first to the last. -/
theorem walks_of_run {nodes : List Node} (noStore : ∀ i, .instr i ∈ nodes → i.op.isStore = false)
    (ran : Core.run place nodes c = some d) : m.Walks place ⟨c, nodes ++ rest, stores⟩ ⟨d, rest, stores⟩ := by
  induction nodes generalizing c with
  | nil =>
    cases ran
    exact .refl
  | cons node nodes ih =>
    have later : ∀ i, .instr i ∈ nodes → i.op.isStore = false := fun i member =>
      noStore i (List.mem_cons_of_mem node member)
    cases node with
    | instr i =>
      obtain ⟨next, done, ran⟩ := Option.bind_eq_some_iff.mp ran
      exact (ih later ran).head (walk?_exec_of_isStore rfl (noStore i List.mem_cons_self) done)
    | label | comment => exact (ih later ran).head rfl
    | directive => cases ran

/-- A jump goes to the first line with its label. -/
theorem from?_of_text {first second : List Node}
    (text : m.text = first ++ .label label :: second) (absent : .label label ∉ first) :
    m.from? label = some (.label label :: second) := by
  have before : ∀ node ∈ first, (node != .label label) = true := by
    intro node member
    rw [bne_iff_ne]
    rintro rfl
    exact absent member
  rw [from?, text, if_pos (by simp), List.dropWhile_append_of_pos before]
  simp

end Image

end MipsLowering
