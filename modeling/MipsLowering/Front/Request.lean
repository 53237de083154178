import MipsLowering.Program
import MipsLowering.Text.Lines

/-!
# Requests

A request carries a program and some settings as a value of a data format.  A value that does not have
the fields of a request is refused with the places of its bad fields; settings that are not accepted
are refused with the reason.  Everything else is answered, a fault that concerns the program included;
other faults are passed on.
-/

namespace MipsLowering

/-! ## Values -/

/-- A value of the data format in which requests arrive. -/
inductive Payload where
  | null
  | bool (value : Bool)
  | int (value : Int)
  /-- A number that is not whole. -/
  | fraction
  | string (value : String)
  | array (items : List Payload)
  | object (fields : List (String × Payload))
  deriving Inhabited

/-- The field of an object with a name. -/
def Payload.field? (fields : List (String × Payload)) (name : String) : Option Payload :=
  fields.lookup name

/-! ## Requests -/

/-- A request.  Everything but the program may be left out. -/
structure Request where
  code : String
  pool : Option (List Register) := none
  annotate : Bool := true
  emitExit : Bool := true
  strictLabels : Bool := false
  deriving Repr, DecidableEq

namespace Request

/-- The outcome of reading a field: its value, or the places of what is bad about it. -/
abbrev Reading (α : Type) := Except (List String) α

/-- The spellings of a truth value, apart from their case. -/
def truthOfWord? (word : String) : Option Bool :=
  let lower := String.ofList (word.toList.map Char.toLower)
  if ["1", "t", "true", "y", "yes", "on"].contains lower then some true
  else if ["0", "f", "false", "n", "no", "off"].contains lower then some false
  else none

/-- The truth value that a payload stands for. -/
def truth? : Payload → Option Bool
  | .bool b => some b
  | .int 0 => some false
  | .int 1 => some true
  | .string word => truthOfWord? word
  | _ => none

/-- Reads a field with a text, which must be there. -/
def textField (fields : List (String × Payload)) (name : String) : Reading String :=
  match Payload.field? fields name with
  | some (.string s) => .ok s
  | _ => .error [name]

/-- Reads a field with a truth value, which may be left out. -/
def truthField (fields : List (String × Payload)) (name : String) (default : Bool) :
    Reading Bool :=
  match Payload.field? fields name with
  | none => .ok default
  | some value =>
    match truth? value with
    | some b => .ok b
    | none => .error [name]

/-- The text that a payload holds. -/
def text? : Payload → Option String
  | .string s => some s
  | _ => none

/-- Reads a field with a list of texts, which may be left out or be null. -/
def listField (fields : List (String × Payload)) (name : String) :
    Reading (Option (List String)) :=
  match Payload.field? fields name with
  | none | some .null => .ok none
  | some (.array items) =>
    match items.zipIdx.filter fun (item, _) => (text? item).isNone with
    | [] => .ok (some (items.filterMap text?))
    | bad => .error (bad.map fun (_, i) => name ++ "." ++ toString i)
  | some _ => .error [name]

/-- The places that a reading complains about. -/
def complaints {α : Type} : Reading α → List String
  | .ok _ => []
  | .error places => places

/-- Reads a request; a payload that is no object is bad as a whole.  The places of all bad fields are
    given, sorted. -/
def ofPayload : Payload → Reading Request
  | .object fields =>
    let defaults : Request := { code := "" }
    let code := textField fields "code"
    let pool := listField fields "register_pool"
    let annotate := truthField fields "annotate" defaults.annotate
    let emitExit := truthField fields "emit_exit" defaults.emitExit
    let strictLabels := truthField fields "strict_labels" defaults.strictLabels
    match code, pool, annotate, emitExit, strictLabels with
    | .ok code, .ok pool, .ok annotate, .ok emitExit, .ok strictLabels =>
      .ok ⟨code, pool, annotate, emitExit, strictLabels⟩
    | _, _, _, _, _ =>
      .error (Text.sorted (complaints code ++ complaints pool ++ complaints annotate ++
        complaints emitExit ++ complaints strictLabels))
  | _ => .error [""]

/-- The settings that a request asks for; without pool registers, the default pool. -/
def settings (r : Request) : Settings :=
  let pool := match r.pool with
    | none | some [] => defaultPool
    | some registers => registers
  { pool := pool, annotate := r.annotate, emitExit := r.emitExit, strictLabels := r.strictLabels }

end Request

/-! ## Answers -/

/-- The answer to a request. -/
inductive Answer where
  /-- Fields of the request are bad. -/
  | invalid (places : List String)
  /-- The settings are not accepted. -/
  | refused (fault : ConfigFault)
  /-- The program was lowered. -/
  | lowered (listing : String) (diagnostics : List String) (statistics : Statistics)
  /-- The pass ended in a fault. -/
  | failed (diagnostics : List String)
  deriving Repr, DecidableEq

/-- The status of an answer. -/
def Answer.status : Answer → Nat
  | .invalid _ => 422
  | .refused _ => 422
  | .lowered _ _ _ => 200
  | .failed _ => 200

/-- Answers a request. -/
def Request.answer (r : Request) : Except Fault Answer :=
  match r.settings.check with
  | .error fault => .ok (.refused fault)
  | .ok config =>
    match lowerLines config (Text.textLines r.code) with
    | (.ok listing, p) => .ok (.lowered listing p.diagnosticMessages p.statistics)
    | (.error fault, p) =>
      if fault.isReported then .ok (.failed (p.diagnosticMessages ++ [fault.message]))
      else .error fault

/-- Answers a payload. -/
def Payload.answer (payload : Payload) : Except Fault Answer :=
  match Request.ofPayload payload with
  | .error places => .ok (.invalid places)
  | .ok request => request.answer

end MipsLowering
