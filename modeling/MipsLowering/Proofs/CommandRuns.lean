import MipsLowering.Front.CommandLine
import MipsLowering.Proofs.FrontEnds
import MipsLowering.Proofs.Outcomes

/-! # What a run of the command line leaves

A run reads one file and writes another, or nothing at all.  It reports success exactly if its arguments name the
files, the program could be read and lowered, and the listing found a place.  Then the listing is all that the tree
has gained.  In every other case the tree is as before.  Two faults are not reported with a status but passed on to
the caller: a number with too many digits, and an input that never ends. -/

namespace MipsLowering

/-! ## Files -/

namespace FileTree

/-- A spot where a text can be put, and the place where it is kept, if it is kept.  A device without room is not such
    a spot. -/
inductive Spot.Takes : Spot → Option Place → Prop where
  | file (place : Place) (bytes : List UInt8) : Takes (.file place bytes) (some place)
  | vacant (place : Place) : Takes (.vacant place) (some place)
  | null : Takes (.device .null) none

/-- A path can be opened to write a text, which is kept at a place, or not at all if the path leads to a device. -/
def Opens (t : FileTree) (path : String) (place : Option Place) : Prop :=
  ∃ spot, t.resolveNew path = .ok spot ∧ spot.Takes place

/-- A path leads to a file that never ends. -/
def Endless (t : FileTree) (path : String) : Prop :=
  t.readBytes path = .error .outOfMemory

/-- The tree `later` has a text at a path where it could be kept, and is as before everywhere else. -/
structure Stores (t : FileTree) (path text : String) (later : FileTree) : Prop where
  /-- Directories, devices and the working directory are the same. -/
  frame : later = { t with files := later.files }
  content : ∀ place, t.Opens path place → ∀ other,
    later.content? other = if place = some other then some (Text.encodeUtf8 text) else t.content? other
  reads : ∀ place, t.Opens path (some place) → later.read path = .ok text

variable {t : FileTree} {place : Place} {bytes : List UInt8}

theorem put_eq : t.put place bytes = { t with files := (t.put place bytes).files } := by
  rw [put]
  split <;> rfl

theorem lookup_replace (files : List (Place × List UInt8)) (other : Place) :
    (files.map fun f => if f.1 == place then (place, bytes) else f).lookup other =
      if place = other then (files.lookup other).map fun _ => bytes else files.lookup other := by
  induction files with
  | nil => simp
  | cons f files ih =>
    obtain ⟨key, content⟩ := f
    by_cases here : key = place <;> by_cases same : other = key <;> grind

theorem content?_put (other : Place) :
    (t.put place bytes).content? other = if place = other then some bytes else t.content? other := by
  rw [put]
  split
  next known =>
    rw [content?, lookup_replace, ← content?]
    split
    next same =>
      obtain ⟨content, found⟩ := Option.isSome_iff_exists.mp known
      rw [← same, found]
      rfl
    next => rfl
  next unknown =>
    rw [content?, List.lookup_append, ← content?]
    have free : t.content? place = none := by simpa using unknown
    by_cases same : place = other
    · subst same
      simp [free]
    · have apart : (other == place) = false := by simpa using Ne.symm same
      simp [same, List.lookup_cons, apart]

theorem isDirectory_put (other : Place) : (t.put place bytes).isDirectory other = t.isDirectory other := by
  rw [put_eq]
  rfl

theorem devices_put : (t.put place bytes).devices = t.devices := by
  rw [put_eq]

theorem origin_put (path : List Char) : (t.put place bytes).origin path = t.origin path := by
  rw [put_eq]
  rfl

/-- A directory is still found after a file was put anywhere. -/
theorem entry_put_of_directory {here there : Place} {name : String}
    (found : t.entry here name = .directory there) : (t.put place bytes).entry here name = .directory there := by
  simp only [entry, isDirectory_put] at found ⊢
  cases known : t.isDirectory (here ++ [name]) with
  | true => simpa [known] using found
  | false =>
    simp only [known, Bool.false_eq_true, if_false] at found
    split at found <;> cases found

/-- What can be found or put under a name of a directory is at the place with that name. -/
theorem entry_of_takes {here : Place} {name : String} (takes : (t.entry here name).Takes (some place)) :
    place = here ++ [name] ∧ t.isDirectory place = false ∧ t.devices.lookup place = none := by
  simp only [entry] at takes
  cases known : t.isDirectory (here ++ [name]) with
  | true =>
    rw [known] at takes
    cases takes
  | false =>
    simp only [known, Bool.false_eq_true, if_false] at takes
    cases device : t.devices.lookup (here ++ [name]) with
    | some device =>
      rw [device] at takes
      cases takes
    | none =>
      rw [device] at takes
      cases held : t.content? (here ++ [name]) <;> rw [held] at takes <;> cases takes <;>
        exact ⟨rfl, known, device⟩

theorem entry_put_of_takes {here : Place} {name : String} (takes : (t.entry here name).Takes (some place)) :
    (t.put place bytes).entry here name = .file place bytes := by
  obtain ⟨rfl, noDirectory, noDevice⟩ := entry_of_takes takes
  simp [entry, isDirectory_put, devices_put, noDirectory, noDevice, content?_put]

/-- A walk that ended where a text can be put finds the text there afterwards. -/
theorem walk_put {here : Place} {steps : List String} {spot : Spot} (walked : t.walk here steps = .ok spot)
    (takes : spot.Takes (some place)) : (t.put place bytes).walk here steps = .ok (.file place bytes) := by
  fun_induction walk t here steps with
  | case1 =>
    cases walked
    cases takes
  | case2 here rest ih => exact ih walked
  | case3 here rest ih => exact ih walked
  | case5 here name rest notHere notUp short there found ih =>
    -- Before the last step a walk only passes directories, and these are all still there.
    rw [walk, if_neg short]
    exacts [ih walked, notHere, notUp, entry_put_of_directory found]
  | case6 here name notHere notUp short noDirectory =>
    cases walked
    have held : (t.put place bytes).entry here name = .file place bytes := entry_put_of_takes takes
    simp [walk, short, held]
  | case4 | case7 | case8 | case9 => cases walked

theorem walkFor_eq_ok_iff {path : String} {steps : List String} {spot : Spot} :
    t.walkFor path steps = .ok spot ↔
      '\x00' ∉ path.toList ∧ path.isEmpty = false ∧ path.utf8ByteSize < pathLimit ∧
        t.walk (t.origin path.toList) steps = .ok spot := by
  rw [walkFor]
  by_cases clean : '\x00' ∈ path.toList
  · simp [clean]
  · cases empty : path.isEmpty with
    | true => simp [clean]
    | false =>
      by_cases long : pathLimit ≤ path.utf8ByteSize
      · simp [clean, long, Nat.not_lt.mpr long]
      · simp [clean, long, Nat.lt_of_not_le long]

theorem walkFor_put {path : String} {steps : List String} {spot : Spot} (walked : t.walkFor path steps = .ok spot)
    (takes : spot.Takes (some place)) : (t.put place bytes).walkFor path steps = .ok (.file place bytes) := by
  obtain ⟨clean, filled, short, walked⟩ := walkFor_eq_ok_iff.mp walked
  exact walkFor_eq_ok_iff.mpr ⟨clean, filled, short, by rw [origin_put]; exact walk_put walked takes⟩

theorem isReported_of_walk {here : Place} {steps : List String} {fault : FileFault}
    (failed : t.walk here steps = .error fault) : fault.isReported = true := by
  fun_induction walk t here steps with
  | case2 here rest ih | case3 here rest ih => exact ih failed
  | case5 here name rest notHere notUp short there found ih => exact ih failed
  | case1 | case6 => cases failed
  | case4 | case7 | case8 | case9 =>
    cases failed
    rfl

theorem isReported_of_walkFor {path : String} {steps : List String} {fault : FileFault}
    (clean : '\x00' ∉ path.toList) (failed : t.walkFor path steps = .error fault) : fault.isReported = true := by
  rw [walkFor, if_neg (by simpa using clean)] at failed
  split at failed
  · cases failed
    rfl
  · split at failed
    · cases failed
      rfl
    · exact isReported_of_walk failed

theorem isReported_of_resolveNew {path : String} {fault : FileFault} (clean : '\x00' ∉ path.toList)
    (failed : t.resolveNew path = .error fault) : fault.isReported = true := by
  rw [resolveNew] at failed
  split at failed
  · cases walked : t.walkFor path ((names path).dropLast ++ ["."]) with
    | ok spot =>
      rw [walked] at failed
      cases failed
      rfl
    | error fault' =>
      rw [walked] at failed
      cases failed
      exact isReported_of_walkFor clean walked
  · exact isReported_of_walkFor clean failed

theorem Endless.read_eq {path : String} (endless : t.Endless path) :
    t.read path = .error (.file .outOfMemory) := by
  rw [Endless] at endless
  rw [read, endless]

/-- A file that cannot be read is reported, unless it never ends. -/
theorem isReported_of_read {path : String} {fault : FileFault} (clean : '\x00' ∉ path.toList)
    (failed : t.read path = .error (.file fault)) :
    fault.isReported = true ∨ fault = .outOfMemory ∧ t.Endless path := by
  have bytes : t.readBytes path = .error fault := by
    rw [read] at failed
    cases held : t.readBytes path with
    | error fault' =>
      rw [held] at failed
      cases failed
      rfl
    | ok bytes =>
      simp only [held] at failed
      cases decoded : Text.decodeUtf8 bytes <;> rw [decoded] at failed <;> cases failed
  rw [Endless, bytes]
  rw [readBytes] at bytes
  cases resolved : t.resolve path with
  | error fault' =>
    rw [resolved] at bytes
    cases bytes
    exact .inl (isReported_of_walkFor clean resolved)
  | ok spot =>
    simp only [resolved] at bytes
    cases spot with
    | directory | vacant =>
      cases bytes
      exact .inl rfl
    | file place content =>
      cases slash : endsWithSlash path <;> rw [slash] at bytes <;> cases bytes
      exact .inl rfl
    | device device =>
      cases slash : endsWithSlash path with
      | true =>
        rw [slash] at bytes
        cases bytes
        exact .inl rfl
      | false =>
        rw [slash] at bytes
        cases device <;> cases bytes
        exact .inr ⟨rfl, rfl⟩

theorem Spot.Takes.unique {spot : Spot} {place other : Option Place} (first : spot.Takes place)
    (second : spot.Takes other) : place = other := by
  cases first <;> cases second <;> rfl

theorem Opens.unique {path : String} {place other : Option Place} (first : t.Opens path place)
    (second : t.Opens path other) : place = other := by
  obtain ⟨spot, resolved, takes⟩ := first
  obtain ⟨spot', resolved', takes'⟩ := second
  obtain rfl := Except.ok.inj (resolved.symm.trans resolved')
  exact takes.unique takes'

theorem Opens.resolve {path : String} {place : Option Place} (opens : t.Opens path place) :
    ∃ spot, t.resolve path = .ok spot ∧ spot.Takes place ∧ endsWithSlash path = false := by
  obtain ⟨spot, resolved, takes⟩ := opens
  rw [resolveNew] at resolved
  split at resolved
  next =>
    cases walked : t.walkFor path ((names path).dropLast ++ ["."]) <;> rw [walked] at resolved <;> cases resolved
  next noSlash => exact ⟨spot, resolved, takes, by simpa using noSlash⟩

/-- What is put where a path leads is found at that path. -/
theorem read_put {path text : String} (opens : t.Opens path (some place)) :
    (t.put place (Text.encodeUtf8 text)).read path = .ok text := by
  obtain ⟨spot, resolved, takes, noSlash⟩ := opens.resolve
  have found : (t.put place (Text.encodeUtf8 text)).resolve path = .ok (.file place (Text.encodeUtf8 text)) :=
    walkFor_put resolved takes
  have bytes : (t.put place (Text.encodeUtf8 text)).readBytes path = .ok (Text.encodeUtf8 text) := by
    rw [readBytes, found]
    simp [noSlash]
  exact read_eq bytes

theorem stores_put {path text : String} (opens : t.Opens path (some place)) :
    t.Stores path text (t.put place (Text.encodeUtf8 text)) := by
  refine ⟨put_eq, fun other opens' content => ?_, fun other opens' => ?_⟩
  · rw [← opens.unique opens', content?_put]
    simp
  · obtain rfl := Option.some.inj (opens.unique opens')
    exact read_put opens

theorem stores_self {path text : String} (opens : t.Opens path none) : t.Stores path text t := by
  refine ⟨rfl, fun other opens' content => ?_, fun other opens' => ?_⟩
  · rw [← opens.unique opens']
    rfl
  · cases opens.unique opens'

/-- A text that is not empty is stored if the path can be opened, and otherwise nothing happens. -/
theorem write_spec (t : FileTree) (path : String) {text : String} (filled : text.isEmpty = false) :
    (∃ place later, t.Opens path place ∧ t.write path text = .ok later ∧ t.Stores path text later) ∨
      ∃ fault, (∀ place, ¬ t.Opens path place) ∧ t.write path text = .error fault ∧
        ('\x00' ∉ path.toList → fault.isReported = true) := by
  rw [write]
  cases resolved : t.resolveNew path with
  | error fault =>
    refine .inr ⟨fault, ?_, rfl, fun clean => isReported_of_resolveNew clean resolved⟩
    rintro place ⟨spot, found, -⟩
    cases resolved.symm.trans found
  | ok spot =>
    have closed : (∀ place, ¬ spot.Takes place) → ∀ place, ¬ t.Opens path place := by
      rintro never place ⟨_, found, takes⟩
      obtain rfl := Except.ok.inj (resolved.symm.trans found)
      exact never place takes
    match spot, resolved, closed with
    | .directory _, _, closed => exact .inr ⟨.isDirectory, closed nofun, rfl, fun _ => rfl⟩
    | .device .full, _, closed =>
      -- The full device refuses every text but the empty one.
      refine .inr ⟨.noSpace, closed nofun, ?_, fun _ => rfl⟩
      simp [fill, filled]
    | .device .null, resolved, _ =>
      have opens : t.Opens path none := ⟨_, resolved, .null⟩
      exact .inl ⟨none, t, opens, rfl, stores_self opens⟩
    | .vacant place, resolved, _ =>
      have opens : t.Opens path (some place) := ⟨_, resolved, .vacant place⟩
      exact .inl ⟨some place, _, opens, rfl, stores_put opens⟩
    | .file place bytes, resolved, _ =>
      have opens : t.Opens path (some place) := ⟨_, resolved, .file place bytes⟩
      exact .inl ⟨some place, _, opens, rfl, stores_put opens⟩

end FileTree

/-! ## Arguments -/

namespace CommandLine

/-- The paths of the input and the output that arguments name. -/
inductive Names (args : List String) : String → String → Prop where
  | input {input : String} (only : args.filter (!switches.contains ·) = [input]) :
      Names args input (defaultOutput input)
  | both {input output : String} (only : args.filter (!switches.contains ·) = [input, output]) :
      Names args input output

/-- The settings that arguments ask for. -/
def settings (args : List String) : Config :=
  .standard (args.contains "--strict-labels")

/-- Arguments name an output, and an input that can be read and whose lines are lowered with a result. -/
def Obtains (args : List String) (t : FileTree) (output : String) (result : Except Fault String) : Prop :=
  ∃ input text, Names args input output ∧ t.read input = .ok text ∧
    (lowerLines (settings args) (Text.fileLines text)).1 = result

variable {args : List String} {t : FileTree} {input output : String}

theorem Names.unique {input' output' : String} (first : Names args input output) (second : Names args input' output') :
    input = input' ∧ output = output' := by
  cases first with
  | input only =>
    cases second with
    | input only' => simp_all
    | both only' => simp_all
  | both only =>
    cases second with
    | input only' => simp_all
    | both only' => simp_all

theorem Obtains.unique {output' : String} {result result' : Except Fault String}
    (first : Obtains args t output result) (second : Obtains args t output' result') :
    output = output' ∧ result = result' := by
  obtain ⟨input, text, names, read, rfl⟩ := first
  obtain ⟨input', text', names', read', rfl⟩ := second
  obtain ⟨rfl, rfl⟩ := names.unique names'
  rw [Except.ok.inj (read.symm.trans read')]
  exact ⟨rfl, rfl⟩

/-- What can be read has an end. -/
theorem Obtains.not_endless {result : Except Fault String} (obtains : Obtains args t output result)
    {input output' : String} (names : Names args input output') : ¬ t.Endless input := by
  obtain ⟨input', text, names', read, -⟩ := obtains
  obtain ⟨rfl, -⟩ := names.unique names'
  intro endless
  cases read.symm.trans endless.read_eq

theorem names_of_parse? {invocation : Invocation} (parsed : parse? args = some invocation) :
    Names args invocation.input invocation.output ∧
      Config.standard invocation.strictLabels = settings args := by
  simp only [parse?] at parsed
  split at parsed
  next only =>
    cases parsed
    exact ⟨.input only, rfl⟩
  next only =>
    cases parsed
    exact ⟨.both only, rfl⟩
  next => cases parsed

theorem not_names_of_parse? (unparsed : parse? args = none) : ¬ Names args input output := by
  intro names
  cases names with
  | input only | both only =>
    simp only [parse?, only] at unparsed
    cases unparsed

theorem mem_withoutExtension {path : List Char} {c : Char} (inside : c ∈ withoutExtension path) : c ∈ path := by
  have folder : ∀ c ∈ path.reverse.dropWhile (· != '/'), c ∈ path := fun c member =>
    List.mem_reverse.mp ((List.dropWhile_sublist _).subset member)
  have last : ∀ c ∈ (path.reverse.takeWhile (· != '/')).dropWhile (· != '.'), c ∈ path := fun c member =>
    List.mem_reverse.mp ((List.takeWhile_sublist _).subset ((List.dropWhile_sublist _).subset member))
  simp only [withoutExtension] at inside
  split at inside
  next stem cut =>
    split at inside
    · rcases List.mem_append.mp inside with member | member
      · exact folder c (List.mem_reverse.mp member)
      · exact last c (by rw [cut]; exact List.mem_cons_of_mem _ (List.mem_reverse.mp member))
    · exact inside
  next => exact inside

theorem Names.clean (names : Names args input output) (clean : ∀ arg ∈ args, '\x00' ∉ arg.toList) :
    '\x00' ∉ input.toList ∧ '\x00' ∉ output.toList := by
  have kept : ∀ arg ∈ args.filter (!switches.contains ·), '\x00' ∉ arg.toList :=
    fun arg member => clean arg (List.mem_of_mem_filter member)
  cases names with
  | both only =>
    rw [only] at kept
    exact ⟨kept input (by simp), kept output (by simp)⟩
  | input only =>
    rw [only] at kept
    have named := kept input (by simp)
    refine ⟨named, fun inside => ?_⟩
    rw [defaultOutput, String.toList_append, String.toList_ofList, List.mem_append] at inside
    rcases inside with inside | inside
    · exact named (mem_withoutExtension inside)
    · revert inside
      decide

/-! ## Runs -/

/-- A run reported success. -/
def Succeeds (outcome : Except Escape Transcript) : Prop :=
  ∃ transcript, outcome = .ok transcript ∧ transcript.status = 0

@[simp] theorem succeeds_ok (transcript : Transcript) : Succeeds (.ok transcript) ↔ transcript.status = 0 := by
  simp [Succeeds]

@[simp] theorem not_succeeds_error (escape : Escape) : ¬ Succeeds (.error escape) := by
  simp [Succeeds]

theorem isEmpty_of_lowerLines {config : Config} {lines : List String} {listing : String}
    (lowered : (lowerLines config lines).1 = .ok listing) : listing.isEmpty = false := by
  rw [lowerLines] at lowered
  cases read : Program.ofLines lines with
  | error numeral =>
    rw [read] at lowered
    cases lowered
  | ok program =>
    rw [read] at lowered
    obtain ⟨-, rfl⟩ := lowerProgram_eq_ok_iff.mp (Prod.ext lowered rfl)
    rw [Pass.listing, ← Bool.not_eq_true, String.isEmpty_iff]
    simp

/-- Besides faults of the program, which are reported, only numbers with too many digits end the lowering of lines. -/
theorem numeral_of_not_reported {config : Config} {lines : List String} {fault : Fault}
    (failed : (lowerLines config lines).1 = .error fault) (silent : fault.isReported = false) :
    ∃ numeral, fault = .numeral numeral := by
  rw [lowerLines] at failed
  cases read : Program.ofLines lines with
  | error numeral =>
    rw [read] at failed
    cases failed
    exact ⟨numeral, rfl⟩
  | ok program =>
    rw [read] at failed
    rcases lowerProgram_fault_cases (Program.filled_of_ofLines read) failed with rfl | rfl | ⟨labels, rfl⟩
    · cases silent
    · exact ⟨.write, rfl⟩
    · cases silent

/-- The ways in which a run can end. -/
inductive Ends (args : List String) (t : FileTree) : Except Escape Transcript × FileTree → Prop where
  | failed {transcript : Transcript} (status : transcript.status = 1)
      (ends : ∀ input output, Names args input output → ¬ t.Endless input)
      (reason : ∀ output result, Obtains args t output result →
        (∃ fault, result = .error fault ∧ fault.isReported = true) ∨
          (∃ listing, result = .ok listing) ∧ ∀ place, ¬ t.Opens output place) :
      Ends args t (.ok transcript, t)
  | overlong {output : String} {numeral : Text.NumeralFault}
      (obtains : Obtains args t output (.error (.numeral numeral))) :
      Ends args t (.error (.pass (.numeral numeral)), t)
  | endless {input output : String} (names : Names args input output) (endless : t.Endless input) :
      Ends args t (.error (.path .outOfMemory), t)
  | written {transcript : Transcript} {output listing : String} {place : Option Place} {later : FileTree}
      (status : transcript.status = 0) (obtains : Obtains args t output (.ok listing))
      (opens : t.Opens output place) (stores : t.Stores output listing later) : Ends args t (.ok transcript, later)

theorem ends_process {invocation : Invocation} {text : String} (names : Names args invocation.input invocation.output)
    (same : Config.standard invocation.strictLabels = settings args) (read : t.read invocation.input = .ok text)
    (clean : '\x00' ∉ invocation.output.toList) : Ends args t (process treeDisk invocation text t) := by
  rw [process, same]
  cases lowered : lowerLines (settings args) (Text.fileLines text) with
  | mk result p =>
    have obtains : Obtains args t invocation.output result := ⟨_, text, names, read, by rw [lowered]⟩
    cases result with
    | error fault =>
      cases reported : fault.isReported with
      | true =>
        simp only [reported]
        refine .failed rfl (fun _ _ => obtains.not_endless) fun output result obtains' => .inl ⟨fault, ?_, reported⟩
        exact (obtains'.unique obtains).2
      | false =>
        obtain ⟨numeral, rfl⟩ := numeral_of_not_reported (by rw [lowered]) reported
        exact .overlong obtains
    | ok listing =>
      have filled : listing.isEmpty = false := isEmpty_of_lowerLines (by rw [lowered])
      rcases t.write_spec invocation.output filled with
        ⟨place, later, opens, wrote, stores⟩ | ⟨fault, closed, failed, known⟩
      · have performed : treeDisk.write invocation.output listing t = (.ok (), later) := by
          simp [treeDisk, wrote]
        simp only [bind, StateT.bind, performed]
        exact .written rfl obtains opens stores
      · have performed : treeDisk.write invocation.output listing t = (.error fault, t) := by
          simp [treeDisk, failed]
        have reason : ∀ output result, Obtains args t output result →
            (∃ fault, result = .error fault ∧ fault.isReported = true) ∨
              (∃ listing, result = .ok listing) ∧ ∀ place, ¬ t.Opens output place := by
          intro output result obtains'
          obtain ⟨rfl, rfl⟩ := obtains'.unique obtains
          exact .inr ⟨⟨listing, rfl⟩, closed⟩
        simp only [bind, StateT.bind, performed, known clean]
        exact .failed rfl (fun _ _ => obtains.not_endless) reason

theorem ends_run (args : List String) (t : FileTree) (clean : ∀ arg ∈ args, '\x00' ∉ arg.toList) :
    Ends args t (run treeDisk args t) := by
  rw [run]
  cases parsed : parse? args with
  | none =>
    refine .failed rfl (fun _ _ names => absurd names (not_names_of_parse? parsed)) ?_
    rintro output result ⟨input, text, names, -, -⟩
    exact absurd names (not_names_of_parse? parsed)
  | some invocation =>
    obtain ⟨names, same⟩ := names_of_parse? parsed
    obtain ⟨inputClean, outputClean⟩ := names.clean clean
    have performed : treeDisk.read invocation.input t = (t.read invocation.input, t) := rfl
    simp only [bind, StateT.bind, performed]
    cases read : t.read invocation.input with
    | ok text => exact ends_process names same read outputClean
    | error fault =>
      -- The command line names one input only, and that one cannot be read.
      have reason : ∀ output result, ¬ Obtains args t output result := by
        rintro output result ⟨input, text, names', read', -⟩
        obtain ⟨rfl, rfl⟩ := names.unique names'
        cases read.symm.trans read'
      have failed : ∀ transcript : Transcript, transcript.status = 1 → ¬ t.Endless invocation.input →
          Ends args t (.ok transcript, t) := by
        refine fun transcript status ends => .failed status (fun input output names' => ?_)
          fun output result obtains => absurd obtains (reason output result)
        obtain ⟨rfl, -⟩ := names.unique names'
        exact ends
      cases fault with
      | utf8 fault =>
        refine failed _ rfl fun endless => ?_
        cases read.symm.trans endless.read_eq
      | file fault =>
        rcases FileTree.isReported_of_read inputClean read with reported | ⟨rfl, endless⟩
        · simp only [reported]
          refine failed _ rfl fun endless => ?_
          cases read.symm.trans endless.read_eq
          cases reported
        · exact .endless names endless

/-- A run writes the listing and nothing else, or leaves everything as it was. -/
structure AllOrNothing (args : List String) (t : FileTree) (outcome : Except Escape Transcript) (later : FileTree) :
    Prop where
  status : ∀ transcript, outcome = .ok transcript → transcript.status = 0 ∨ transcript.status = 1
  /-- A run passes on that a number has too many digits, or that the input never ends, and nothing else. -/
  escapes : ∀ escape, outcome = .error escape ↔
    (∃ output numeral, Obtains args t output (.error (.numeral numeral)) ∧ escape = .pass (.numeral numeral)) ∨
      ∃ input output, Names args input output ∧ t.Endless input ∧ escape = .path .outOfMemory
  /-- A run succeeds if the listing can be obtained and written. -/
  succeeds : Succeeds outcome ↔
    ∃ output listing place, Obtains args t output (.ok listing) ∧ t.Opens output place
  stores : Succeeds outcome → ∀ output listing, Obtains args t output (.ok listing) →
    t.Stores output listing later
  leaves : ¬ Succeeds outcome → later = t

/-- Files are changed by a run only if it succeeds. -/
theorem run_allOrNothing (args : List String) (t : FileTree) (clean : ∀ arg ∈ args, '\x00' ∉ arg.toList) :
    AllOrNothing args t (run treeDisk args t).1 (run treeDisk args t).2 := by
  generalize left : run treeDisk args t = left
  cases left ▸ ends_run args t clean with
  | failed status ends reason =>
    refine ⟨?_, ?_, ?_, ?_, fun _ => rfl⟩
    · rintro _ ⟨⟩
      exact .inr status
    · refine fun escape => ⟨nofun, ?_⟩
      rintro (⟨output, numeral, obtains, -⟩ | ⟨input, output, names, endless, -⟩)
      · rcases reason _ _ obtains with ⟨fault, same, reported⟩ | ⟨⟨listing, same⟩, -⟩
        · cases same
          cases reported
        · cases same
      · exact absurd endless (ends input output names)
    · simp only [succeeds_ok, status, Nat.one_ne_zero, false_iff]
      rintro ⟨output, listing, place, obtains, opens⟩
      rcases reason _ _ obtains with ⟨fault, same, -⟩ | ⟨-, closed⟩
      · cases same
      · exact closed place opens
    · simp [status]
  | overlong obtains =>
    refine ⟨nofun, fun escape => ⟨?_, ?_⟩, ?_, by simp, fun _ => rfl⟩
    · rintro ⟨⟩
      exact .inl ⟨_, _, obtains, rfl⟩
    · rintro (⟨output, numeral, obtains', rfl⟩ | ⟨input, output, names, endless, -⟩)
      · obtain ⟨-, same⟩ := obtains.unique obtains'
        cases same
        rfl
      · exact absurd endless (obtains.not_endless names)
    · simp only [not_succeeds_error, false_iff]
      rintro ⟨output, listing, place, obtains', -⟩
      cases (obtains.unique obtains').2
  | endless names endless =>
    refine ⟨nofun, fun escape => ⟨?_, ?_⟩, ?_, by simp, fun _ => rfl⟩
    · rintro ⟨⟩
      exact .inr ⟨_, _, names, endless, rfl⟩
    · rintro (⟨output, numeral, obtains, -⟩ | ⟨input, output, -, -, rfl⟩)
      · exact absurd endless (obtains.not_endless names)
      · rfl
    · simp only [not_succeeds_error, false_iff]
      rintro ⟨output, listing, place, obtains, -⟩
      exact obtains.not_endless names endless
  | written status obtains opens stores =>
    refine ⟨?_, ?_, ?_, ?_, by simp [status]⟩
    · rintro _ ⟨⟩
      exact .inl status
    · refine fun escape => ⟨nofun, ?_⟩
      rintro (⟨output, numeral, obtains', -⟩ | ⟨input, output, names, endless, -⟩)
      · cases (obtains.unique obtains').2
      · exact absurd endless (obtains.not_endless names)
    · simp only [succeeds_ok, status, true_iff]
      exact ⟨_, _, _, obtains, opens⟩
    · rintro - output listing obtains'
      obtain ⟨rfl, same⟩ := obtains.unique obtains'
      cases same
      exact stores

/-- A program with a jump back in the working directory, and a directory for the listing beside that one. -/
def echoes : FileTree :=
  (FileTree.empty.makeFile "in.tac" (Text.encodeUtf8 "again:\r\nread x\nprint x\ngoto again\n")).makeDirectory
    "/tmp/out"

/-- Arguments for that tree: an input from the root on, a switch, and an output above the working directory. -/
def echoArgs : List String :=
  ["/tmp/work/in.tac", "--strict-labels", "../out/./list"]

theorem echoes_allOrNothing :
    AllOrNothing echoArgs echoes (run treeDisk echoArgs echoes).1 (run treeDisk echoArgs echoes).2 ∧
      Succeeds (run treeDisk echoArgs echoes).1 ∧
      ∃ listing, (run treeDisk echoArgs echoes).2.read "../out/./list" = .ok listing ∧
        (run treeDisk echoArgs echoes).2.content? ["tmp", "out", "list"] = some (Text.encodeUtf8 listing) := by
  have law := run_allOrNothing echoArgs echoes (by decide)
  have holds : ∀ bytes, ((FileTree.empty.makeFile "in.tac" bytes).makeDirectory "/tmp/out").readBytes
      "/tmp/work/in.tac" = .ok bytes := fun _ => rfl
  have lowers : (lowerLines (Config.standard true)
      (Text.fileLines "again:\r\nread x\nprint x\ngoto again\n")).1.isOk = true := by
    decide +kernel
  cases lowered : (lowerLines (Config.standard true)
      (Text.fileLines "again:\r\nread x\nprint x\ngoto again\n")).1 with
  | error fault =>
    rw [lowered] at lowers
    cases lowers
  | ok listing =>
    have obtains : Obtains echoArgs echoes "../out/./list" (.ok listing) :=
      ⟨"/tmp/work/in.tac", _, .both (by decide), FileTree.read_eq (holds _), lowered⟩
    have resolved : echoes.resolveNew "../out/./list" = .ok (.vacant ["tmp", "out", "list"]) := by decide +kernel
    have opens : echoes.Opens "../out/./list" (some ["tmp", "out", "list"]) := ⟨_, resolved, .vacant _⟩
    have done : Succeeds (run treeDisk echoArgs echoes).1 := law.succeeds.mpr ⟨_, _, _, obtains, opens⟩
    have stores := law.stores done _ _ obtains
    exact ⟨law, done, listing, stores.reads _ opens, by rw [stores.content _ opens, if_pos rfl]⟩

theorem run_of_silent {invocation : Invocation} {text : String} {fault : Fault} {p : Pass}
    (parsed : parse? args = some invocation) (reads : t.read invocation.input = .ok text)
    (failed : lowerLines (.standard invocation.strictLabels) (Text.fileLines text) = (.error fault, p))
    (silent : fault.isReported = false) : run treeDisk args t = (.error (.pass fault), t) := by
  have performed : treeDisk.read invocation.input t = (.ok text, t) := by
    rw [← reads]
    rfl
  rw [run, parsed]
  simp only [bind, StateT.bind, performed]
  rw [process, failed]
  simp only [silent]
  rfl

theorem fileLines_of_whole {cs : List Char} (filled : cs ≠ []) (whole : ∀ c ∈ cs, Text.isFileBoundary c = false) :
    Text.fileLines (String.ofList cs) = [String.ofList cs] := by
  have one : Text.splitLines Text.isFileBoundary cs = [cs] := by
    fun_induction Text.splitLines Text.isFileBoundary cs with
    | case1 => exact absurd rfl filled
    | case2 rest ih => cases whole '\r' List.mem_cons_self
    | case3 c rest _ boundary ih => cases boundary.symm.trans (whole c List.mem_cons_self)
    | case4 c rest _ _ none => rw [Text.splitLines_eq_nil none]
    | case5 c rest _ _ line lines split ih =>
      have nonempty : rest ≠ [] := by
        rintro rfl
        cases split
      rw [split] at ih
      cases ih nonempty fun c member => whole c (List.mem_cons_of_mem _ member)
      rfl
  rw [Text.fileLines, String.toList_ofList, one]
  rfl

theorem fileLines_zerosLine (n : Nat) :
    Text.fileLines (String.ofList (zerosLine n)) = [String.ofList (zerosLine n)] := by
  have front : "declare_arr a[".toList.all (!Text.isFileBoundary ·) = true := by decide
  have back : "] int".toList.all (!Text.isFileBoundary ·) = true := by decide
  refine fileLines_of_whole (List.cons_ne_nil _ _) fun c member => ?_
  rcases List.mem_append.mp (show c ∈ "declare_arr a[".toList ++ _ from member) with member | member
  · simpa using List.all_eq_true.mp front c member
  · have zeros : c ∈ List.replicate (n + 1) '0' ++ "] int".toList := member
    rcases List.mem_append.mp zeros with member | member
    · rw [List.eq_of_mem_replicate member]
      rfl
    · simpa using List.all_eq_true.mp back c member

/-- A tree with a program in which a length has `n + 1` digits. -/
def holdsZeros (n : Nat) : FileTree :=
  FileTree.empty.makeFile "p.tac" (Text.encodeUtf8 (String.ofList (zerosLine n)))

theorem run_holdsZeros {n : Nat} (long : Text.numeralLimit < n + 1) :
    run treeDisk ["p.tac"] (holdsZeros n) = (.error (.pass (.numeral (.read (n + 1)))), holdsZeros n) := by
  have holds : ∀ bytes, (FileTree.empty.makeFile "p.tac" bytes).readBytes "p.tac" = .ok bytes := fun _ => rfl
  have failed : lowerLines (Config.standard false) (Text.fileLines (String.ofList (zerosLine n))) =
      (.error (.numeral (.read (n + 1))), Pass.start (Config.standard false)) := by
    rw [fileLines_zerosLine, lowerLines, ofLines_zerosLine long]
    rfl
  have parsed : parse? ["p.tac"] = some ⟨"p.tac", "p.asm", false, false⟩ := by decide
  exact run_of_silent parsed (FileTree.read_eq (holds _)) failed rfl

/-- A fault is left to the caller, and there is no status. -/
theorem holdsZeros_escapes :
    ¬ ∃ transcript, (run treeDisk ["p.tac"] (holdsZeros 4300)).1 = .ok transcript := by
  rw [run_holdsZeros (by decide)]
  nofun

end CommandLine

end MipsLowering
