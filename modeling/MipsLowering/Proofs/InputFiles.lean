import MipsLowering.Proofs.CommandRuns
import MipsLowering.Proofs.ListingText

/-! # What a run does to the file that it reads

A run that is given no output puts the listing beside the input, under the name of the input with another extension.
This is a file of its own for every input that is not itself named like a listing, and so the input stays as it is.
An input that is named like a listing is replaced as soon as it can be lowered, and this always changes it: no listing
is its own program. -/

namespace MipsLowering

/-! ## The path of the listing -/

namespace CommandLine

/-- What a path has in front of its last name: nothing, or all up to a slash. -/
def IsFolder (folder : List Char) : Prop :=
  folder = [] ∨ ∃ above, folder = above ++ ['/']

/-- The last name of a path is a stem with the extension of listings.  A stem is more than points. -/
def NamesListing (path : List Char) : Prop :=
  ∃ folder stem, path = folder ++ (stem ++ ".asm".toList) ∧ IsFolder folder ∧ '/' ∉ stem ∧ ∃ c ∈ stem, c ≠ '.'

theorem IsFolder.reverse {folder : List Char} (isFolder : IsFolder folder) :
    folder.reverse = [] ∨ ∃ rest, folder.reverse = '/' :: rest := by
  rcases isFolder with rfl | ⟨above, rfl⟩
  · exact .inl rfl
  · exact .inr ⟨above.reverse, by simp⟩

/-- A path cut behind its last slash. -/
theorem IsFolder.cut {folder last : List Char} (isFolder : IsFolder folder) (plain : '/' ∉ last) :
    (folder ++ last).reverse.takeWhile (· != '/') = last.reverse ∧
      (folder ++ last).reverse.dropWhile (· != '/') = folder.reverse := by
  have inLast : ∀ c ∈ last.reverse, (c != '/') = true := by
    intro c member
    rw [bne_iff_ne]
    rintro rfl
    exact plain (List.mem_reverse.mp member)
  rw [List.reverse_append, List.takeWhile_append_of_pos inLast, List.dropWhile_append_of_pos inLast]
  rcases isFolder.reverse with none | ⟨rest, slash⟩
  · rw [none]
    exact ⟨List.append_nil _, rfl⟩
  · rw [slash]
    exact ⟨List.append_nil _, rfl⟩

theorem exists_folder (path : List Char) : ∃ folder last, path = folder ++ last ∧ IsFolder folder ∧ '/' ∉ last := by
  refine ⟨(path.reverse.dropWhile (· != '/')).reverse, (path.reverse.takeWhile (· != '/')).reverse, ?_, ?_, ?_⟩
  · rw [← List.reverse_append, List.takeWhile_append_dropWhile, List.reverse_reverse]
  · cases cut : path.reverse.dropWhile (· != '/') with
    | nil => exact .inl rfl
    | cons c rest =>
      have stops := List.head?_dropWhile_not (· != '/') path.reverse
      rw [cut] at stops
      have slash : c = '/' := by simpa using stops
      exact .inr ⟨rest.reverse, by rw [slash, List.reverse_cons]⟩
  · intro inside
    simpa using List.all_eq_true.mp List.all_takeWhile '/' (List.mem_reverse.mp inside)

/-- An extension is cut off if there is more than points in front of it. -/
theorem withoutExtension_append {folder stem ext : List Char} (isFolder : IsFolder folder) (stemPlain : '/' ∉ stem)
    (extPlain : '/' ∉ ext) (noPoint : '.' ∉ ext) (filled : ∃ c ∈ stem, c ≠ '.') :
    withoutExtension (folder ++ (stem ++ '.' :: ext)) = folder ++ stem := by
  have plain : '/' ∉ stem ++ '.' :: ext := by simp [stemPlain, extPlain]
  have inExt : ∀ c ∈ ext.reverse, (c != '.') = true := by
    intro c member
    rw [bne_iff_ne]
    rintro rfl
    exact noPoint (List.mem_reverse.mp member)
  have ends : (stem ++ '.' :: ext).reverse.dropWhile (· != '.') = '.' :: stem.reverse := by
    rw [List.reverse_append, List.reverse_cons, List.append_assoc, List.dropWhile_append_of_pos inExt]
    rfl
  have some : stem.reverse.any (· != '.') = true := by simpa using filled
  obtain ⟨last, front⟩ := isFolder.cut plain
  simp only [withoutExtension, last, front, ends, some, if_true, List.reverse_reverse]

/-- The listing goes to the folder of the input, under a name that begins like the last name of the input. -/
theorem withoutExtension_cases {folder last : List Char} (isFolder : IsFolder folder) (plain : '/' ∉ last) :
    withoutExtension (folder ++ last) = folder ++ last ∨
      ∃ stem ext, last = stem ++ '.' :: ext ∧ (∃ c ∈ stem, c ≠ '.') ∧
        withoutExtension (folder ++ last) = folder ++ stem := by
  obtain ⟨lastName, front⟩ := isFolder.cut plain
  simp only [withoutExtension, lastName, front]
  split
  next c stem cut =>
    split
    next some =>
      right
      -- Read from its end, the last name is cut at its last point.
      have stops := List.head?_dropWhile_not (· != '.') last.reverse
      rw [cut] at stops
      have point : c = '.' := by simpa using stops
      have whole : last.reverse = last.reverse.takeWhile (· != '.') ++ '.' :: stem := by
        rw [point] at cut
        rw [← cut, List.takeWhile_append_dropWhile]
      refine ⟨stem.reverse, (last.reverse.takeWhile (· != '.')).reverse, ?_, by simpa using some, by simp⟩
      have back := congrArg List.reverse whole
      simpa using back
    next => exact .inl rfl
  next => exact .inl rfl

/-- The listing takes the place of the input if this is named like a listing. -/
theorem defaultOutput_eq_self_iff (path : String) : defaultOutput path = path ↔ NamesListing path.toList := by
  have spelled : defaultOutput path = path ↔ withoutExtension path.toList ++ ".asm".toList = path.toList := by
    rw [← String.toList_inj, defaultOutput, String.toList_append, String.toList_ofList]
  rw [spelled]
  constructor
  · intro same
    obtain ⟨folder, last, shape, isFolder, plain⟩ := exists_folder path.toList
    rw [shape] at same ⊢
    rcases withoutExtension_cases isFolder plain with whole | ⟨stem, ext, rfl, filled, cut⟩
    · rw [whole] at same
      have longer := congrArg List.length same
      simp at longer
    · rw [cut, List.append_assoc, List.append_cancel_left_eq] at same
      refine ⟨folder, stem, by rw [same], isFolder, fun slash => plain ?_, filled⟩
      exact List.mem_append_left _ slash
  · rintro ⟨folder, stem, shape, isFolder, plain, filled⟩
    rw [shape]
    have cut : withoutExtension (folder ++ (stem ++ ".asm".toList)) = folder ++ stem :=
      withoutExtension_append isFolder plain (by decide) (by decide) filled
    rw [cut, List.append_assoc]

end CommandLine

/-! ## Files of one folder -/

namespace FileTree

open CommandLine (IsFolder)

variable {t : FileTree} {path : String} {folder last : List Char}

theorem names_of_folder (shape : path.toList = folder ++ last) (isFolder : IsFolder folder) (plain : '/' ∉ last)
    (filled : last ≠ []) : names path = names (String.ofList folder) ++ [String.ofList last] := by
  have whole : last.splitOn '/' = [last] := by
    refine List.splitOnP_eq_singleton fun c member => ?_
    simpa using fun same : c = '/' => plain (same ▸ member)
  have kept : [last].filter (!·.isEmpty) = [last] := by simpa using filled
  rw [names, names, shape, String.toList_ofList]
  rcases isFolder with rfl | ⟨above, rfl⟩
  · rw [List.nil_append, whole, kept]
    rfl
  · have front : (above ++ ['/']).splitOn '/' = above.splitOn '/' ++ [[]] :=
      List.splitOnP_append_cons above [] (beq_self_eq_true '/')
    have all : (above ++ ['/'] ++ last).splitOn '/' = above.splitOn '/' ++ last.splitOn '/' := by
      rw [List.append_assoc]
      exact List.splitOnP_append_cons above last (beq_self_eq_true '/')
    rw [front, all, whole, List.filter_append, List.filter_append, kept]
    simp

/-- A walk that ends at no directory ends with an entry of the directory that all its other steps lead to. -/
theorem exists_of_walk_concat {here : Place} {front : List String} {name : String} {spot : Spot}
    (walked : t.walk here (front ++ [name]) = .ok spot) (other : ∀ there, spot ≠ .directory there) :
    ∃ there, t.walk here front = .ok (.directory there) ∧ t.entry there name = spot := by
  -- The last step leads to no directory, so it is neither a point, nor two, nor the name of a directory.
  have goesOn : ∀ {there : Place}, t.walk there [] ≠ .ok spot := by
    intro there ends
    cases ends
    exact other there rfl
  generalize steps : front ++ [name] = whole at walked
  fun_induction walk t here whole generalizing front with
  | case1 => simp at steps
  | case2 here rest ih | case3 here rest ih =>
    cases front with
    | nil =>
      cases steps
      exact absurd walked goesOn
    | cons step front =>
      obtain ⟨rfl, rest⟩ := List.cons.inj steps
      obtain ⟨there, led, entry⟩ := ih rest walked
      exact ⟨there, led, entry⟩
  | case5 here step rest notHere notUp short there found ih =>
    cases front with
    | nil =>
      cases steps
      exact absurd walked goesOn
    | cons step front =>
      obtain ⟨rfl, rest⟩ := List.cons.inj steps
      rw [walk, if_neg short]
      exacts [ih rest walked, notHere, notUp, found]
  | case6 here step notHere notUp short noDirectory =>
    cases front with
    | nil =>
      cases steps
      exact ⟨here, rfl, Except.ok.inj walked⟩
    | cons step front => simp at steps
  | case4 | case7 | case8 | case9 => cases walked

theorem origin_append (isFolder : IsFolder folder) (plain : '/' ∉ last) :
    t.origin (folder ++ last) = t.origin folder := by
  rcases isFolder with rfl | ⟨above, rfl⟩
  · have other : last.head? ≠ some '/' := fun head => plain (List.mem_of_head? head)
    simp [origin, other]
  · rw [origin, List.head?_append_of_ne_nil _ (by simp), ← origin]

theorem exists_of_resolve {spot : Spot} (resolved : t.resolve path = .ok spot)
    (other : ∀ there, spot ≠ .directory there) (shape : path.toList = folder ++ last) (isFolder : IsFolder folder)
    (plain : '/' ∉ last) (filled : last ≠ []) :
    ∃ there, t.walk (t.origin folder) (names (String.ofList folder)) = .ok (.directory there) ∧
      t.entry there (String.ofList last) = spot := by
  obtain ⟨-, -, -, walked⟩ := walkFor_eq_ok_iff.mp resolved
  rw [names_of_folder shape isFolder plain filled, shape, origin_append isFolder plain] at walked
  exact exists_of_walk_concat walked other

theorem Spot.Takes.ne_directory {spot : Spot} {place : Option Place} (takes : spot.Takes place) (there : Place) :
    spot ≠ .directory there := by
  rintro rfl
  cases takes

/-- Two names of one folder stand for different places. -/
theorem not_takes_of_ne {path' : String} {last' : List Char} {spot spot' : Spot} {place : Place}
    (resolved : t.resolve path = .ok spot) (resolved' : t.resolve path' = .ok spot') (takes' : spot'.Takes (some place))
    (isFolder : IsFolder folder) (shape : path.toList = folder ++ last) (shape' : path'.toList = folder ++ last')
    (plain : '/' ∉ last) (plain' : '/' ∉ last') (filled : last ≠ []) (filled' : last' ≠ []) (differs : last ≠ last') :
    ¬ spot.Takes (some place) := by
  intro takes
  obtain ⟨there, led, rfl⟩ := exists_of_resolve resolved takes.ne_directory shape isFolder plain filled
  obtain ⟨there', led', rfl⟩ := exists_of_resolve resolved' takes'.ne_directory shape' isFolder plain' filled'
  -- Both names are looked up in the directory that the folder leads to.
  cases led.symm.trans led'
  obtain ⟨named, -⟩ := entry_of_takes takes
  obtain ⟨named', -⟩ := entry_of_takes takes'
  have names : String.ofList last = String.ofList last' := by simpa using named.symm.trans named'
  exact differs (String.ofList_injective names)

/-! ## What is written elsewhere -/

/-- What is the same in a tree after something was put at a place, or nowhere in the tree. -/
structure Agrees (t later : FileTree) (place : Option Place) : Prop where
  frame : later = { t with files := later.files }
  content : ∀ other, place ≠ some other → later.content? other = t.content? other

theorem Stores.agrees {text : String} {later : FileTree} {place : Option Place} (stores : t.Stores path text later)
    (opens : t.Opens path place) : t.Agrees later place :=
  ⟨stores.frame, fun other apart => by rw [stores.content place opens, if_neg apart]⟩

variable {later : FileTree} {place : Option Place}

theorem Agrees.origin_eq (agrees : t.Agrees later place) (path : List Char) : later.origin path = t.origin path := by
  rw [agrees.frame]
  rfl

theorem Agrees.entry_eq (agrees : t.Agrees later place) {here : Place} {name : String}
    (apart : ∀ site, place = some site → ¬ (t.entry here name).Takes (some site)) :
    later.entry here name = t.entry here name := by
  have same : later.isDirectory (here ++ [name]) = t.isDirectory (here ++ [name]) := by
    rw [agrees.frame]
    rfl
  have devices : later.devices = t.devices := by rw [agrees.frame]
  simp only [entry, same, devices] at apart ⊢
  cases known : t.isDirectory (here ++ [name]) with
  | true => rfl
  | false =>
    cases device : t.devices.lookup (here ++ [name]) with
    | some device => rfl
    | none =>
      have elsewhere : place ≠ some (here ++ [name]) := by
        intro changed
        refine apart _ changed ?_
        simp only [known, device]
        cases t.content? (here ++ [name]) with
        | none => exact .vacant _
        | some bytes => exact .file _ bytes
      rw [agrees.content _ elsewhere]

theorem Agrees.walk_eq (agrees : t.Agrees later place) {here : Place} {steps : List String} {spot : Spot}
    (walked : t.walk here steps = .ok spot) (apart : ∀ site, place = some site → ¬ spot.Takes (some site)) :
    later.walk here steps = .ok spot := by
  fun_induction walk t here steps with
  | case1 => exact walked
  | case2 here rest ih | case3 here rest ih => exact ih walked
  -- A directory on the way is not the place that has changed, since nothing can be kept at a directory.
  | case5 here name rest notHere notUp short there found ih =>
    have same : later.entry here name = .directory there := by
      rw [agrees.entry_eq, found]
      rw [found]
      intro site _ takes
      cases takes
    rw [walk, if_neg short]
    exacts [ih walked, notHere, notUp, same]
  | case6 here name notHere notUp short noDirectory =>
    cases walked
    have same := agrees.entry_eq apart
    cases held : t.entry here name with
    | directory there => exact absurd held (noDirectory there)
    | file | device | vacant =>
      rw [held] at same
      simp [walk, short, same]
  | case4 | case7 | case8 | case9 => cases walked

theorem Agrees.readBytes_eq (agrees : t.Agrees later place) {spot : Spot} (resolved : t.resolve path = .ok spot)
    (apart : ∀ site, place = some site → ¬ spot.Takes (some site)) : later.readBytes path = t.readBytes path := by
  have same : later.resolve path = t.resolve path := by
    rw [resolved]
    obtain ⟨clean, filled, short, walked⟩ := walkFor_eq_ok_iff.mp resolved
    exact walkFor_eq_ok_iff.mpr ⟨clean, filled, short, agrees.origin_eq _ ▸ agrees.walk_eq walked apart⟩
  rw [readBytes, same, ← readBytes]

/-- A path leads to a file of the tree, and not to a device. -/
def IsFile (t : FileTree) (path : String) : Prop :=
  ∃ place bytes, t.resolve path = .ok (.file place bytes)

/-- What can be read is a file of the tree or a device. -/
theorem resolve_of_read {text : String} (reads : t.read path = .ok text) :
    endsWithSlash path = false ∧ ∃ spot, t.resolve path = .ok spot ∧
      ((∃ place bytes, spot = .file place bytes) ∨ ∃ device, spot = .device device) := by
  rw [read, readBytes] at reads
  cases resolved : t.resolve path with
  | error fault =>
    rw [resolved] at reads
    cases reads
  | ok spot =>
    rw [resolved] at reads
    cases spot with
    | directory there => cases reads
    | vacant place => cases reads
    | file place bytes =>
      cases slash : endsWithSlash path with
      | true =>
        simp only [slash, if_true] at reads
        cases reads
      | false => exact ⟨rfl, _, rfl, .inl ⟨place, bytes, rfl⟩⟩
    | device device =>
      cases slash : endsWithSlash path with
      | true =>
        simp only [slash, if_true] at reads
        cases reads
      | false => exact ⟨rfl, _, rfl, .inr ⟨device, rfl⟩⟩

end FileTree

/-! ## Runs without an output -/

namespace CommandLine

variable {args : List String} {t : FileTree} {input text : String}

/-- The file to read and the listing are two names of one folder. -/
theorem exists_names (reads : t.read input = .ok text) :
    ∃ folder last last', IsFolder folder ∧ input.toList = folder ++ last ∧
      (defaultOutput input).toList = folder ++ last' ∧ '/' ∉ last ∧ '/' ∉ last' ∧ last ≠ [] ∧ last' ≠ [] := by
  obtain ⟨folder, last, shape, isFolder, plain⟩ := exists_folder input.toList
  -- Without a last name the input would be empty or end with a slash, and neither can be read.
  have filled : last ≠ [] := by
    rintro rfl
    obtain ⟨noSlash, spot, resolved, -⟩ := FileTree.resolve_of_read reads
    rw [List.append_nil] at shape
    rcases isFolder with rfl | ⟨above, rfl⟩
    · obtain ⟨-, filled, -⟩ := FileTree.walkFor_eq_ok_iff.mp resolved
      rw [String.toList_eq_nil_iff.mp shape] at filled
      cases filled
    · rw [FileTree.endsWithSlash, shape, List.getLast?_concat] at noSlash
      cases noSlash
  have begins : ∃ stem, '/' ∉ stem ∧ withoutExtension input.toList = folder ++ stem := by
    rw [shape]
    rcases withoutExtension_cases isFolder plain with whole | ⟨stem, ext, rfl, -, cut⟩
    · exact ⟨last, plain, whole⟩
    · exact ⟨stem, fun slash => plain (List.mem_append_left _ slash), cut⟩
  obtain ⟨stem, stemPlain, cut⟩ := begins
  refine ⟨folder, last, stem ++ ".asm".toList, isFolder, shape, ?_, plain, ?_, filled, by simp⟩
  · rw [defaultOutput, String.toList_append, String.toList_ofList, cut, List.append_assoc]
  · rw [List.mem_append, not_or]
    exact ⟨stemPlain, by decide⟩

theorem clean_of_reads (only : args.filter (!switches.contains ·) = [input]) (reads : t.read input = .ok text) :
    ∀ arg ∈ args, '\x00' ∉ arg.toList := by
  have plain : ∀ arg ∈ switches, '\x00' ∉ arg.toList := by decide
  intro arg member
  by_cases switch : arg ∈ switches
  · exact plain arg switch
  · have kept : arg ∈ args.filter (!switches.contains ·) := List.mem_filter.mpr ⟨member, by simpa using switch⟩
    rw [only, List.mem_singleton] at kept
    obtain ⟨-, spot, resolved, -⟩ := FileTree.resolve_of_read reads
    rw [kept]
    exact (FileTree.walkFor_eq_ok_iff.mp resolved).1

/-- A run without an output leaves the tree alone or writes the listing beside the input. -/
theorem later_cases (only : args.filter (!switches.contains ·) = [input]) (reads : t.read input = .ok text) :
    ((run treeDisk args t).2 = t ∧
      ∀ listing place, (lowerLines (settings args) (Text.fileLines text)).1 = .ok listing →
        ¬ t.Opens (defaultOutput input) place) ∨
    ∃ listing place, (lowerLines (settings args) (Text.fileLines text)).1 = .ok listing ∧
      t.Opens (defaultOutput input) place ∧ t.Stores (defaultOutput input) listing (run treeDisk args t).2 := by
  have obtains : Obtains args t (defaultOutput input) (lowerLines (settings args) (Text.fileLines text)).1 :=
    ⟨input, text, .input only, reads, rfl⟩
  generalize left : run treeDisk args t = left
  cases left ▸ ends_run args t (clean_of_reads only reads) with
  | failed status ends reason =>
    refine .inl ⟨rfl, fun listing place lowered opens => ?_⟩
    rcases reason _ _ obtains with ⟨fault, failed, -⟩ | ⟨-, closed⟩
    · cases failed.symm.trans lowered
    · exact closed place opens
  | overlong obtains' =>
    refine .inl ⟨rfl, fun listing place lowered _ => ?_⟩
    cases lowered.symm.trans (obtains.unique obtains').2
  | endless names endless => exact absurd endless (obtains.not_endless names)
  | written status obtains' opens stores =>
    obtain ⟨rfl, lowered⟩ := obtains'.unique obtains
    exact .inr ⟨_, _, lowered.symm, opens, stores⟩

/-- The input stays as it is if the listing goes to another place. -/
theorem readBytes_run (only : args.filter (!switches.contains ·) = [input]) (reads : t.read input = .ok text)
    (apart : ∀ spot place, t.resolve input = .ok spot → t.Opens (defaultOutput input) (some place) →
      ¬ spot.Takes (some place)) :
    (run treeDisk args t).2.readBytes input = t.readBytes input := by
  rcases later_cases only reads with ⟨same, -⟩ | ⟨listing, place, -, opens, stores⟩
  · rw [same]
  · obtain ⟨-, spot, resolved, -⟩ := FileTree.resolve_of_read reads
    refine (stores.agrees opens).readBytes_eq resolved ?_
    rintro site rfl
    exact apart spot site resolved opens

theorem readBytes_run_of_ne (only : args.filter (!switches.contains ·) = [input]) (reads : t.read input = .ok text)
    (apart : defaultOutput input ≠ input) : (run treeDisk args t).2.readBytes input = t.readBytes input := by
  obtain ⟨folder, last, last', isFolder, shape, shape', plain, plain', filled, filled'⟩ := exists_names reads
  have differs : last ≠ last' := by
    rintro rfl
    exact apart (String.toList_inj.mp (shape'.trans shape.symm))
  refine readBytes_run only reads fun spot place resolved opens => ?_
  obtain ⟨spot', resolved', takes', -⟩ := opens.resolve
  exact FileTree.not_takes_of_ne resolved resolved' takes' isFolder shape shape' plain plain' filled filled' differs

/-- What is read and is no file of the tree is a device, in which nothing is kept. -/
theorem readBytes_run_of_not_isFile (only : args.filter (!switches.contains ·) = [input])
    (reads : t.read input = .ok text) (device : ¬ t.IsFile input) :
    (run treeDisk args t).2.readBytes input = t.readBytes input := by
  refine readBytes_run only reads fun spot place resolved _ takes => ?_
  obtain ⟨-, spot', resolved', kind⟩ := FileTree.resolve_of_read reads
  cases resolved.symm.trans resolved'
  rcases kind with ⟨site, bytes, rfl⟩ | ⟨device, rfl⟩
  · exact device ⟨site, bytes, resolved⟩
  · cases takes

theorem read_run_of_namesListing {listing : String} (only : args.filter (!switches.contains ·) = [input])
    (reads : t.read input = .ok text) (named : NamesListing input.toList) (isFile : t.IsFile input)
    (lowered : (lowerLines (settings args) (Text.fileLines text)).1 = .ok listing) :
    (run treeDisk args t).2.read input = .ok listing := by
  have itself : defaultOutput input = input := (defaultOutput_eq_self_iff input).mpr named
  obtain ⟨place, bytes, resolved⟩ := isFile
  have opens : t.Opens input (some place) := by
    refine ⟨_, ?_, .file place bytes⟩
    rw [FileTree.resolveNew, (FileTree.resolve_of_read reads).1]
    exact resolved
  rcases later_cases only reads with ⟨-, closed⟩ | ⟨listing', place', lowered', -, stores⟩
  · rw [itself] at closed
    exact absurd opens (closed listing _ lowered)
  · cases lowered.symm.trans lowered'
    rw [itself] at stores
    exact stores.reads place opens

/-- A run without an output keeps the input unless it is a file that is named like a listing and can be lowered.  Then
    it holds the listing. -/
theorem run_keeps_input_iff (only : args.filter (!switches.contains ·) = [input]) (reads : t.read input = .ok text) :
    (∀ path, defaultOutput path = path ↔ NamesListing path.toList) ∧
    ((run treeDisk args t).2.readBytes input = t.readBytes input ↔
      ¬ (NamesListing input.toList ∧ t.IsFile input ∧
        ∃ listing, (lowerLines (settings args) (Text.fileLines text)).1 = .ok listing)) ∧
    ∀ listing, NamesListing input.toList → t.IsFile input →
      (lowerLines (settings args) (Text.fileLines text)).1 = .ok listing →
        (run treeDisk args t).2.read input = .ok listing := by
  have replaced : ∀ listing, NamesListing input.toList → t.IsFile input →
      (lowerLines (settings args) (Text.fileLines text)).1 = .ok listing →
        (run treeDisk args t).2.read input = .ok listing :=
    fun listing named isFile lowered => read_run_of_namesListing only reads named isFile lowered
  refine ⟨defaultOutput_eq_self_iff, ⟨?_, fun kept => ?_⟩, replaced⟩
  · rintro same ⟨named, isFile, listing, lowered⟩
    have later := replaced listing named isFile lowered
    rw [FileTree.read, same, ← FileTree.read, reads] at later
    exact listing_ne_text lowered (Except.ok.inj later).symm
  · by_cases named : NamesListing input.toList
    · by_cases isFile : t.IsFile input
      · rcases later_cases only reads with ⟨same, -⟩ | ⟨listing, -, lowered, -, -⟩
        · rw [same]
        · exact absurd ⟨named, isFile, listing, lowered⟩ kept
      · exact readBytes_run_of_not_isFile only reads isFile
    · exact readBytes_run_of_ne only reads fun same => named ((defaultOutput_eq_self_iff input).mp same)

/-- A program under a name without an extension, in a folder with a point in its name, and again under the name of a
    listing. -/
def twoNames : FileTree :=
  (FileTree.empty.makeFile "/srv/v1.2/print" (Text.encodeUtf8 "print 1\n")).makeFile "print.asm"
    (Text.encodeUtf8 "print 1\n")

theorem twoNames_keeps_input :
    (run treeDisk ["/srv/v1.2/print", "-v"] twoNames).2.readBytes "/srv/v1.2/print" =
        twoNames.readBytes "/srv/v1.2/print" ∧
      ((run treeDisk ["/srv/v1.2/print", "-v"] twoNames).2.read "/srv/v1.2/print.asm").isOk = true := by
  have reads : twoNames.read "/srv/v1.2/print" = .ok "print 1\n" := FileTree.read_eq rfl
  obtain ⟨itself, kept, -⟩ :=
    @run_keeps_input_iff ["/srv/v1.2/print", "-v"] twoNames "/srv/v1.2/print" _ (by decide) reads
  refine ⟨kept.mpr ?_, by decide +kernel⟩
  rintro ⟨named, -⟩
  exact absurd ((itself "/srv/v1.2/print").mpr named) (by decide +kernel)

/-- A program under the name of a listing is lost. -/
theorem twoNames_loses_input :
    defaultOutput "print.asm" = "print.asm" ∧
      twoNames.read "print.asm" = .ok "print 1\n" ∧
      (run treeDisk ["print.asm"] twoNames).2.readBytes "print.asm" ≠ twoNames.readBytes "print.asm" := by
  decide +kernel

end CommandLine

end MipsLowering
