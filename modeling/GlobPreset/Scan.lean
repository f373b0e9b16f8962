import GlobPreset.Fault
import GlobPreset.Path.Policy
import GlobPreset.Walk

/-!
# Scans

A scan lists the files below a directory of the project for the sake of generalizing: it is
complete, or it is unknown. A subtree is unknown if it cannot be listed, is reached through a link
to a directory, or holds a link out of the project, a link to a directory, or an entry that is
neither file nor directory; so is then every directory that contains it. Ignored entries do not
count in any of this.

## Main definitions

* `DirectoryScan` — a complete scan.
* `Scanner` — what a scan depends on.
* `Scanner.visit` — scans a directory and keeps track of the directories it visits.
* `Scanner.scan`, `Scanner.scanProject` — the scan of a directory, and that of the project.
* `Scanner.revisit` — scans a directory unless its scan is known, and keeps the scans it makes.
* `Scanner.session` — scans in a row, each of which knows the scans that were made before.

## Design

A scan depends on the tree alone, so where only the scans matter, `Scanner.visit` makes each of them
anew. A session keeps every scan that it makes, those of subdirectories too; its later requests
look scans up, and warn about a directory only when its scan is made.
-/

set_option autoImplicit false

namespace GlobPreset

/-- A complete scan of a directory. -/
structure DirectoryScan where
  /-- The directory; empty for the project. -/
  directory : Text
  /-- The files below the directory that are not ignored, sorted. -/
  files : List Text
  /-- The files directly inside the directory, by extension. -/
  direct : List (Text × List Text)
  /-- For each extension, whether all files directly inside the directory are selected. -/
  directCovered : List (Text × Bool)
  /-- Some directory inside was scanned too. -/
  hasSubdirectories : Bool
  /-- There are files, and all are selected. -/
  fullySelected : Bool
deriving DecidableEq, Repr

/-- What a scan depends on. -/
structure Scanner where
  /-- The file system. -/
  fs : FileSystem
  /-- The absolute path of the project. -/
  root : Text
  /-- The keys of the selected files. -/
  selected : List Text
  /-- The names that are left out. -/
  ignore : IgnoreRules
  /-- How paths are compared. -/
  policy : CasePolicy

namespace Scanner

/-! ### Entries -/

/-- What an entry means for the scan of its directory. -/
inductive Finding where
  /-- The entry does not count. -/
  | ignored
  /-- The directory is unknown. -/
  | unknown (warning : Option Warning)
  /-- The entry is a directory to be scanned. -/
  | subdirectory
  /-- The entry is a file. -/
  | file
deriving DecidableEq, Repr

/-- The separator of an absolute path. -/
def separatorOf (path : Text) : Text :=
  if path.contains (.of '\\') && !path.contains (.of '/') then [.of '\\'] else [.of '/']

/-- The real path of the project. -/
def realRoot (s : Scanner) : Text := s.fs.realPath s.root

/-- The real path lies in the project. -/
def isInside (s : Scanner) (real : Text) : Bool :=
  Path.isWithin real s.realRoot (separatorOf s.realRoot)

/-- The path is selected. -/
def isSelected (s : Scanner) (path : Text) : Bool := s.selected.contains (s.policy.key path)

/-- An entry is left out by its name. -/
def isIgnored (s : Scanner) (e : Entry) : Bool :=
  match e.kind with
  | .directory => s.ignore.ignoresDirectory e.name
  | .file => s.ignore.ignoresFile e.name
  | .other => false

/-- Looks at an entry of the directory `directory`. -/
def inspect (s : Scanner) (directory : Text) (e : Entry) : Finding :=
  if s.isIgnored e then .ignored
  else if e.isLink && !s.isInside (s.fs.realPath e.path) then
    .unknown (some (.outsideEntry (Path.join directory e.name) (s.fs.realPath e.path) directory))
  else
    match e.kind with
    | .directory => if e.isLink then .unknown none else .subdirectory
    | .file => .file
    | .other => .unknown (some (.specialEntry (Path.join directory e.name) directory))

/-! ### Directories -/

/-- The first visit to a directory, and what it warned about. -/
structure Visit where
  /-- The directory. -/
  directory : Text
  /-- What the visit warned about. -/
  warning : Option Warning
deriving DecidableEq, Repr

/-- The result of visiting a directory. -/
structure Result where
  /-- The scan, unless the directory is unknown. -/
  scan : Option DirectoryScan
  /-- All visits that the scan took, inner directories first. -/
  visits : List Visit
deriving DecidableEq, Repr

/-- What has been found among some entries of a directory. -/
structure Tally where
  /-- The files, of subdirectories too. -/
  files : List Text
  /-- The files directly inside the directory, each with its extension. -/
  direct : List (Text × Text)
  /-- Some entry is a directory. -/
  hasSubdirectories : Bool
deriving DecidableEq, Repr

/-- The result of going through some entries of a directory. -/
structure Progress where
  /-- What has been found, unless the directory is unknown. -/
  tally : Option Tally
  /-- The visits to subdirectories. -/
  visits : List Visit
  /-- Why the directory is unknown. -/
  warning : Option Warning
deriving DecidableEq, Repr

/-- Goes through the entries of a directory; `child` visits a subdirectory. The first entry that
makes the directory unknown ends it. -/
def through (s : Scanner) (child : Text → Result) (directory : Text) : List Entry → Progress
  | [] => ⟨some ⟨[], [], false⟩, [], none⟩
  | e :: rest =>
    let path := Path.join directory e.name
    match s.inspect directory e with
    | .ignored => through s child directory rest
    | .unknown warning => ⟨none, [], warning⟩
    | .file =>
      let p := through s child directory rest
      let add (t : Tally) : Tally :=
        { t with files := path :: t.files, direct := (Path.extension e.name, path) :: t.direct }
      { p with tally := p.tally.map add }
    | .subdirectory =>
      let inner := child path
      match inner.scan with
      | none => ⟨none, inner.visits, none⟩
      | some sub =>
        let p := through s child directory rest
        let add (t : Tally) : Tally :=
          { t with files := sub.files ++ t.files, hasSubdirectories := true }
        ⟨p.tally.map add, inner.visits ++ p.visits, p.warning⟩

/-- The scan of a directory in which `t` was found. -/
def ofTally (s : Scanner) (directory : Text) (t : Tally) : DirectoryScan :=
  let files := Text.sort t.files
  let direct := groupPairs t.direct
  { directory
    files
    direct
    directCovered := direct.map (fun g => (g.1, g.2.all s.isSelected))
    hasSubdirectories := t.hasSubdirectories
    fullySelected := !files.isEmpty && files.all s.isSelected }

/-- A directory that is reached in a way that makes it unknown, and the warning about it. The real
path has to be that of the project continued by the names of the directory. -/
def misplaced? (s : Scanner) (directory : Text) : Option (Option Warning) :=
  let sep := separatorOf s.realRoot
  let real := s.fs.realPath (Path.absolute s.root directory)
  let expected := Text.dropEndWhile sep.contains s.realRoot ++ sep ++
    Text.joinWith sep (Path.segments directory)
  if !s.isInside real then some (some (.outsideDirectory directory real))
  else if s.policy.key real = s.policy.key expected then none
  else some none

/-- Scans a directory of the project, given by its path; the project itself is empty. -/
def visit (s : Scanner) : (fuel : Nat) → Text → Result
  | 0, directory => ⟨none, [⟨directory, none⟩]⟩
  | fuel + 1, directory =>
    let location := Path.absolute s.root directory
    if !s.fs.isDirectory location then ⟨none, [⟨directory, none⟩]⟩
    else
      match (if directory.isEmpty then none else s.misplaced? directory) with
      | some warning => ⟨none, [⟨directory, warning⟩]⟩
      | none =>
        match s.fs.sortedList location with
        | .error e => ⟨none, [⟨directory, some (.unscannable directory e)⟩]⟩
        | .ok entries =>
          let p := s.through (visit s fuel) directory entries
          ⟨p.tally.map (s.ofTally directory), p.visits ++ [⟨directory, p.warning⟩]⟩

/-- Scans a directory as the first request. -/
def request (s : Scanner) (directory : Text) : Result :=
  s.visit (s.fs.depthBound + 1) (Text.dropAround (· == .of '/') directory)

/-- The scan of a directory, given with or without slashes around it. -/
def scan? (s : Scanner) (directory : Text) : Option DirectoryScan := (s.request directory).scan

/-- The scan of the project. -/
def scanProject (s : Scanner) : Option DirectoryScan := s.scan? []

/-- The scan of a directory; the project does not count as one. -/
def scan (s : Scanner) (directory : Text) : Except Fault (Option DirectoryScan) :=
  if directory = [] ∨ directory = [.of '.'] then .error .projectScan else .ok (s.scan? directory)

/-! ### Requests in a row -/

/-- The first visit to each directory. -/
def firstVisits : List Visit → List Visit
  | [] => []
  | v :: rest => v :: (firstVisits rest).filter (fun w => decide (w.directory ≠ v.directory))

/-- All visits that some requests take. -/
def visits (s : Scanner) (requests : List Text) : List Visit :=
  requests.flatMap (fun d => (s.request d).visits)

/-- What first visits warn about, apart from visits to directories that are already known. -/
def newWarnings (known new : List Visit) : List Warning :=
  ((firstVisits new).filter (fun v => !known.any (fun k => k.directory = v.directory))).filterMap
    (fun v => v.warning)

/-- What some requests in a row warn about; a repeated request takes no new visit. -/
def warnings (s : Scanner) (requests : List Text) : List Warning :=
  newWarnings [] (s.visits (dedupe requests))

/-! ### Scans that are known -/

/-- The scans that are known, each with its directory. -/
abbrev Known := List (Text × Option DirectoryScan)

/-- The result of a step that makes use of known scans. -/
structure Recalled (α : Type) where
  /-- The result. -/
  value : α
  /-- The scans that are known after the step. -/
  known : Known
  /-- What the step warned about. -/
  warnings : List Warning

/-- Goes through the entries of a directory as `through` does; `child` scans a subdirectory with the
scans that are known so far. -/
def throughKnown (s : Scanner) (child : Known → Text → Recalled (Option DirectoryScan))
    (directory : Text) : Known → List Entry → Recalled (Option Tally)
  | known, [] => ⟨some ⟨[], [], false⟩, known, []⟩
  | known, e :: rest =>
    let path := Path.join directory e.name
    match s.inspect directory e with
    | .ignored => throughKnown s child directory known rest
    | .unknown warning => ⟨none, known, warning.toList⟩
    | .file =>
      let p := throughKnown s child directory known rest
      let add (t : Tally) : Tally :=
        { t with files := path :: t.files, direct := (Path.extension e.name, path) :: t.direct }
      { p with value := p.value.map add }
    | .subdirectory =>
      let inner := child known path
      match inner.value with
      | none => ⟨none, inner.known, inner.warnings⟩
      | some sub =>
        let p := throughKnown s child directory inner.known rest
        let add (t : Tally) : Tally :=
          { t with files := sub.files ++ t.files, hasSubdirectories := true }
        ⟨p.value.map add, p.known, inner.warnings ++ p.warnings⟩

/-- Scans a directory that is not known yet; `child` scans a subdirectory. -/
def build (s : Scanner) (child : Known → Text → Recalled (Option DirectoryScan)) (known : Known)
    (directory : Text) : Recalled (Option DirectoryScan) :=
  let location := Path.absolute s.root directory
  if !s.fs.isDirectory location then ⟨none, known, []⟩
  else
    match (if directory.isEmpty then none else s.misplaced? directory) with
    | some warning => ⟨none, known, warning.toList⟩
    | none =>
      match s.fs.sortedList location with
      | .error e => ⟨none, known, [.unscannable directory e]⟩
      | .ok entries =>
        let p := s.throughKnown child directory known entries
        ⟨p.value.map (s.ofTally directory), p.known, p.warnings⟩

/-- Looks the scan of a directory up, or makes it and keeps it from then on. -/
def revisit (s : Scanner) : (fuel : Nat) → Known → Text → Recalled (Option DirectoryScan)
  | 0, known, _ => ⟨none, known, []⟩
  | fuel + 1, known, directory =>
    match lookup? directory known with
    | some scan => ⟨scan, known, []⟩
    | none =>
      let built := s.build (revisit s fuel) known directory
      ⟨built.value, (directory, built.value) :: built.known, built.warnings⟩

/-- Answers one request, `none` being the project. -/
def answer (s : Scanner) (known : Known) (request : Option Text) :
    Recalled (Except Fault (Option DirectoryScan)) :=
  if request = some [] ∨ request = some [.of '.'] then ⟨.error .projectScan, known, []⟩
  else
    let r := s.revisit (s.fs.depthBound + 1) known
      (Text.dropAround (· == .of '/') (request.getD []))
    ⟨.ok r.value, r.known, r.warnings⟩

/-- Requests in a row: what each gives, and what it warns about. -/
def session (s : Scanner) (known : Known) :
    List (Option Text) → List (Report (Option DirectoryScan))
  | [] => []
  | request :: rest =>
    let r := s.answer known request
    ⟨r.value, r.warnings⟩ :: session s r.known rest

end Scanner

end GlobPreset
