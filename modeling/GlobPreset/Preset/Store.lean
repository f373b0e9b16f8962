import GlobPreset.FileSystem.Disk
import GlobPreset.Preset.Header

/-!
# The preset store

Presets are kept as files of one folder: the nearest one above or in the project, or a new one in
the project.

## Main definitions

* `Session`, `Workflow` — a disk with the warnings so far, and tasks that change them and may
  stop; what was changed until then stays.
* `Preset.findFolder`, `Preset.directoryOf`, `Preset.pathOf` — where presets are kept.
* `Preset.save`, `Preset.load`, `Preset.names`, `Preset.delete` — the requests.
-/

set_option autoImplicit false

namespace GlobPreset

/-! ### Tasks -/

/-- A disk with the warnings so far. -/
structure Session where
  /-- The disk. -/
  disk : Disk
  /-- The warnings, in order. -/
  warnings : List Warning
deriving DecidableEq, Repr

/-- A task that reads and changes a disk, and may stop. -/
abbrev Workflow := ExceptT Fault (StateM Session)

namespace Workflow

/-- The disk. -/
def disk : Workflow Disk := do return (← get).disk

/-- Goes on with a changed disk, or stops. -/
def change (next : Except FileError Disk) : Workflow Unit :=
  match next with
  | .ok d => modify (fun s => { s with disk := d })
  | .error e => throw (.file e)

/-- Goes on with what an attempt left, or stops. -/
def attempt (a : Disk.Attempt) : Workflow Unit := do
  modify (fun s => { s with disk := a.disk })
  match a.failure with
  | none => pure ()
  | some e => throw (.file e)

/-- Warns. -/
def warn (warnings : List Warning) : Workflow Unit :=
  modify (fun s => { s with warnings := s.warnings ++ warnings })

/-- Takes a result, or stops. -/
def take {α : Type} (outcome : Except Fault α) : Workflow α :=
  match outcome with
  | .ok a => pure a
  | .error e => throw e

/-- What a path leads to, if to anything. -/
def probe (path : Text) : Workflow (Option NodeKind) := do
  take (((← disk).probe path).mapError .file)

/-- Takes the result of a report with its warnings. -/
def ofReport {α : Type} (r : Report α) : Workflow α := do
  warn r.warnings
  take r.outcome

end Workflow

namespace Preset

/-! ### Places -/

/-- The name of the folder of a project. -/
def folderName : Text := ".presetc".toText

/-- The name of the folder of presets inside of it. -/
def subfolderName : Text := "presets".toText

/-- What the names of preset files end with. -/
def suffix : Text := ".patterns".toText

/-- The path with the segments that count: none empty, and none a dot. -/
def plainPath (path : Text) : Text :=
  let names := (Path.names path).filter (fun s => decide (s ≠ [.of '.']))
  if path.head? = some (.of '/') then
    Location.anchorText (Location.anchorOf path) ++ Path.ofSegments names
  else if names.isEmpty then [.of '.'] else Path.ofSegments names

/-- A path continued by further names. -/
def within (path : Text) (names : List Text) : Text := Location.joinText (plainPath path) names

/-- The folder of the innermost of some directories that has one, given by its names from the last
one on. -/
def folderAbove (d : Disk) : List Text → Except FileError (Option Text)
  | [] => do
    let folder := within [.of '/'] [folderName]
    return if (← d.probe folder) = some .directory then some folder else none
  | last :: above => do
    let folder := within (Location.below (last :: above).reverse).toText [folderName]
    if (← d.probe folder) = some .directory then return some folder
    folderAbove d above

/-- The folder of the project or of the nearest directory above it that has one. -/
def findFolder (d : Disk) (project : Text) : Except FileError (Option Text) := do
  folderAbove d (Path.names (← d.resolve (plainPath project))).reverse

/-- The directory of the presets of a project. -/
def directoryOf (d : Disk) (project : Text) : Except FileError Text := do
  match ← findFolder d project with
  | some folder => return within folder [subfolderName]
  | none => return within project [folderName, subfolderName]

/-- A name that no preset can have. -/
def isBadName (name : Text) : Bool :=
  name.isEmpty || name == [.of '.'] || name == [.of '.', .of '.'] || name.contains (.of '/') ||
    name.contains (.of '\\') || name.contains (.of '\x00')

/-- The path of a preset. -/
def pathOf (d : Disk) (project name : Text) : Except Fault Text :=
  if isBadName name then .error (.badName name)
  else ((directoryOf d project).map (within · [name ++ suffix])).mapError .file

/-! ### Requests -/

/-- Puts a text where presets are kept, after making their directory. -/
def store (path text : Text) : Workflow Unit := do
  Workflow.attempt ((← Workflow.disk).makeDirectories (Path.parent path))
  Workflow.attempt ((← Workflow.disk).writeText path text)

/-- Saves a preset. One of the same name is replaced only if asked for. -/
def save (now : Timestamp) (project name : Text) (patterns : List Text) (overwrite : Bool)
    (origin : Option PresetFile.Origin) : Workflow Text := do
  let path ← Workflow.take (pathOf (← Workflow.disk) project name)
  if (← Workflow.probe path).isSome && !overwrite then throw (.presetExists name path)
  store path (PresetFile.render name patterns origin now)
  return path

/-- The path of a preset that is there. -/
def existing (project name : Text) : Workflow Text := do
  let path ← Workflow.take (pathOf (← Workflow.disk) project name)
  if (← Workflow.probe path) ≠ some .file then throw (.presetMissing name)
  return path

/-- The content of a file, with line feeds at the ends of lines. -/
def readText (path : Text) : Workflow Text := do
  let content ← Workflow.take (((← Workflow.disk).read path).mapError .file)
  return Text.unifyNewlines content

/-- The patterns of a preset. -/
def load (project name : Text) : Workflow (List Text) := do
  return PresetFile.patternLines (← readText (← existing project name))

/-- The names of all presets, in order. -/
def names (project : Text) : Workflow (List Text) := do
  let d ← Workflow.disk
  let directory ← Workflow.take ((directoryOf d project).mapError .file)
  if (← Workflow.probe directory) ≠ some .directory then return []
  let entries ← Workflow.take ((d.list directory).mapError .file)
  return Text.sort
    ((entries.filter (fun e => Text.endsWith e.name suffix)).map
      (fun e => Text.dropEnd suffix.length e.name))

/-- Deletes a preset. -/
def delete (project name : Text) : Workflow Unit := do
  let path ← existing project name
  Workflow.change ((← Workflow.disk).unlink path)

end Preset

end GlobPreset
