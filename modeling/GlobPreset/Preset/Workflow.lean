import GlobPreset.Diff.Unified
import GlobPreset.Input
import GlobPreset.Preset.Store

/-!
# Making and renewing presets

A preset is made from inputs of all kinds: globs are kept as they are, directories become patterns
of everything below them, and files are compiled. A preset is renewed by expanding it and compiling
the files again; the difference to the stored text is shown, and written back if asked for.

## Main definitions

* `Preset.splitInputs` — the inputs of chunks with commas and lines.
* `Preset.create` — makes a preset.
* `Preset.Renewal`, `Preset.renew` — a renewed preset, and how it is obtained.
* `Preset.listFiles` — the files of a stored pattern list.
-/

set_option autoImplicit false

namespace GlobPreset.Preset

open Text

/-! ### Making -/

/-- Reads a carriage return in front of a line feed, and a line feed, as a comma. -/
def commasForLines : Text → Text
  | [] => []
  | .of '\r' :: .of '\n' :: rest => .of ',' :: commasForLines rest
  | c :: rest => (if c = .of '\n' then .of ',' else c) :: commasForLines rest

/-- The inputs of chunks in which commas and line ends separate them. -/
def splitInputs (chunks : List Text) : List Text :=
  ((chunks.flatMap (fun c => splitOn (.of ',') (commasForLines c))).map strip).filter
    (fun i => !i.isEmpty)

/-- What a number of entries is a number of. -/
def counted (n : Nat) (what : String) : Text := ofNat n ++ .of ' ' :: what.toText

/-- What a header tells about the source of a preset. -/
def describeSource (s : InputSorting) (fileCount : Nat) (result : Option Compilation) : Text :=
  let arrow (c : Compilation) (kind : String) : Text :=
    ofNat fileCount ++ kind.toText ++ " → ".toText ++ counted c.stats.finalPatterns "patterns"
  if s.isMixed then
    let parts :=
      (if s.patterns.isEmpty then [] else [counted s.patterns.length "patterns preserved"]) ++
      (if s.directories.isEmpty then [] else [counted s.directories.length "directories"]) ++
      (result.map (fun c => arrow c " files")).toList
    "mixed (".toText ++ joinWith [.of ',', .of ' '] parts ++ [.of ')']
  else if !s.patterns.isEmpty then
    "patterns preserved (".toText ++ ofNat s.patterns.length ++ [.of ')']
  else if !s.directories.isEmpty then
    "directories converted (".toText ++ ofNat s.directories.length ++ [.of ')']
  else
    match result with
    | some c => "files optimized (".toText ++ arrow c "" ++ [.of ')']
    | none => []

/-- The file inputs that are files of the project; the others are warned about. -/
def keepFiles (project : Text) : List Text → Workflow (List Text)
  | [] => pure []
  | file :: rest => do
    Workflow.take ((Path.checkSafe Selection.role file).mapError .unsafePath)
    if (← Workflow.probe (plainPath (Location.joinSegment project file))) = some .file then
      return file :: (← keepFiles project rest)
    else
      Workflow.warn [.skippedInput file project]
      keepFiles project rest

/-- Compiles the files of a preset, if there are any. -/
def compileFiles (project : Text) (context : Context) (level : Level) (files : List Text) :
    Workflow (Option Compilation) := do
  if files.isEmpty then return none
  let d ← Workflow.disk
  return some (← Workflow.ofReport (compileSelection d.fileSystem project context level files))

/-- Makes a preset from inputs, and one with a template from none. -/
def create (now : Timestamp) (project name : Text) (inputs : List Text) (level : Text)
    (context : Context) : Workflow Text := do
  let level ← Workflow.take ((Level.parse level).mapError .unknownLevel)
  let d ← Workflow.disk
  let path ← Workflow.take (pathOf d project name)
  if (← Workflow.probe path).isSome then throw (.presetExists name path)
  let items := splitInputs inputs
  if items.isEmpty then
    store path (PresetFile.template name)
    return path
  let sorted := InputSorting.of d.fileSystem project items
  Workflow.take
    ((Pattern.checkInputsSafe (sorted.patterns ++ sorted.directories ++ sorted.files)).mapError
      .unsafePath)
  let files ← keepFiles project sorted.files
  let result ← compileFiles project context level files
  let origin : PresetFile.Origin := {
    source := describeSource sorted files.length result
    preserved := sorted.patterns.length
    converted := sorted.directories.length
    summary := result.map .of }
  let patterns := sorted.patterns ++ sorted.directories.map Pattern.ofDirectory ++
    ((result.map (fun c => c.patterns)).getD [])
  save now project name (dedupe patterns) false (some origin)

/-! ### Renewing -/

/-- The files of a stored pattern list. -/
def listFiles (path project : Text) (context : Context) : Workflow (List Text) := do
  let text ← readText (plainPath path)
  Workflow.ofReport (expandText (← Workflow.disk).fileSystem project context text)

/-- A renewed preset. -/
structure Renewal where
  /-- The name of the preset. -/
  name : Text
  /-- The path of its file. -/
  path : Text
  /-- The stored text. -/
  before : Text
  /-- The new text. -/
  after : Text
  /-- The difference of the two. -/
  diff : Text
  /-- The compilation that the new text is made from. -/
  result : Compilation
  /-- The new text was written. -/
  written : Bool
  /-- The files of the preset. -/
  inputFiles : List Text
deriving DecidableEq, Repr

/-- Renews a preset; the new text is written if asked for. -/
def renew (now : Timestamp) (project name level : Text) (write : Bool) (context : Context) :
    Workflow Renewal := do
  let level ← Workflow.take ((Level.parse level).mapError .unknownLevel)
  let path ← existing project name
  let files ← listFiles path project context
  let d ← Workflow.disk
  let result ← Workflow.ofReport (compileSelection d.fileSystem project context level files)
  let before ← readText path
  let origin : PresetFile.Origin := ⟨"preset:".toText ++ name, 0, 0, some (.of result)⟩
  let after := PresetFile.render name result.patterns (some origin) now
  let file := name ++ suffix
  let diff := Diff.unified (file ++ " (before)".toText) (file ++ " (after)".toText)
    (keptLines before) (keptLines after)
  if write then Workflow.attempt (d.writeText path after)
  return ⟨name, path, before, after, diff, result, write, files⟩

end GlobPreset.Preset
