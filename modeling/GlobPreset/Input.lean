import GlobPreset.FileSystem.Basic
import GlobPreset.Path.Location
import GlobPreset.Pattern.Shape

/-!
# Inputs

An input names files in one of three ways: as a glob, as a directory that is there, or as a file.
What is neither a glob nor a directory counts as a file, whether it is there or not.

## Main definitions

* `InputKind` — the three ways; `InputKind.of` — that of an input.
* `InputSorting` — the inputs of each kind; `InputSorting.of` — sorts inputs.
-/

set_option autoImplicit false

namespace GlobPreset

/-- The ways in which an input names files. -/
inductive InputKind where
  | pattern
  | directory
  | file
deriving DecidableEq, Repr

/-- The name of a kind. -/
def InputKind.name : InputKind → Text
  | pattern => "pattern".toText
  | directory => "directory".toText
  | file => "file".toText

/-- The path under which an input is looked for: inside `base`, unless that is empty. -/
def Path.inBase (base input : Text) : Text :=
  if base.isEmpty then input else Location.joinText base (Path.segments input)

/-- The kind of an input; separators may be of any kind, and slashes at its end do not count. -/
def InputKind.of (fs : FileSystem) (base input : Text) : InputKind :=
  let plain := Path.dropEndSlashes (Path.toSlashes input)
  if Pattern.looksLikeGlob plain then .pattern
  else if fs.isDirectory (Path.inBase base plain) then .directory
  else .file

/-- The inputs of each kind, with plain separators and in order. -/
structure InputSorting where
  /-- The globs. -/
  patterns : List Text
  /-- The directories. -/
  directories : List Text
  /-- The files. -/
  files : List Text
deriving DecidableEq, Repr

namespace InputSorting

/-- Sorts inputs by kind. -/
def of (fs : FileSystem) (base : Text) (inputs : List Text) : InputSorting :=
  let plain := inputs.map Path.toSlashes
  let ofKind (k : InputKind) : List Text :=
    plain.filter (fun i => decide (InputKind.of fs base i = k))
  ⟨ofKind .pattern, ofKind .directory, ofKind .file⟩

/-- There are inputs of more than one kind. -/
def isMixed (s : InputSorting) : Bool :=
  1 < ([s.patterns, s.directories, s.files].filter (fun l => !l.isEmpty)).length

end InputSorting

end GlobPreset
