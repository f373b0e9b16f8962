import GlobPreset.Ignore
import GlobPreset.Path.Location
import GlobPreset.Warning

/-!
# Walks

The files at or below a path of the project. Links to directories are followed, except into a
directory that the walk is inside of; ignored names are left out below the start.

## Main definitions

* `Walk.Event` — a file that is found, or a warning.
* `Walk.below` — the walk through a directory.
* `Walk.start` — the walk from a base, which may also be a file.
* `Walk.files`, `Walk.warnings` — the two parts of a walk.

## Design

The directories that the walk is inside of have different real paths, so their number is bounded by
the number of directories there are, which serves as fuel.
-/

set_option autoImplicit false

namespace GlobPreset

/-- The absolute path of a project path. -/
def Path.absolute (root path : Text) : Text :=
  if path.isEmpty then root else Location.joinText root (Path.segments path)

namespace Walk

/-- What a walk comes upon. -/
inductive Event where
  | found (path : Text)
  | warned (warning : Warning)
deriving DecidableEq, Repr

/-- The file of an event. -/
def Event.file? : Event → Option Text
  | found path => some path
  | warned _ => none

/-- The warning of an event. -/
def Event.warning? : Event → Option Warning
  | found _ => none
  | warned w => some w

/-- Walks through the directory `path`, whose absolute path is `location`; `above` holds the real
paths of the directories that the walk is inside of. -/
def below (fs : FileSystem) (ignore : IgnoreRules) :
    (fuel : Nat) → (above : List Text) → (path location : Text) → List Event
  | 0, _, _, _ => []
  | fuel + 1, above, path, location =>
    let real := fs.realPath location
    if above.contains real then [.warned (.cycle path)]
    else
      match fs.sortedList location with
      | .error e => [.warned (.unwalkable path e)]
      | .ok entries =>
        entries.flatMap fun e =>
          match e.kind with
          | .directory =>
            if ignore.ignoresDirectory e.name then []
            else below fs ignore fuel (real :: above) (Path.join path e.name) e.path
          | .file => if ignore.ignoresFile e.name then [] else [.found (Path.join path e.name)]
          | .other => []

/-- Walks from a base. A base that is a file is found itself; one that is nothing yields nothing. -/
def start (fs : FileSystem) (ignore : IgnoreRules) (root base : Text) : List Event :=
  let location := Path.absolute root base
  if !base.isEmpty && fs.isFile location then [.found base]
  else if fs.isDirectory location then below fs ignore (fs.depthBound + 1) [] base location
  else []

/-- The files of a walk, in order. -/
def files (fs : FileSystem) (ignore : IgnoreRules) (root base : Text) : List Text :=
  (start fs ignore root base).filterMap Event.file?

/-- The warnings of a walk, in order. -/
def warnings (fs : FileSystem) (ignore : IgnoreRules) (root base : Text) : List Warning :=
  (start fs ignore root base).filterMap Event.warning?

end Walk

end GlobPreset
