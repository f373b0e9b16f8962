import GlobPreset.Text.Basic

/-!
# Project-relative paths

A path inside a project is a text whose segments are separated by a slash. The functions here
look at the spelling alone; none of them asks a file system.

## Main definitions

* `Path.segments`, `Path.ofSegments` — the segments of a path, and the path of given segments.
* `Path.join`, `Path.parent`, `Path.baseName`, `Path.extension`, `Path.depth` — the usual parts.
* `Path.toSlashes` — backslashes read as separators.
* `Path.isWithin` — a path lies at or below another one.
* `Path.deeperFirst`, `Path.shallowerFirst` — the two orders by depth.
* `Path.dropDotSlash` — a path without the `./` in front of it.
-/

set_option autoImplicit false

namespace GlobPreset.Path

open Text

/-! ### Segments -/

/-- The segments of a path; the empty path has one, which is empty. -/
def segments (path : Text) : List Text := splitOn (.of '/') path

/-- The path with the given segments. -/
def ofSegments (parts : List Text) : Text := joinWith [.of '/'] parts

/-- A path is given by its segments. -/
theorem ofSegments_segments (path : Text) : ofSegments (segments path) = path :=
  joinWith_splitOn (.of '/') path

/-- The segments that are not empty. -/
def names (path : Text) : List Text := (segments path).filter (fun s => !s.isEmpty)

/-- Reads every backslash as a separator. -/
def toSlashes (path : Text) : Text := path.map (fun c => if c = .of '\\' then .of '/' else c)

/-- The number of segments; the empty path has none. -/
def depth (path : Text) : Nat := if path.isEmpty then 0 else (segments path).length

/-- The path of an entry inside a directory; the empty directory is the project itself. -/
def join (directory name : Text) : Text :=
  if directory.isEmpty then name else directory ++ .of '/' :: name

/-- All but the last segment; empty at the top level. -/
def parent (path : Text) : Text :=
  match splitLast? (.of '/') path with
  | some (before, _) => before
  | none => []

/-- The last segment. -/
def baseName (path : Text) : Text :=
  match splitLast? (.of '/') path with
  | some (_, behind) => behind
  | none => path

/-- What follows the last dot of the last segment, unless that dot is its first character. -/
def extension (path : Text) : Text :=
  match splitLast? (.of '.') (baseName path) with
  | some (_ :: _, behind) => behind
  | _ => []

/-! ### Position -/

/-- `path` is `root` or lies below it. Every character of `separator` is dropped from the end of
`root` first; a root of separators alone becomes `separator`. -/
def isWithin (path root separator : Text) : Bool :=
  let trimmed := dropEndWhile separator.contains root
  let root := if trimmed.isEmpty then separator else trimmed
  path = root ||
    startsWith path (if endsWith root separator then root else root ++ separator)

/-- Deeper paths stand before shallower ones; paths of one depth are in order. -/
def deeperFirst (p q : Text) : Bool :=
  decide (depth q < depth p) || (depth p == depth q && Text.le p q)

/-- Shallower paths stand before deeper ones; paths of one depth are in order. -/
def shallowerFirst (p q : Text) : Bool :=
  decide (depth p < depth q) || (depth p == depth q && Text.le p q)

/-- The path without any `./` in front. -/
def dropDotSlash : Text → Text
  | .of '.' :: .of '/' :: rest => dropDotSlash rest
  | path => path

/-- The path without slashes at its end. -/
def dropEndSlashes (path : Text) : Text := dropEndWhile (· == .of '/') path

/-- The path with every run of slashes read as one slash. -/
def squeezeSlashes : Text → Text
  | [] => []
  | c :: rest =>
    if c = .of '/' && rest.head? = some (.of '/') then squeezeSlashes rest
    else c :: squeezeSlashes rest

end GlobPreset.Path
