import GlobPreset.Path.Safety

/-!
# Selections

A selection is a list of project files. It may be given with separators of any kind, in any order
and with repetitions; its normal form is sorted and free of all that.

## Main definitions

* `Selection.normalPath?` — the normal form of one path; paths that name nothing have none.
* `Selection.normalize` — the normal form of a selection; an unsafe path is refused.
-/

set_option autoImplicit false

namespace GlobPreset.Selection

/-- The path with plain separators: no `./` in front, no slash at the end, none doubled. -/
def normalPath (path : Text) : Text :=
  Path.squeezeSlashes (Path.dropEndSlashes (Path.dropDotSlash (Path.toSlashes path)))

/-- The normal form of a path, unless it names nothing but the project itself. -/
def normalPath? (path : Text) : Option Text :=
  let normal := normalPath path
  if normal = [] ∨ normal = [.of '.'] then none else some normal

/-- What a path of a selection is called in a message. -/
def role : Text := "selection path".toText

/-- The normal forms of the paths of a selection, sorted and without duplicates; the first unsafe
path is refused. -/
def normalize (paths : List Text) : Except UnsafePath (List Text) := do
  paths.forM (Path.checkSafe role)
  return Text.sort (dedupe (paths.filterMap normalPath?))

end GlobPreset.Selection
