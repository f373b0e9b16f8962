import GlobPreset.Path.Basic
import GlobPreset.Wildmatch.RuleSet

/-!
# Ignored names

Names that a walk never enters or reports: exact directory names, and globs on file names. Being
about names alone, the verdict on a path below a base does not depend on where the walk started.

## Main definitions

* `IgnoreRules` — directory names and the rules of the file globs.
* `IgnoreRules.ignoresDirectory`, `IgnoreRules.ignoresFile` — the test of one name.
* `IgnoreRules.crosses` — a walk from above would not reach the path.
-/

set_option autoImplicit false

namespace GlobPreset

/-- Names that a walk leaves out. -/
structure IgnoreRules where
  /-- Names of directories. -/
  directories : List Text
  /-- Rules on names of files. -/
  files : Wildmatch.RuleSet
deriving DecidableEq, Repr

namespace IgnoreRules

/-- The rules of the given directory names and file globs. -/
def ofGlobs (directories files : List Text) : Except Wildmatch.LineError IgnoreRules :=
  (Wildmatch.RuleSet.ofLines files).map (fun rules => ⟨directories, rules⟩)

/-- A directory of that name is left out. -/
def ignoresDirectory (rules : IgnoreRules) (name : Text) : Bool := rules.directories.contains name

/-- A file of that name is left out. -/
def ignoresFile (rules : IgnoreRules) (name : Text) : Bool := rules.files.selects name

/-- A walk that starts above the path does not reach it. The last segment is the name of a file,
or of a directory. -/
def crosses (rules : IgnoreRules) (path : Text) (endsInFile : Bool) : Bool :=
  if path.isEmpty then false
  else
    let parts := Path.segments path
    (if endsInFile then parts.dropLast else parts).any rules.ignoresDirectory ||
      (endsInFile && rules.ignoresFile (parts.getLast?.getD []))

end IgnoreRules

end GlobPreset
