import GlobPreset.Context
import GlobPreset.Path.Safety
import GlobPreset.Selection.Tree
import GlobPreset.Warning

/-!
# Faults and reports

What stops a task of the library, and what a task gives back: a result or the fault that stopped
it, together with the warnings until then.

## Main definitions

* `Fault` — every reason to stop; `Fault.message` — its wording.
* `Report` — a result or a fault, and warnings.
-/

set_option autoImplicit false

namespace GlobPreset

/-- A reason to stop. -/
inductive Fault where
  /-- A path or pattern could leave the project. -/
  | unsafePath (error : UnsafePath)
  /-- A line is no pattern. -/
  | badLine (error : Wildmatch.LineError)
  /-- A selection uses a name for a file and for a directory. -/
  | conflict (error : TreeConflict)
  /-- A level has an unknown name. -/
  | unknownLevel (error : UnknownLevel)
  /-- A context would have an impossible value. -/
  | badContext (error : ContextError)
  /-- The project itself was to be scanned as a directory of the project. -/
  | projectScan
  /-- A plan names an unknown rule. -/
  | unknownRule (rule plan : Text)
  /-- A preset cannot have that name. -/
  | badName (name : Text)
  /-- A preset of that name is there already. -/
  | presetExists (name path : Text)
  /-- No preset has that name. -/
  | presetMissing (name : Text)
  /-- A file system refuses a request. -/
  | file (error : FileError)
deriving DecidableEq, Repr

/-- The wording of a fault. -/
def Fault.message : Fault → Text
  | unsafePath e => e.message
  | badLine e => e.message
  | conflict e => e.message
  | unknownLevel e => e.message
  | badContext e => e.message
  | projectScan =>
    "The project root is never generalized into a directory glob; use scan_project()".toText
  | unknownRule rule plan =>
    "Unknown rule ".toText ++ Text.quote rule ++ " in plan ".toText ++ Text.quote plan
  | badName name =>
    "Invalid preset name ".toText ++ Text.quote name ++ ": must be a plain file name".toText
  | presetExists name path =>
    "Preset ".toText ++ Text.quote name ++ " already exists at ".toText ++ path
  | presetMissing name => "Preset not found: ".toText ++ name
  | file e => e.message

/-! ### Reports -/

/-- A result or the fault that stopped a task, and the warnings until then. -/
structure Report (α : Type) where
  /-- The result or the fault. -/
  outcome : Except Fault α
  /-- The warnings, in order. -/
  warnings : List Warning

namespace Report

/-- A report without warnings. -/
def ofExcept {α : Type} (outcome : Except Fault α) : Report α := ⟨outcome, []⟩

end Report

end GlobPreset
