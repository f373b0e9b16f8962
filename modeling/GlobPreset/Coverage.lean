import GlobPreset.Expand
import GlobPreset.Scan

/-!
# Coverage

The comparison of a scan with the selection, on which every decision to generalize rests.

## Main definitions

* `Coverage` — the selected files by key.
* `Coverage.selectedFiles`, `Coverage.missing`, `Coverage.nearFull?` — the two parts of a scan.
* `Coverage.verify` — a pattern stands for the expected files of a scan, and for no file of it
  that is not selected.
-/

set_option autoImplicit false

namespace GlobPreset

/-- The selected files by key. -/
structure Coverage where
  /-- How paths are compared. -/
  policy : CasePolicy
  /-- The keys of the selected files. -/
  selected : List Text
deriving DecidableEq, Repr

namespace Coverage

/-- The coverage of a selection. -/
def ofSelection (policy : CasePolicy) (selection : List Text) : Coverage :=
  ⟨policy, selection.map policy.key⟩

/-- The number of selected files, counted by key. -/
def size (c : Coverage) : Nat := (dedupe c.selected).length

/-- The path is selected. -/
def isSelected (c : Coverage) (path : Text) : Bool := c.selected.contains (c.policy.key path)

/-- The files of a scan that are selected. -/
def selectedFiles (c : Coverage) (scan : DirectoryScan) : List Text :=
  scan.files.filter c.isSelected

/-- The files of a scan that are not selected. -/
def missing (c : Coverage) (scan : DirectoryScan) : List Text :=
  scan.files.filter (fun f => !c.isSelected f)

/-- The missing files, if there are some and at most `threshold`. -/
def nearFull? (c : Coverage) (scan : DirectoryScan) (threshold : Nat) : Option (List Text) :=
  let missing := c.missing scan
  if 0 < missing.length ∧ missing.length ≤ threshold then some missing else none

/-- All files of that extension directly inside the directory are selected, and there are some. -/
def coversExtension (scan : DirectoryScan) (extension : Text) : Bool :=
  (lookup? extension scan.directCovered).getD false

/-- The files of a scan with that extension. -/
def filesOfExtension (scan : DirectoryScan) (extension : Text) : List Text :=
  scan.files.filter (fun f => Path.extension f == extension)

/-- All files of a scan with that extension are selected, and there are some. -/
def coversExtensionBelow (c : Coverage) (scan : DirectoryScan) (extension : Text) : Bool :=
  let files := filesOfExtension scan extension
  !files.isEmpty && files.all c.isSelected

/-- Among the files of a scan, the pattern without the excluded ones stands for every expected
file, and for no file that is not selected. -/
def verify (c : Coverage) (pattern : Text) (scan : DirectoryScan) (expected excludes : List Text) :
    Except Fault Bool := do
  let matcher ← (Matcher.ofBraced c.policy pattern).mapError .badLine
  let implied ← Expand.withoutExcluded c.policy excludes (scan.files.filter matcher.accepts)
  let keys := implied.map c.policy.key
  return expected.all (fun f => keys.contains (c.policy.key f)) && implied.all c.isSelected

/-- The check of a pattern succeeds. -/
def confirms (c : Coverage) (pattern : Text) (scan : DirectoryScan)
    (expected excludes : List Text) : Bool :=
  match c.verify pattern scan expected excludes with
  | .ok confirmed => confirmed
  | .error _ => false

end Coverage

end GlobPreset
