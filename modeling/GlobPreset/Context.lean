import GlobPreset.Ignore
import GlobPreset.Level
import GlobPreset.Path.Policy

/-!
# Contexts

The values that steer scanning, collapsing and expanding. A context is made from the standard one
by changes, and a change with an impossible value is refused.

## Main definitions

* `Thresholds` — how many unselected files each level may exclude one by one.
* `Context` — all values; `Context.standard` — their standard choice.
* `Context.Change`, `Context.change` — new values for some of them.
* `Context.ignoreRules` — the ignored names of a context.
-/

set_option autoImplicit false

namespace GlobPreset

/-! ### Thresholds -/

/-- How many unselected files a directory pattern may exclude one by one, where a level says. -/
structure Thresholds where
  /-- The threshold of the minimal level. -/
  minimal : Option Nat
  /-- The threshold of the balanced level. -/
  balanced : Option Nat
  /-- The threshold of the aggressive level. -/
  aggressive : Option Nat
deriving DecidableEq, Repr

namespace Thresholds

/-- No level has a threshold. -/
def none : Thresholds := ⟨.none, .none, .none⟩

/-- The threshold of a level, if it has one. -/
def get? (t : Thresholds) : Level → Option Nat
  | .minimal => t.minimal
  | .balanced => t.balanced
  | .aggressive => t.aggressive

/-- Gives a level a threshold. -/
def set (t : Thresholds) (n : Nat) : Level → Thresholds
  | .minimal => { t with minimal := some n }
  | .balanced => { t with balanced := some n }
  | .aggressive => { t with aggressive := some n }

end Thresholds

/-! ### Contexts -/

/-- The values that steer the library. -/
structure Context where
  /-- How many unselected files each level may exclude one by one. -/
  thresholds : Thresholds
  /-- The least number of files that one pattern may stand for. -/
  minFiles : Nat
  /-- A pattern of an extension may reach into subdirectories. -/
  recursiveExtensions : Bool
  /-- How paths are compared. -/
  policy : CasePolicy
  /-- Names of directories that are left out. -/
  ignoredDirectories : List Text
  /-- Globs on names of files that are left out. -/
  ignoredFiles : List Text
  /-- Nothing is left out. -/
  ignoresNothing : Bool
  /-- A pattern stands for a file at least. -/
  minFiles_pos : 1 ≤ minFiles := by decide
deriving DecidableEq, Repr

/-- A value that no context has. -/
inductive ContextError where
  | unknownLevel (name : Text)
  | negativeThreshold (level : Text) (value : Int)
  | tooFewFiles (value : Int)
deriving DecidableEq, Repr

/-- The wording of a refused value. -/
def ContextError.message : ContextError → Text
  | unknownLevel name =>
    "Unknown optimization level in near_full_thresholds: ".toText ++ Text.quote name
  | negativeThreshold level value =>
    "near-full threshold for ".toText ++ Text.quote level ++ " must be >= 0, got ".toText ++
      Text.ofInt value
  | tooFewFiles value => "min_files_to_generalize must be >= 1, got ".toText ++ Text.ofInt value

namespace Context

/-- The directory names that are left out as a rule. -/
def standardDirectories : List Text :=
  [".git", ".hg", ".svn", "node_modules", "bower_components", "__pycache__", ".venv", "dist",
    "out", "build", ".vscode"].map String.toText

/-- The file globs that are left out as a rule. -/
def standardFiles : List Text :=
  [".DS_Store", "Thumbs.db", "desktop.ini", "*.log"].map String.toText

/-- The standard choice. -/
def standard : Context where
  thresholds := ⟨none, some 1, some 2⟩
  minFiles := 2
  recursiveExtensions := true
  policy := .sensitive
  ignoredDirectories := standardDirectories
  ignoredFiles := standardFiles
  ignoresNothing := false

/-- New values for a context; what is `none` stays. -/
structure Change where
  /-- Thresholds by name of level, in the order of their check. -/
  thresholds : Option (List (Text × Int)) := none
  /-- The least number of files that one pattern may stand for. -/
  minFiles : Option Int := none
  /-- A pattern of an extension may reach into subdirectories. -/
  recursiveExtensions : Option Bool := none
  /-- Letter case distinguishes paths. -/
  caseCounts : Option Bool := none
  /-- Names of directories that are left out. -/
  ignoredDirectories : Option (List Text) := none
  /-- Globs on names of files that are left out. -/
  ignoredFiles : Option (List Text) := none
  /-- Nothing is left out. -/
  ignoresNothing : Option Bool := none

/-- Reads thresholds given by name; the first impossible one is refused. -/
def readThresholds (pairs : List (Text × Int)) : Except ContextError Thresholds :=
  pairs.foldlM
    (fun t p =>
      match Level.ofName? p.1, p.2 with
      | none, _ => .error (.unknownLevel p.1)
      | some level, .ofNat n => .ok (t.set n level)
      | some _, .negSucc _ => .error (.negativeThreshold p.1 p.2))
    Thresholds.none

/-- The thresholds after a change. -/
def changedThresholds (c : Context) (change : Change) : Except ContextError Thresholds :=
  match change.thresholds with
  | some pairs => readThresholds pairs
  | none => .ok c.thresholds

/-- The least number of files after a change. -/
def changedMinFiles (c : Context) (change : Change) :
    Except ContextError { n : Nat // 1 ≤ n } :=
  match change.minFiles with
  | none => .ok ⟨c.minFiles, c.minFiles_pos⟩
  | some value =>
    if h : 1 ≤ value.toNat then .ok ⟨value.toNat, h⟩ else .error (.tooFewFiles value)

/-- Gives a context new values. A context that ignores nothing has empty lists of ignored names. -/
def change (c : Context) (change : Change) : Except ContextError Context := do
  let thresholds ← c.changedThresholds change
  let minFiles ← c.changedMinFiles change
  let ignoresNothing := change.ignoresNothing.getD c.ignoresNothing
  return {
    thresholds
    minFiles := minFiles.1
    recursiveExtensions := change.recursiveExtensions.getD c.recursiveExtensions
    policy := (change.caseCounts.map CasePolicy.ofFlag).getD c.policy
    ignoredDirectories :=
      if ignoresNothing then [] else change.ignoredDirectories.getD c.ignoredDirectories
    ignoredFiles := if ignoresNothing then [] else change.ignoredFiles.getD c.ignoredFiles
    ignoresNothing
    minFiles_pos := minFiles.2 }

/-- The threshold of a level; without one, nothing is excluded. -/
def threshold (c : Context) (level : Level) : Nat := (c.thresholds.get? level).getD 0

/-- The ignored names. -/
def ignoreRules (c : Context) : Except Wildmatch.LineError IgnoreRules :=
  IgnoreRules.ofGlobs c.ignoredDirectories c.ignoredFiles

end Context

end GlobPreset
