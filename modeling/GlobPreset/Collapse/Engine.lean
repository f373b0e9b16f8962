import GlobPreset.Coverage
import GlobPreset.Emit.Application
import GlobPreset.Selection.Tree

/-!
# Collapsing a selection

A run collapses the files of a selection into patterns. It goes on by proposals: each stands for
some files of a scan by one pattern, possibly with exclusions, and is made only if the scan
confirms it and some of its files are not covered yet. Files that are left over stand for
themselves.

## Main definitions

* `Engine` — a selection with what a run looks at.
* `Proposal`, `Run`, `Run.accept` — a step of a run, and its state.
* `Engine.proposeDirectory?`, `Engine.proposeNearFull?`, `Engine.proposeExtension?`,
  `Engine.proposeGlobal?` — the proposals of the four rules at one place.

## Design

Scans do not depend on the run, so an engine holds them as a function; what they warn about is
computed apart from the run, out of the places that a rule asks for.
-/

set_option autoImplicit false

namespace GlobPreset

/-- A selection with what a run looks at. -/
structure Engine where
  /-- The selected files, sorted. -/
  selection : List Text
  /-- The directories of the selection, the deepest first. -/
  candidates : List Text
  /-- The values that steer a run. -/
  context : Context
  /-- The selected files by key. -/
  coverage : Coverage
  /-- The scan of a directory; the empty one is the project. -/
  scan? : Text → Option DirectoryScan

/-! ### Steps -/

/-- A step of a run. -/
structure Proposal where
  /-- The patterns to be added. -/
  patterns : List Text
  /-- The files to be covered. -/
  files : List Text
  /-- The directory that has a pattern for everything below it from now on. -/
  directory : Option Text
  /-- The record of the step. -/
  application : Application
deriving DecidableEq, Repr

/-- The state of a run. -/
structure Run where
  /-- The keys of the covered files. -/
  covered : List Text
  /-- The patterns so far. -/
  patterns : List Text
  /-- The steps so far. -/
  applied : List Application
  /-- The directories that have a pattern for everything below them. -/
  collapsed : List Text
deriving DecidableEq, Repr

namespace Run

/-- The state of a run that has not begun. -/
def start : Run := ⟨[], [], [], []⟩

/-- The file is covered. -/
def covers (r : Run) (policy : CasePolicy) (path : Text) : Bool :=
  r.covered.contains (policy.key path)

/-- The files that are not covered. -/
def uncovered (r : Run) (policy : CasePolicy) (files : List Text) : List Text :=
  files.filter (fun f => !r.covers policy f)

/-- Takes a step. -/
def accept (r : Run) (policy : CasePolicy) (p : Proposal) : Run where
  covered := r.covered ++ p.files.map policy.key
  patterns := r.patterns ++ p.patterns
  applied := r.applied ++ [p.application]
  collapsed := r.collapsed ++ p.directory.toList

end Run

namespace Engine

open Text

/-- The engine of a selection, whose tree decides about the candidates. -/
def ofSelection (context : Context) (scan? : Text → Option DirectoryScan)
    (selection : List Text) : Except TreeConflict Engine := do
  let tree ← SelectionTree.ofPaths selection
  return {
    selection
    candidates := tree.deepestFirst
    context
    coverage := .ofSelection context.policy selection
    scan? }

/-- How paths are compared. -/
def policy (e : Engine) : CasePolicy := e.context.policy

/-! ### Whole directories -/

/-- The pattern of everything below a directory. -/
def directoryPattern (directory : Text) : Text :=
  Pattern.escapeLiteral directory ++ Pattern.recursiveTail

/-- A directory of which all files are selected. -/
def proposeDirectory? (e : Engine) (r : Run) (directory : Text) : Option Proposal := do
  let scan ← e.scan? directory
  let uncovered := r.uncovered e.policy scan.files
  let pattern := directoryPattern directory
  if e.context.minFiles ≤ scan.files.length ∧ scan.fullySelected = true ∧ uncovered ≠ [] ∧
      e.coverage.confirms pattern scan scan.files [] = true then
    some {
      patterns := [pattern]
      files := scan.files
      directory := some directory
      application := ⟨.fullDirectory, directory, uncovered.length, 1⟩ }
  else none

/-- A directory of which at most `threshold` files are not selected, which are excluded one by
one. -/
def proposeNearFull? (e : Engine) (threshold : Nat) (r : Run) (directory : Text) :
    Option Proposal := do
  if r.collapsed.contains directory then none
  let scan ← e.scan? directory
  let selected := e.coverage.selectedFiles scan
  let uncovered := r.uncovered e.policy selected
  let missing ← e.coverage.nearFull? scan threshold
  let pattern := directoryPattern directory
  let excludes := missing.map Pattern.escapeLiteral
  if e.context.minFiles ≤ selected.length ∧ uncovered ≠ [] ∧
      1 + missing.length ≤ uncovered.length ∧
      e.coverage.confirms pattern scan selected excludes = true then
    some {
      patterns := pattern :: excludes.map (.of '!' :: ·)
      files := selected
      directory := some directory
      application :=
        ⟨.nearFullExclusion,
          directory ++ " (exclude ".toText ++ ofNat missing.length ++ [.of ')'],
          uncovered.length, 1 + missing.length⟩ }
  else none

/-! ### Extensions -/

/-- Characters that an extension may have in a pattern without an escape. -/
def isPlainInExtension (c : CodePoint) : Bool :=
  c.isAlphanum || c == .of '_' || c == .of '+' || c == .of '-' || c == .of '~'

/-- The extension can be written into a pattern as it is; a line feed at its end does not count. -/
def isPlainExtension (extension : Text) : Bool :=
  let line := if endsWith extension [.of '\n'] then dropEnd 1 extension else extension
  !line.isEmpty && line.all isPlainInExtension

/-- The files of one extension in a directory, given with the extension. Where the context allows
it and all files of the extension below the directory are selected, the pattern reaches into
subdirectories. -/
def proposeExtension? (e : Engine) (r : Run) (place : Text × Text) : Option Proposal := do
  let (directory, extension) := place
  let scan ← e.scan? directory
  let deep := e.context.recursiveExtensions && scan.hasSubdirectories &&
    e.coverage.coversExtensionBelow scan extension
  let tail := .of '*' :: .of '.' :: extension
  let pattern := Pattern.escapeLiteral directory ++
    (if deep then [.of '/', .of '*', .of '*', .of '/'] else [.of '/']) ++ tail
  let expected :=
    if deep then Coverage.filesOfExtension scan extension
    else (lookup? extension scan.direct).getD []
  let uncovered := r.uncovered e.policy expected
  if isPlainExtension extension = true ∧ Coverage.coversExtension scan extension = true ∧
      e.context.minFiles ≤ expected.length ∧ uncovered ≠ [] ∧
      e.coverage.confirms pattern scan expected [] = true then
    some {
      patterns := [pattern]
      files := expected
      directory := none
      application := ⟨.directoryExtension, directory ++ .of ' ' :: tail, uncovered.length, 1⟩ }
  else none

/-- The files of one extension in the project, none of which is covered yet. -/
def proposeGlobal? (e : Engine) (r : Run) (extension : Text) : Option Proposal := do
  let scan ← e.scan? []
  let files := Coverage.filesOfExtension scan extension
  let pattern := [.of '*', .of '*', .of '/', .of '*', .of '.'] ++ extension
  if e.context.minFiles ≤ files.length ∧ files.all e.coverage.isSelected = true ∧
      files.all (fun f => !r.covers e.policy f) = true ∧
      e.coverage.confirms pattern scan files [] = true then
    some {
      patterns := [pattern]
      files
      directory := none
      application := ⟨.globalExtension, pattern, files.length, 1⟩ }
  else none

end Engine

end GlobPreset
