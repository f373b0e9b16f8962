import GlobPreset.Emit.Application
import GlobPreset.Path.Basic
import GlobPreset.Pattern.Escape

/-!
# Merging into braces

Patterns that differ in one place become one pattern with a brace group: the directory patterns of
siblings, and patterns that differ in their extension alone.

## Main definitions

* `Merge.Outcome` — the patterns after a merge, and what was merged.
* `Merge.directories`, `Merge.extensions` — the two merges.
-/

set_option autoImplicit false

namespace GlobPreset.Merge

open Text

/-- The patterns after a merge, and what was merged. -/
structure Outcome where
  /-- The patterns. -/
  patterns : List Text
  /-- The merges. -/
  applied : List Application
deriving DecidableEq, Repr

/-- Patterns to be replaced by one. -/
structure Batch where
  /-- The merged pattern. -/
  merged : Text
  /-- The patterns that it replaces. -/
  replaced : List Text
  /-- The record of the merge. -/
  application : Application
deriving DecidableEq, Repr

/-- Replaces patterns; the merged ones go to the end. -/
def applyBatches (patterns : List Text) (batches : List Batch) : Outcome :=
  let replaced := batches.flatMap (fun b => b.replaced)
  ⟨patterns.filter (fun p => !replaced.contains p) ++ batches.map (fun b => b.merged),
    batches.map (fun b => b.application)⟩

/-- Members between braces. -/
def braced (members : List Text) : Text := .of '{' :: (joinWith [.of ','] members ++ [.of '}'])

/-- The record of a merge. -/
def record (technique : Technique) (merged : Text) (count : Nat) (kind : String) : Application :=
  ⟨technique, merged ++ " (merged ".toText ++ ofNat count ++ kind.toText ++ [.of ')'], count, 1⟩

/-! ### Sibling directories -/

/-- Characters that keep a name out of a group. -/
def isReserved (c : CodePoint) : Bool := "\\*?[]\x7b\x7d,".toText.contains c

/-- The parent and the name of a directory pattern that can be merged. -/
def sibling? (pattern : Text) : Option (Text × Text) :=
  if (Pattern.recursiveDirectory? pattern).isSome then
    match splitLast? (.of '/') (dropEnd 3 pattern) with
    | some (parent, child) =>
      if parent.isEmpty || child.isEmpty || child.any isReserved then none else some (parent, child)
    | none => none
  else none

/-- The merge of the children of one parent. -/
def siblingBatch? (group : Text × List Text) : Option Batch :=
  if group.2.length < 2 then none
  else
    let children := sort group.2
    let merged := group.1 ++ .of '/' :: (braced children ++ Pattern.recursiveTail)
    some {
      merged
      replaced := children.map (fun c => group.1 ++ .of '/' :: (c ++ Pattern.recursiveTail))
      application := record .mergeDirectories merged children.length " sibling directories" }

/-- Merges the directory patterns of siblings. -/
def directories (patterns : List Text) : Outcome :=
  applyBatches patterns ((groupPairs (patterns.filterMap sibling?)).filterMap siblingBatch?)

/-! ### Extensions -/

/-- Letters and digits of ASCII. -/
def isAlphanumeric (c : CodePoint) : Bool := c.isAlphanum

/-- Characters that keep a pattern from being merged. -/
def isGroupMark (c : CodePoint) : Bool :=
  c == .of '{' || c == .of '}' || c == .of ',' || c == .of '\\'

/-- The pattern without a line feed at its end. -/
def withoutFinalFeed (pattern : Text) : Text :=
  if endsWith pattern [.of '\n'] then dropEnd 1 pattern else pattern

/-- What stands before and after the last dot, the latter being an extension. A line feed at the
end does not count, any other keeps the pattern from being merged. -/
def suffixed? (pattern : Text) : Option (Text × Text) :=
  let line := withoutFinalFeed pattern
  if pattern.any isGroupMark || line.contains (.of '\n') then none
  else
    match splitLast? (.of '.') line with
    | some (stem, extension) =>
      if stem.isEmpty || endsWith stem [.of '/'] || extension.isEmpty ||
        !extension.all isAlphanumeric
      then none
      else some (stem, extension)
    | none => none

/-- The merge of the extensions of one stem. -/
def extensionBatch? (group : Text × List Text) : Option Batch :=
  let members := sort (dedupe group.2)
  if members.length < 2 then none
  else
    let merged := group.1 ++ .of '.' :: braced members
    some {
      merged
      replaced := members.map (fun e => group.1 ++ .of '.' :: e)
      application := record .mergeExtensions merged members.length " extensions" }

/-- Merges patterns that differ in their extension alone. -/
def extensions (patterns : List Text) : Outcome :=
  applyBatches patterns ((groupPairs (patterns.filterMap suffixed?)).filterMap extensionBatch?)

end GlobPreset.Merge
