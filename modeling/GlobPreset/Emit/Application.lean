import GlobPreset.Text.Basic

/-!
# Applications of rules

The record of what shortened a pattern list.

## Main definitions

* `Technique` — every way to shorten a pattern list, with its name.
* `Application` — one use of it: what it was applied to, and how many entries it left of how many.
-/

set_option autoImplicit false

namespace GlobPreset

/-- A way to shorten a pattern list. -/
inductive Technique where
  /-- A directory of which all files are selected becomes one pattern. -/
  | fullDirectory
  /-- A directory of which few files are not selected becomes one pattern and exclusions. -/
  | nearFullExclusion
  /-- The files of one extension in a directory become one pattern. -/
  | directoryExtension
  /-- The files of one extension in the project become one pattern. -/
  | globalExtension
  /-- The patterns of sibling directories become one pattern with braces. -/
  | mergeDirectories
  /-- The patterns that differ in their extension become one pattern with braces. -/
  | mergeExtensions
deriving DecidableEq, Repr

/-- The name of a technique. -/
def Technique.name : Technique → Text
  | fullDirectory => "full-directory".toText
  | nearFullExclusion => "near-full-exclusion".toText
  | directoryExtension => "dir-extension".toText
  | globalExtension => "global-extension".toText
  | mergeDirectories => "brace-merge-dirs".toText
  | mergeExtensions => "brace-merge-extensions".toText

/-- One use of a technique. -/
structure Application where
  /-- What was used. -/
  technique : Technique
  /-- What it was applied to. -/
  details : Text
  /-- The number of entries before. -/
  before : Nat
  /-- The number of patterns after. -/
  after : Nat
deriving DecidableEq, Repr

end GlobPreset
