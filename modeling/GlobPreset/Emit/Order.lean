import GlobPreset.Emit.Eliminate
import GlobPreset.Emit.Merge

/-!
# The stored order of patterns

Raw patterns become a stored list: without duplicates and redundant patterns, with braces if asked
for, and in the order of four groups.

## Main definitions

* `isExcluded` — the pattern is an exclusion.
* `Emit.Group`, `Emit.groupOf` — directory patterns, extension patterns, literal files, exclusions.
* `Emit.order` — the patterns group by group, each group sorted.
* `emit` — the stored list of raw patterns.
-/

set_option autoImplicit false

namespace GlobPreset

open Text

/-- The pattern is an exclusion. -/
def isExcluded (pattern : Text) : Bool := pattern.head? == some (.of '!')

namespace Emit

/-- The rank of a pattern among the groups: 0 for directory patterns, 1 for extension patterns, 2
for the others, 3 for exclusions. -/
def groupOf (pattern : Text) : Nat :=
  if isExcluded pattern then 3
  else if endsWith pattern Pattern.recursiveTail then 0
  else if Pattern.hasMagic pattern &&
      (hasBlock [.of '*', .of '.'] pattern || hasBlock [.of '.', .of '{'] pattern) then 1
  else 2

/-- Orders patterns by group, then by code point. -/
def precedes (p q : Text) : Bool :=
  decide (groupOf p < groupOf q) || (groupOf p == groupOf q && Text.le p q)

/-- The patterns group by group, each group sorted. -/
def order (patterns : List Text) : List Text := sortBy precedes patterns

/-- Merges siblings, then extensions. -/
def merge (patterns : List Text) : Merge.Outcome :=
  let first := Merge.directories patterns
  let second := Merge.extensions first.patterns
  ⟨second.patterns, first.applied ++ second.applied⟩

end Emit

/-- The stored list of raw patterns, and the merges. -/
def emit (braces : Bool) (ignore : IgnoreRules) (policy : CasePolicy) (patterns : List Text) :
    Merge.Outcome :=
  let unique := dedupe patterns
  let includes := eliminateRedundant ignore policy (unique.filter (fun p => !isExcluded p))
  let merged := if braces then Emit.merge includes else ⟨includes, []⟩
  ⟨Emit.order (merged.patterns ++ unique.filter isExcluded), merged.applied⟩

end GlobPreset
