import GlobPreset.Ignore
import GlobPreset.Path.Policy
import GlobPreset.Pattern.Base

/-!
# Elimination of redundant patterns

A pattern is redundant if all its matches lie below a directory `X` with a kept pattern `X/**`, and
the walk below `X` reaches them: no segment between the two is an ignored name.

## Main definitions

* `Eliminate.Kept` — the directories with a kept pattern.
* `Eliminate.keptDirectories` — which directories are kept, the shallowest being considered first.
* `eliminateRedundant` — the patterns without the redundant ones.
-/

set_option autoImplicit false

namespace GlobPreset

namespace Eliminate

/-- The directories with a kept pattern, and what decides whether one covers a path. -/
structure Kept where
  /-- The names that a walk leaves out. -/
  ignore : IgnoreRules
  /-- How paths are compared. -/
  policy : CasePolicy
  /-- The directories, in the order in which they were kept. -/
  directories : List Text
deriving DecidableEq, Repr

namespace Kept

/-- The directory itself is kept. -/
def holds (k : Kept) (directory : Text) : Bool :=
  k.directories.any (fun d => k.policy.key d == k.policy.key directory)

/-- What of `target` lies below a directory: as many characters are dropped as the key of the
directory and a slash have. -/
def partBelow? (k : Kept) (directory target : Text) : Option Text :=
  let lead := k.policy.key directory ++ [.of '/']
  if Text.startsWith (k.policy.key target) lead then some (target.drop lead.length) else none

/-- The walk below some kept directory reaches the path. -/
def covers (k : Kept) (target : Text) (endsInFile : Bool) : Bool :=
  k.directories.any fun d =>
    match k.partBelow? d target with
    | some part => !k.ignore.crosses part endsInFile
    | none => false

/-- Every match of a plain pattern lies below a kept directory. -/
def coversAlternative (k : Kept) (alternative : Text) : Bool :=
  if Pattern.hasWildcard alternative then
    let base := Pattern.literalBase alternative
    !base.isEmpty && (k.holds base || k.covers base false)
  else k.covers (Pattern.unescape alternative) true

/-- Every match of a pattern lies below a kept directory. -/
def coversPattern (k : Kept) (pattern : Text) : Bool :=
  (Pattern.alternatives pattern).all k.coversAlternative

end Kept

/-- A directory pattern with its directory. -/
abbrev DirectoryGlob := Text × Text

/-- The directory patterns among some patterns, the shallowest first. -/
def directoryGlobs (patterns : List Text) : List DirectoryGlob :=
  sortBy (fun a b => Path.shallowerFirst a.1 b.1)
    (patterns.filterMap (fun p => (Pattern.recursiveDirectory? p).map (fun d => (d, p))))

/-- Keeps a directory pattern unless it is covered; the second part lists the kept patterns. -/
def keepGlob (acc : Kept × List Text) (g : DirectoryGlob) : Kept × List Text :=
  if acc.1.covers g.1 false || acc.1.holds g.1 then acc
  else ({ acc.1 with directories := acc.1.directories ++ [g.1] }, acc.2 ++ [g.2])

/-- The kept directories and their patterns. -/
def keptDirectories (ignore : IgnoreRules) (policy : CasePolicy) (patterns : List Text) :
    Kept × List Text :=
  (directoryGlobs patterns).foldl keepGlob (⟨ignore, policy, []⟩, [])

end Eliminate

/-- The patterns without the redundant ones, in their order. -/
def eliminateRedundant (ignore : IgnoreRules) (policy : CasePolicy) (patterns : List Text) :
    List Text :=
  let kept := Eliminate.keptDirectories ignore policy patterns
  patterns.filter fun p =>
    if (Pattern.recursiveDirectory? p).isSome then kept.2.contains p
    else !kept.1.coversPattern p

end GlobPreset
