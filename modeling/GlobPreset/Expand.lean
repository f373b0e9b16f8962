import GlobPreset.Fault
import GlobPreset.Pattern.Matcher
import GlobPreset.Pattern.Safety
import GlobPreset.Walk

/-!
# Expansion

The files that a pattern list selects in a tree. The plain alternatives of the included patterns
are grouped by literal base; below each base one walk collects the files that the group accepts.
Files that an excluded pattern accepts are then taken away.

## Main definitions

* `Expand.Group` — a literal base with the alternatives that have it.
* `Expand.groups` — the groups of some patterns.
* `Expand.outcome`, `Expand.warnings` — the files, and the warnings of the walks.
* `PatternList.expand`, `expandText` — the expansion of a pattern list, and of its stored form.
-/

set_option autoImplicit false

namespace GlobPreset

namespace Expand

/-- Alternatives with a common literal base. -/
abbrev Group := Text × List Text

/-- The alternatives of some patterns, grouped by literal base in first-seen order. -/
def groups (patterns : List Text) : List Group :=
  groupPairs ((patterns.flatMap Pattern.alternatives).map (fun a => (Pattern.literalBase a, a)))

/-- The files of one group. -/
def groupFiles (fs : FileSystem) (root : Text) (ignore : IgnoreRules) (policy : CasePolicy)
    (g : Group) : Except Fault (List Text) := do
  let matcher ← (Matcher.ofPatterns policy g.2).mapError .badLine
  return (Walk.files fs ignore root g.1).filter matcher.accepts

/-- The files that no excluded pattern accepts. -/
def withoutExcluded (policy : CasePolicy) (excludes files : List Text) :
    Except Fault (List Text) :=
  if excludes.isEmpty then .ok files
  else do
    let matcher ← (Matcher.ofBracedList policy excludes).mapError .badLine
    return files.filter (fun f => !matcher.accepts f)

/-- The files that a pattern list selects, sorted and without duplicates. -/
def outcome (fs : FileSystem) (root : Text) (context : Context) (list : PatternList) :
    Except Fault (List Text) := do
  list.checkSafe.mapError .unsafePath
  if list.includes.isEmpty then return []
  let ignore ← context.ignoreRules.mapError .badLine
  let found ← (groups list.includes).mapM (groupFiles fs root ignore context.policy)
  let kept ← withoutExcluded context.policy list.excludes (dedupe found.flatten)
  return Text.sort kept

/-- The group has no pattern that is refused. -/
def isReadable (policy : CasePolicy) (g : Group) : Bool :=
  (Matcher.ofPatterns policy g.2).toBool

/-- The warnings of an expansion: those of the walks before the first refused pattern. -/
def warnings (fs : FileSystem) (root : Text) (context : Context) (list : PatternList) :
    List Warning :=
  match list.checkSafe, context.ignoreRules with
  | .ok (), .ok ignore =>
    ((groups list.includes).takeWhile (isReadable context.policy)).flatMap
      (fun g => Walk.warnings fs ignore root g.1)
  | _, _ => []

end Expand

/-- Expands a pattern list. -/
def PatternList.expand (fs : FileSystem) (root : Text) (context : Context) (list : PatternList) :
    Report (List Text) :=
  ⟨Expand.outcome fs root context list, Expand.warnings fs root context list⟩

/-- Expands the stored form of a pattern list. -/
def expandText (fs : FileSystem) (root : Text) (context : Context) (text : Text) :
    Report (List Text) :=
  (PatternList.parse text).expand fs root context

end GlobPreset
