import GlobPreset.Path.Policy
import GlobPreset.Pattern.Base
import GlobPreset.Wildmatch.RuleSet

/-!
# Matchers

A matcher tells which project paths a list of plain patterns selects. Under the insensitive case
policy both patterns and paths are folded first.

## Main definitions

* `Matcher` — patterns with their rules.
* `Matcher.ofPatterns`, `Matcher.ofBraced` — the matcher of plain patterns, and of one stored
  pattern with braces.
* `Matcher.accepts` — the test.
-/

set_option autoImplicit false

namespace GlobPreset

/-- Plain patterns with their rules. -/
structure Matcher where
  /-- The patterns as given. -/
  patterns : List Text
  /-- How paths are compared. -/
  policy : CasePolicy
  /-- The rules of the anchored patterns. -/
  rules : Wildmatch.RuleSet
deriving DecidableEq, Repr

namespace Matcher

/-- The matcher of plain patterns. -/
def ofPatterns (policy : CasePolicy) (patterns : List Text) :
    Except Wildmatch.LineError Matcher :=
  (Wildmatch.RuleSet.ofLines (patterns.map (fun p => Pattern.anchored (policy.key p)))).map
    (fun rules => ⟨patterns, policy, rules⟩)

/-- The matcher of one stored pattern. -/
def ofBraced (policy : CasePolicy) (pattern : Text) : Except Wildmatch.LineError Matcher :=
  ofPatterns policy (Pattern.alternatives pattern)

/-- The matcher of several stored patterns. -/
def ofBracedList (policy : CasePolicy) (patterns : List Text) :
    Except Wildmatch.LineError Matcher :=
  ofPatterns policy (patterns.flatMap Pattern.alternatives)

/-- The matcher has patterns. -/
def isInhabited (m : Matcher) : Bool := !m.patterns.isEmpty

/-- The patterns select the path. -/
def accepts (m : Matcher) (path : Text) : Bool :=
  m.isInhabited && m.rules.selects (m.policy.key path)

end Matcher

end GlobPreset
