import GlobPreset.Wildmatch.Line

/-!
# Rule sets

The rules of several lines, and their verdict on a path. Later rules win over earlier ones, with
one exception: a match that marks a directory yields to every match that does not.

This is `GitIgnoreSpec` of the dependency `pathspec`. What is assumed of it is that it compiles the
lines in order and stops at the first one that it refuses, that it drops one `/` or `./` in front of
a path before it matches, that it goes through the patterns from the last to the first, and the
exception above.

## Main definitions

* `Wildmatch.RuleSet` — rules in the order of their lines.
* `Wildmatch.RuleSet.ofLines` — reads lines; the first line to be refused decides.
* `Wildmatch.RuleSet.selects` — the verdict.
-/

set_option autoImplicit false

namespace GlobPreset.Wildmatch

/-- Rules in the order of their lines: the patterns that a `GitIgnoreSpec` holds. -/
structure RuleSet where
  /-- The rules, the first line first. -/
  rules : List Rule
deriving DecidableEq, Repr

namespace RuleSet

/-- Reads lines; empty lines and lines without a rule leave no trace. -/
def ofLines (lines : List Text) : Except LineError RuleSet := do
  let rules ← (lines.filter (fun l => !l.isEmpty)).mapM readLine
  return ⟨rules.filterMap id⟩

/-- The path without a slash, or else a `./`, in front. -/
def plainPath : Text → Text
  | .of '/' :: rest => rest
  | .of '.' :: .of '/' :: rest => rest
  | path => path

/-- The verdict of rules given from the last to the first; `held` is the verdict of the last match
so far, all of which marked a directory. -/
def verdict (path : Text) (held : Option Bool) : List Rule → Option Bool
  | [] => held
  | r :: rest =>
    match r.shape.find path with
    | none => verdict path held rest
    | some false => some r.selects
    | some true => verdict path (held.or (some r.selects)) rest

/-- The rules select the path. -/
def selects (set : RuleSet) (path : Text) : Bool :=
  verdict (plainPath path) none set.rules.reverse == some true

end RuleSet

end GlobPreset.Wildmatch
