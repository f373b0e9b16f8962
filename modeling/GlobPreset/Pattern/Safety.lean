import GlobPreset.Path.Safety
import GlobPreset.Pattern.Base
import GlobPreset.Pattern.Parse

/-!
# Safe patterns

A pattern is safe when nothing it is read as can leave the project: the pattern itself, each of
its brace alternatives, and the literal base of each alternative, in which escapes are resolved.

## Main definitions

* `Pattern.readings` — all texts that a pattern is read as.
* `Pattern.firstUnsafe?` — the first reading to be refused.
* `Pattern.checkSafe`, `PatternList.checkSafe` — refuse an unsafe pattern, or a list with one.
-/

set_option autoImplicit false

namespace GlobPreset

namespace Pattern

/-- All texts that a pattern is read as, in the order of their check. -/
def readings (pattern : Text) : List Text :=
  pattern :: (alternatives pattern).flatMap (fun a => [a, literalBase a])

/-- The refusal of a text as a pattern, if it is unsafe. -/
def refusal? (text : Text) : Option UnsafePath :=
  (Path.unsafeCause? text).map (fun cause => ⟨"pattern".toText, text, cause⟩)

/-- The first refusal among the readings of some patterns. -/
def firstUnsafe? (patterns : List Text) : Option UnsafePath :=
  (patterns.flatMap readings).findSome? refusal?

/-- Refuses unsafe patterns. -/
def checkAllSafe (patterns : List Text) : Except UnsafePath Unit :=
  match firstUnsafe? patterns with
  | some e => .error e
  | none => .ok ()

/-- Refuses an unsafe pattern. -/
def checkSafe (pattern : Text) : Except UnsafePath Unit := checkAllSafe [pattern]

/-- Refuses unsafe inputs; exclusion marks in front of an input do not count. -/
def checkInputsSafe (inputs : List Text) : Except UnsafePath Unit :=
  checkAllSafe (inputs.map (fun p => p.dropWhile (· == .of '!')))

end Pattern

/-- Refuses a list with an unsafe pattern. -/
def PatternList.checkSafe (list : PatternList) : Except UnsafePath Unit :=
  Pattern.checkAllSafe (list.includes ++ list.excludes)

end GlobPreset
