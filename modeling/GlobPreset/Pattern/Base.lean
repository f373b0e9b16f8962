import GlobPreset.Path.Basic
import GlobPreset.Pattern.Brace

/-!
# Literal bases and anchors

Where the matches of a plain pattern can lie. Its leading segments without a wildcard are a
directory, or the one file, at or below which every match stands. A stored pattern is read from
the project root, which a line of an ignore file without an inner slash would not be.

## Main definitions

* `Pattern.literalBase` — the longest leading run of literal segments, unescaped.
* `Pattern.anchored` — the pattern as a line that matches from the root only.
-/

set_option autoImplicit false

namespace GlobPreset.Pattern

open Text

/-- The longest leading run of segments without a wildcard, unescaped; empty segments do not
count. -/
def literalBase (pattern : Text) : Text :=
  Path.ofSegments (((Path.names pattern).takeWhile (fun s => !hasWildcard s)).map unescape)

/-- Puts a slash in front of a pattern that has none but at its end, so that it matches from the
root; one that starts with `**` keeps floating. -/
def anchored (pattern : Text) : Text :=
  if startsWith pattern [.of '/'] || startsWith pattern [.of '*', .of '*'] then pattern
  else if (Path.dropEndSlashes pattern).contains (.of '/') then pattern
  else .of '/' :: pattern

end GlobPreset.Pattern
