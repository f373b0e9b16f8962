import GlobPreset.Path.Basic
import GlobPreset.Pattern.Escape

/-!
# Pattern lists

The stored form of a list of patterns: one pattern a line, `!` in front of an exclusion, `#` in
front of a comment. Blanks at the edges of a line do not count, except for an escaped space.

## Main definitions

* `PatternList` — included and excluded patterns.
* `PatternList.stripLine` — a line without the blanks at its edges.
* `PatternList.Entry`, `PatternList.readLine?` — what a line stands for.
* `PatternList.parse` — the pattern list of a text.
-/

set_option autoImplicit false

namespace GlobPreset

/-- Included and excluded patterns. -/
structure PatternList where
  /-- Patterns whose matches are selected. -/
  includes : List Text
  /-- Patterns whose matches are taken away again. -/
  excludes : List Text
deriving DecidableEq, Repr

namespace PatternList

open Text

/-- The pattern of every file. -/
def everything : Text := [.of '*', .of '*', .of '/', .of '*']

/-- What one line stands for. -/
inductive Entry where
  | selects (pattern : Text)
  | rejects (pattern : Text)
deriving DecidableEq, Repr

/-- The pattern of an entry that selects. -/
def Entry.selected? : Entry → Option Text
  | selects p => some p
  | rejects _ => none

/-- The pattern of an entry that rejects. -/
def Entry.rejected? : Entry → Option Text
  | selects _ => none
  | rejects p => some p

/-- The number of backslashes at the end. -/
def endingBackslashes (t : Text) : Nat := (t.reverse.takeWhile (· == .of '\\')).length

/-- The line without the blanks at its edges. A space that follows an odd run of backslashes is
escaped, and stays. -/
def stripLine (raw : Text) : Text :=
  let rest := stripStart raw
  let line := stripEnd rest
  if endingBackslashes line % 2 == 1 && (rest.drop line.length).head? == some (.of ' ') then
    line ++ [.of ' ']
  else line

/-- What a line stands for; blank lines, comments and bare exclusion marks stand for nothing. -/
def readLine? (raw : Text) : Option Entry :=
  match stripLine raw with
  | [] => none
  | .of '#' :: _ => none
  | .of '!' :: rest =>
    let body := stripLine rest
    if body.isEmpty then none else some (.rejects (Path.dropDotSlash body))
  | line => some (.selects (Path.dropDotSlash line))

/-- The list of the given entries; where nothing is included but something is excluded,
everything is included. -/
def ofEntries (entries : List Entry) : PatternList :=
  let includes := entries.filterMap Entry.selected?
  let excludes := entries.filterMap Entry.rejected?
  ⟨if includes.isEmpty && !excludes.isEmpty then [everything] else includes, excludes⟩

/-- Reads a stored pattern list. -/
def parse (text : Text) : PatternList := ofEntries ((lines text).filterMap readLine?)

end PatternList

end GlobPreset
