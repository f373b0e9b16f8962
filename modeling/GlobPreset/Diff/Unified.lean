import GlobPreset.Diff.Matching

/-!
# Unified differences

The difference of two lists of lines in the unified format: changes with three lines of context,
in hunks whose headings give the ranges of lines.

## Main definitions

* `Diff.Change` — what happens to a range of lines.
* `Diff.changes` — the changes that lead from one list to another.
* `Diff.hunks` — the changes with their context, in groups.
* `Diff.unified` — the written difference.
-/

set_option autoImplicit false

namespace GlobPreset.Diff

open Text

/-! ### Changes -/

/-- What happens to the lines from `left` to `leftEnd` of the first list: they become those from
`right` to `rightEnd` of the second. -/
structure Change where
  /-- The lines stay as they are. -/
  keeps : Bool
  /-- The first line in the first list. -/
  left : Nat
  /-- The line behind the last one in the first list. -/
  leftEnd : Nat
  /-- The first line in the second list. -/
  right : Nat
  /-- The line behind the last one in the second list. -/
  rightEnd : Nat
deriving DecidableEq, Repr

/-- The changes between blocks, from the given places on; lists end at the other two. -/
def changesFrom (leftEnd rightEnd : Nat) : (left right : Nat) → List Block → List Change
  | left, right, [] =>
    if left < leftEnd || right < rightEnd then [⟨false, left, leftEnd, right, rightEnd⟩] else []
  | left, right, b :: rest =>
    (if left < b.left || right < b.right then [⟨false, left, b.left, right, b.right⟩] else []) ++
      ⟨true, b.left, b.left + b.size, b.right, b.right + b.size⟩ ::
        changesFrom leftEnd rightEnd (b.left + b.size) (b.right + b.size) rest

/-- The changes that lead from one list to another. -/
def changes (first second : List Text) : List Change :=
  changesFrom first.length second.length 0 0 (blocks first second)

/-! ### Hunks -/

/-- The number of lines of context. -/
def contextLines : Nat := 3

/-- The last lines of kept ones. -/
def Change.lastLines (c : Change) : Change :=
  if c.keeps then
    { c with
      left := max c.left (c.leftEnd - contextLines)
      right := max c.right (c.rightEnd - contextLines) }
  else c

/-- The first lines of kept ones. -/
def Change.firstLines (c : Change) : Change :=
  if c.keeps then
    { c with
      leftEnd := min c.leftEnd (c.left + contextLines)
      rightEnd := min c.rightEnd (c.right + contextLines) }
  else c

/-- Shortens the kept lines at both ends of a list of changes to their context. -/
def trimEnds (cs : List Change) : List Change :=
  let shortened := match cs with
    | [] => []
    | c :: rest => c.lastLines :: rest
  match shortened.getLast? with
  | none => []
  | some c => shortened.dropLast ++ [c.firstLines]

/-- Cuts changes where more lines are kept than two contexts hold; `group` is the hunk so far. -/
def cut (group : List Change) : List Change → List (List Change)
  | [] => [group]
  | c :: rest =>
    if c.keeps && 2 * contextLines < c.leftEnd - c.left then
      (group ++ [c.firstLines]) :: cut [c.lastLines] rest
    else cut (group ++ [c]) rest

/-- The hunk changes something. -/
def isHunk (group : List Change) : Bool := group.any (fun c => !c.keeps)

/-- The hunks of two lists. -/
def hunks (first second : List Text) : List (List Change) :=
  (cut [] (trimEnds (changes first second))).filter isHunk

/-! ### The written form -/

/-- A range of lines in a heading. -/
def rangeText (start stop : Nat) : Text :=
  if stop - start = 1 then ofNat (start + 1)
  else ofNat (if stop = start then start else start + 1) ++ .of ',' :: ofNat (stop - start)

/-- Lines with a mark in front. -/
def marked (mark : CodePoint) (lines : List Text) (start stop : Nat) : List Text :=
  ((lines.take stop).drop start).map (mark :: ·)

/-- The lines of one change. -/
def changeLines (first second : List Text) (c : Change) : List Text :=
  if c.keeps then marked (.of ' ') first c.left c.leftEnd
  else marked (.of '-') first c.left c.leftEnd ++ marked (.of '+') second c.right c.rightEnd

/-- The lines of one hunk. -/
def hunkLines (first second : List Text) (group : List Change) : List Text :=
  match group.head?, group.getLast? with
  | some a, some z =>
    ("@@ -".toText ++ rangeText a.left z.leftEnd ++ " +".toText ++ rangeText a.right z.rightEnd ++
        " @@\n".toText) ::
      group.flatMap (changeLines first second)
  | _, _ => []

/-- The difference of two lists of lines, each with its boundary; empty if they are equal. -/
def unified (firstName secondName : Text) (first second : List Text) : Text :=
  match hunks first second with
  | [] => []
  | groups =>
    "--- ".toText ++ firstName ++ "\n+++ ".toText ++ secondName ++ [.of '\n'] ++
      (groups.flatMap (hunkLines first second)).flatten

end GlobPreset.Diff
