import GlobPreset.Text.Blank
import GlobPreset.Text.Quoted
import GlobPreset.Wildmatch.Step

/-!
# Lines of an ignore file

A line of the gitignore format and the rule that it stands for: a sign, and what a path has to
look like for the rule to speak about it.

Lines are read as `GitIgnoreSpec` of the dependency `pathspec` reads them. What is assumed of it is
which lines it skips (blank ones, comments, a lone slash, and those with a bracket that never
closes), which it refuses (those with nothing left behind their marks or with a backslash at the end
of a segment, and those whose regular expression does not compile because a range runs backwards),
and which `**` it puts in front of a lone segment and behind a slash at the end.

## Main definitions

* `Wildmatch.Shape` — what a rule looks for in a path.
* `Wildmatch.Rule` — a sign and a shape.
* `Wildmatch.segmentSteps` — the steps of one segment of a line.
* `Wildmatch.normalForm` — the segments of a line with the implied `**` written out.
* `Wildmatch.readLine` — the rule of a line, if it stands for one.

## Design

The segments are read from left to right, and the first flaw decides: a backslash at the end of a
segment makes the line invalid, a bracket that never closes makes it a line without a rule. A range
that runs backwards is looked for only in a line without such flaws.
-/

set_option autoImplicit false

namespace GlobPreset.Wildmatch

open Text

/-! ### Rules -/

/-- What a rule looks for in a path. -/
inductive Shape where
  /-- Any character but a line feed. -/
  | anyChar
  /-- A slash anywhere, which marks a directory if the flag is set. -/
  | anySlash (marks : Bool)
  /-- Steps from the start of the path, and an ending. -/
  | fromStart (steps : List Step) (ending : Ending)
deriving DecidableEq, Repr

/-- What a shape finds in a path: nothing, or a match and whether it marks a directory. -/
def Shape.find : Shape → Continuation
  | anyChar, path => if path.any (· != .of '\n') then some false else none
  | anySlash marks, path => if path.contains (.of '/') then some marks else none
  | fromStart steps ending, path => runSteps steps ending.run path

/-- The shape has no range that runs backwards. -/
def Shape.isValid : Shape → Bool
  | fromStart steps _ =>
    steps.all fun
      | .one set => set.isValid
      | .many set => set.isValid
      | _ => true
  | _ => true

/-- The rule of a line: a pattern of `GitIgnoreSpec`, whose sign says whether it includes. -/
structure Rule where
  /-- Matched paths are selected; otherwise they are given back. -/
  selects : Bool
  /-- What the rule looks for. -/
  shape : Shape
deriving DecidableEq, Repr

/-- A line that no list of rules may hold. -/
inductive LineError where
  /-- A backslash has nothing to escape, or nothing is left of the line. -/
  | invalid (line : Text)
  /-- A range of characters runs backwards. -/
  | backwardRange
deriving DecidableEq, Repr

/-- The wording of a refused line. -/
def LineError.message : LineError → Text
  | invalid line => "Invalid git pattern: ".toText ++ quote line
  | backwardRange => "bad character range".toText

/-! ### Segments -/

/-- A flaw found while a segment is read. -/
inductive Flaw where
  | danglingEscape
  | openBracket
deriving DecidableEq, Repr

/-- Reads a bracket expression from behind its opening bracket: the class, and the number of
characters up to the closing bracket. A closing bracket in front is part of the content. -/
def bracket? (t : Text) : Option (CharSet × Nat) :=
  let negated := t.head? == some (.of '!') || t.head? == some (.of '^')
  let body := if negated then t.drop 1 else t
  let first := if body.head? == some (.of ']') then body.take 1 else []
  let content := first ++ (body.drop first.length).takeWhile (· != .of ']')
  if content.length < body.length then
    some (.bracket negated content, (if negated then 1 else 0) + content.length + 1)
  else none

/-- The steps of a segment; the first `skip` characters are already taken. -/
def glyphSteps (skip : Nat) : Text → Except Flaw (List Step)
  | [] => .ok []
  | c :: rest =>
    match skip with
    | skip + 1 => glyphSteps skip rest
    | 0 =>
      if c = .of '\\' then
        match rest.head? with
        | none => .error .danglingEscape
        | some d => (glyphSteps 1 rest).map (.one (.only d) :: ·)
      else if c = .of '*' then (glyphSteps 0 rest).map (.many .notSlash :: ·)
      else if c = .of '?' then (glyphSteps 0 rest).map (.one .notSlash :: ·)
      else if c = .of '[' then
        match bracket? rest with
        | none => .error .openBracket
        | some (set, taken) => (glyphSteps taken rest).map (.one set :: ·)
      else (glyphSteps 0 rest).map (.one (.only c) :: ·)

/-- The segment that stands for any directories. -/
def deep : Text := [.of '*', .of '*']

/-- The steps of a segment that is not `**`; a lone `*` needs a character. -/
def segmentSteps (segment : Text) : Except Flaw (List Step) :=
  if segment = [.of '*'] then .ok [.one .notSlash, .many .notSlash] else glyphSteps 0 segment

/-! ### Lines -/

/-- Removes every `**` that stands behind a `**`. -/
def squeezeDeep : List Text → List Text
  | [] => []
  | s :: rest =>
    if s = deep && rest.head? = some deep then squeezeDeep rest else s :: squeezeDeep rest

/-- An empty segment at the end stands for everything below. -/
def deepenLast (parts : List Text) : List Text :=
  if parts.getLast? = some [] then parts.dropLast ++ [deep] else parts

/-- The segments of a line with the implied `**` written out: in front of a lone segment, and in
place of an empty segment at the end. An empty segment in front only anchors the line. -/
def normalForm (parts : List Text) : List Text :=
  squeezeDeep <| deepenLast <|
    match parts with
    | [] :: rest => rest
    | [s] => if s = deep then [s] else [deep, s]
    | [s, []] => if s = deep then [s, []] else [deep, s, []]
    | parts => parts

/-- The steps and the ending of segments in normal form. `isFirst` says that nothing precedes,
`separated` that a slash has to precede a segment other than `**`, and `directory` that the line
ends with a slash. -/
def lineSteps (directory : Bool) : (isFirst separated : Bool) → List Text →
    Except Flaw (List Step × Ending)
  | _, _, [] => .ok ([], .close)
  | isFirst, separated, s :: rest =>
    if s = deep then
      if rest.isEmpty then .ok ([], .slash directory)
      else if isFirst then
        (lineSteps directory false false rest).map (fun r => (.leadingDirs :: r.1, r.2))
      else
        (lineSteps directory false true rest).map (fun r => (.innerDirs :: r.1, r.2))
    else do
      let own ← segmentSteps s
      let others ← lineSteps directory false true rest
      return ((if separated then [.one (.only (.of '/'))] else []) ++ own ++ others.1, others.2)

/-- The shape of segments in normal form. -/
def lineShape (directory : Bool) (parts : List Text) : Except Flaw Shape :=
  if parts = [deep] then .ok (if directory then .anySlash true else .anyChar)
  else if parts = [deep, [.of '*']] then .ok .anyChar
  else if parts = [deep, [.of '*'], deep] then .ok (.anySlash directory)
  else (lineSteps directory true false parts).map (fun r => .fromStart r.1 r.2)

/-- The line without blanks at its end, unless it ends with an escaped space. -/
def trimLine (line : Text) : Text :=
  if endsWith line [.of '\\', .of ' '] then line else stripEnd line

/-- The rule that `GitIgnoreSpec` makes of a line, if it stands for one; blank lines, comments, a
lone slash and lines with a bracket that never closes do not. -/
def readLine (line : Text) : Except LineError (Option Rule) :=
  let trimmed := trimLine line
  if trimmed.isEmpty || trimmed.head? = some (.of '#') || trimmed = [.of '/'] then .ok none
  else
    let selects := trimmed.head? ≠ some (.of '!')
    let parts := splitOn (.of '/') (if selects then trimmed else trimmed.drop 1)
    let normal := normalForm parts
    if normal.isEmpty then .error (.invalid line)
    else
      match lineShape (parts.getLast? = some []) normal with
      | .error .danglingEscape => .error (.invalid line)
      | .error .openBracket => .ok none
      | .ok shape => if shape.isValid then .ok (some ⟨selects, shape⟩) else .error .backwardRange

end GlobPreset.Wildmatch
