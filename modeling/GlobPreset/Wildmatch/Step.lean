import GlobPreset.Text.Basic

/-!
# Steps of a wildmatch

The elementary ways in which a wildmatch consumes a path. A match is searched for with
backtracking, and the first one found decides, because it also says whether the match ended at a
slash: such a match is that of a directory, and of everything below it.

The steps follow `GitIgnoreSpec` of the dependency `pathspec`, which makes a regular expression of
each line. What is assumed of it is what these expressions match: a `*` and a `?` take no slash, a
lone `*` takes something, a `**` takes whole segments and does not go beyond a line feed, and the
end of the path is also found in front of a line feed that ends it.

## Main definitions

* `Wildmatch.CharSet` — one character, every character but the slash, or a bracket expression.
* `Wildmatch.Step`, `Wildmatch.Ending` — what a wildmatch consumes, and what it ends with.
* `Wildmatch.Step.run`, `Wildmatch.runSteps` — matching in front of a continuation.

## Design

A continuation gives `none` where it does not match, and else a flag: the match ended at a slash
that marks a directory. Repetitions try the longest way first.
-/

set_option autoImplicit false

namespace GlobPreset.Wildmatch

/-! ### Characters -/

/-- A class of characters. -/
inductive CharSet where
  /-- One character. -/
  | only (c : CodePoint)
  /-- Every character but the slash. -/
  | notSlash
  /-- A bracket expression: its content, and whether it is negated. -/
  | bracket (negated : Bool) (content : Text)
deriving DecidableEq, Repr

/-- The ranges of a bracket expression. A dash between two characters makes a range, a dash at the
end stands for itself, and a range that runs backwards is refused. -/
def bracketRanges? : Text → Option (List (CodePoint × CodePoint))
  | [] => some []
  | c :: .of '-' :: d :: rest =>
    if c ≤ d then (bracketRanges? rest).map ((c, d) :: ·) else none
  | c :: rest => (bracketRanges? rest).map ((c, c) :: ·)

namespace CharSet

/-- The class has no range that runs backwards. -/
def isValid : CharSet → Bool
  | bracket _ content => (bracketRanges? content).isSome
  | _ => true

/-- The character is in the class. -/
def mem (c : CodePoint) : CharSet → Bool
  | only d => c == d
  | notSlash => c != .of '/'
  | bracket negated content =>
    match bracketRanges? content with
    | some ranges => ranges.any (fun r => r.1 ≤ c && c ≤ r.2) != negated
    | none => false

end CharSet

/-! ### Steps -/

/-- What a wildmatch consumes at one place. The constructors are the parts that the regular
expressions of `GitIgnoreSpec` are put together from. -/
inductive Step where
  /-- One character of the class. -/
  | one (set : CharSet)
  /-- Any number of characters of the class. -/
  | many (set : CharSet)
  /-- Nothing, or a non-empty part of a line and a slash: a leading `**`. -/
  | leadingDirs
  /-- Nothing, or a slash and a non-empty part of a line: a `**` between two segments. -/
  | innerDirs
deriving DecidableEq, Repr

/-- What a wildmatch ends with. -/
inductive Ending where
  /-- A slash, which marks a directory, or the end of the path; a line feed at the very end does
  not count. -/
  | close
  /-- A slash, which marks a directory if the flag is set. -/
  | slash (marks : Bool)
deriving DecidableEq, Repr

/-- What follows a step: no match, or a match and whether it marks a directory. -/
abbrev Continuation := Text → Option Bool

/-- The ending of a match. -/
def Ending.run : Ending → Continuation
  | close, path =>
    match path with
    | [] => some false
    | .of '/' :: _ => some true
    | [.of '\n'] => some false
    | _ => none
  | slash marks, path => if path.head? = some (.of '/') then some marks else none

/-- Consumes as many characters of the class as possible, and fewer if need be. -/
def manyThen (set : CharSet) (next : Continuation) : Continuation
  | [] => next []
  | c :: rest =>
    if set.mem c then (manyThen set next rest).orElse (fun _ => next (c :: rest))
    else next (c :: rest)

/-- Inside a non-empty part of a line: consumes as much of it as possible and then a slash. -/
def lineThenSlash (next : Continuation) : Continuation
  | [] => none
  | c :: rest =>
    (if c = .of '\n' then none else lineThenSlash next rest).orElse
      (fun _ => if c = .of '/' then next rest else none)

/-- Consumes as much of a line as possible, and less if need be. -/
def lineThen (next : Continuation) : Continuation
  | [] => next []
  | c :: rest =>
    (if c = .of '\n' then none else lineThen next rest).orElse (fun _ => next (c :: rest))

/-- Matches one step in front of a continuation. -/
def Step.run (next : Continuation) : Step → Continuation
  | one set, path =>
    match path with
    | [] => none
    | c :: rest => if set.mem c then next rest else none
  | many set, path => manyThen set next path
  | leadingDirs, path =>
    (match path with
      | [] => none
      | c :: rest =>
        if c = CodePoint.of '\n' then none else lineThenSlash next rest).orElse (fun _ => next path)
  | innerDirs, path =>
    (match path with
      | .of '/' :: c :: rest => if c = CodePoint.of '\n' then none else lineThen next rest
      | _ => none).orElse (fun _ => next path)

/-- Matches steps one after another in front of a continuation. -/
def runSteps (steps : List Step) (next : Continuation) : Continuation :=
  steps.foldr (fun step next => step.run next) next

end GlobPreset.Wildmatch
