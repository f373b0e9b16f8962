import GlobPreset.Pattern.Escape

/-!
# Brace alternation

`a.{x,y}` stands for the patterns `a.x` and `a.y`. A group needs a comma of its own; one without
is kept as it stands, and so is an escaped brace. A brace that never closes leaves the whole rest
of the pattern without groups, while a closing brace outside of any group is a plain character.

## Main definitions

* `Pattern.closeGroup?` — the alternatives of a group, read from behind its opening brace.
* `Pattern.firstGroup?` — the first group with a comma of its own.
* `Pattern.alternatives` — the plain patterns that a pattern stands for, without duplicates.

## Design

`alternatives` splices one group at a time and looks at the result anew. Every splice removes two
braces and a comma, so the length of the pattern bounds the number of splices, and serves as fuel.
-/

set_option autoImplicit false

namespace GlobPreset.Pattern

/-- A group within a pattern. -/
structure BraceGroup where
  /-- What stands before the group. -/
  lead : Text
  /-- The alternatives, at least two. -/
  options : List Text
  /-- What stands behind the group. -/
  behind : Text
deriving DecidableEq, Repr

/-- Puts characters in front of the first alternative. -/
def consOption (cs : Text) : List Text × Text → List Text × Text
  | ([], behind) => ([cs], behind)
  | (first :: others, behind) => ((cs ++ first) :: others, behind)

/-- Reads from behind an opening brace up to the brace that closes it, `depth` further ones being
open: the alternatives, and what stands behind the group. -/
def closeGroup? (depth : Nat) : Text → Option (List Text × Text)
  | [] => none
  | .of '\\' :: [] => none
  | .of '\\' :: c :: rest => (closeGroup? depth rest).map (consOption [.of '\\', c])
  | .of '{' :: rest => (closeGroup? (depth + 1) rest).map (consOption [.of '{'])
  | .of '}' :: rest =>
    match depth with
    | 0 => some ([[]], rest)
    | depth + 1 => (closeGroup? depth rest).map (consOption [.of '}'])
  | .of ',' :: rest =>
    match depth with
    | 0 => (closeGroup? 0 rest).map (fun r => ([] :: r.1, r.2))
    | depth + 1 => (closeGroup? (depth + 1) rest).map (consOption [.of ','])
  | c :: rest => (closeGroup? depth rest).map (consOption [c])

/-- Puts a character in front of a group. -/
def BraceGroup.consLead (c : CodePoint) (g : BraceGroup) : BraceGroup :=
  { g with lead := c :: g.lead }

/-- The first group with a comma of its own; the first `skip` characters are taken as they are. -/
def groupBehind? (skip : Nat) : Text → Option BraceGroup
  | [] => none
  | c :: rest =>
    match skip with
    | skip + 1 => (groupBehind? skip rest).map (.consLead c)
    | 0 =>
      if c = .of '\\' then (groupBehind? 1 rest).map (.consLead c)
      else if c = .of '{' then
        match closeGroup? 0 rest with
        | none => none
        | some ([body], _) => (groupBehind? (body.length + 1) rest).map (.consLead c)
        | some (options, behind) => some ⟨[], options, behind⟩
      else (groupBehind? 0 rest).map (.consLead c)

/-- The first group with a comma of its own. -/
def firstGroup? (pattern : Text) : Option BraceGroup := groupBehind? 0 pattern

/-- The plain patterns that a pattern stands for, found with at most `fuel` splices. -/
def alternativesWithin : (fuel : Nat) → Text → List Text
  | 0, pattern => [pattern]
  | fuel + 1, pattern =>
    match firstGroup? pattern with
    | none => [pattern]
    | some g =>
      dedupe (g.options.flatMap (fun o => alternativesWithin fuel (g.lead ++ o ++ g.behind)))

/-- The plain patterns that a pattern stands for, in order and without duplicates. -/
def alternatives (pattern : Text) : List Text := alternativesWithin pattern.length pattern

end GlobPreset.Pattern
