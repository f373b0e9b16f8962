import GlobPreset.Text.Basic

/-!
# Matching blocks

What two lists of lines have in common, found by taking the longest common block first and going on
to its left and to its right. In a long second list the lines that occur too often do not start a
block, though they may extend one.

## Main definitions

* `Diff.Block` — a common block: where it starts in each list, and its length.
* `Diff.isPopular` — a line occurs too often.
* `Diff.longest` — the longest common block, the first one if there are several.
* `Diff.blocks` — all blocks, from left to right, neighbours being joined.
-/

set_option autoImplicit false

namespace GlobPreset.Diff

/-- A common block of two lists. -/
structure Block where
  /-- Where it starts in the first list. -/
  left : Nat
  /-- Where it starts in the second list. -/
  right : Nat
  /-- Its length. -/
  size : Nat
deriving DecidableEq, Repr

/-! ### Popular lines -/

/-- From this length on, a list can have popular lines. -/
def popularFrom : Nat := 200

/-- Among at least `popularFrom` lines, a line is popular that makes up more than one percent of
them and one. -/
def isPopular (lines : List Text) (line : Text) : Bool :=
  popularFrom ≤ lines.length && lines.length / 100 + 1 < lines.count line

/-! ### The longest block -/

/-- The lengths of the common blocks that end with a line of the first list and with each line of
the second; `above` are those of the line before, behind a zero. -/
def nextRow (popular : Text → Bool) (line : Text) : (above : List Nat) → List Text → List Nat
  | n :: above, other :: rest =>
    (if other = line && !popular line then n + 1 else 0) :: nextRow popular line above rest
  | _, _ => []

/-- The better one of the block so far and those ending with line `i` at `j` and later. -/
def bestInRow (i : Nat) (best : Block) : (j : Nat) → List Nat → Block
  | _, [] => best
  | j, n :: row =>
    bestInRow i (if best.size < n then ⟨i + 1 - n, j + 1 - n, n⟩ else best) (j + 1) row

/-- The longest block of lines that are not popular, the earliest one if there are several. -/
def longestFrom (popular : Text → Bool) (second : List Text) :
    (i : Nat) → (above : List Nat) → (best : Block) → List Text → Block
  | _, _, best, [] => best
  | i, above, best, line :: rest =>
    let row := nextRow popular line (0 :: above) second
    longestFrom popular second (i + 1) row (bestInRow i best 0 row) rest

/-- The number of lines that two lists start with in common. -/
def commonLead : List Text → List Text → Nat
  | a :: first, b :: second => if a = b then commonLead first second + 1 else 0
  | _, _ => 0

/-- Extends a block in both directions as far as the lines agree. -/
def extend (first second : List Text) (b : Block) : Block :=
  let back := commonLead (first.take b.left).reverse (second.take b.right).reverse
  let forth := commonLead (first.drop (b.left + b.size)) (second.drop (b.right + b.size))
  ⟨b.left - back, b.right - back, back + b.size + forth⟩

/-- The longest common block of two lists. -/
def longest (popular : Text → Bool) (first second : List Text) : Block :=
  extend first second
    (longestFrom popular second 0 (List.replicate second.length 0) ⟨0, 0, 0⟩ first)

/-! ### All blocks -/

/-- The blocks of two parts that start at the given places, found with at most `fuel` cuts. -/
def blocksWithin (popular : Text → Bool) :
    (fuel : Nat) → (left right : Nat) → (first second : List Text) → List Block
  | 0, _, _, _, _ => []
  | fuel + 1, left, right, first, second =>
    let b := longest popular first second
    if b.size = 0 then []
    else
      blocksWithin popular fuel left right (first.take b.left) (second.take b.right) ++
        ⟨left + b.left, right + b.right, b.size⟩ ::
          blocksWithin popular fuel (left + b.left + b.size) (right + b.right + b.size)
            (first.drop (b.left + b.size)) (second.drop (b.right + b.size))

/-- Joins a block with the next one if nothing lies between them. -/
def joinNeighbours : List Block → List Block
  | [] => []
  | b :: rest =>
    match joinNeighbours rest with
    | [] => [b]
    | c :: others =>
      if b.left + b.size = c.left ∧ b.right + b.size = c.right then
        ⟨b.left, b.right, b.size + c.size⟩ :: others
      else b :: c :: others

/-- The blocks that two lists have in common. -/
def blocks (first second : List Text) : List Block :=
  joinNeighbours (blocksWithin (isPopular second) (first.length + 1) 0 0 first second)

end GlobPreset.Diff
