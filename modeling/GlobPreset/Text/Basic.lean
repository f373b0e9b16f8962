import GlobPreset.Text.CodePoint

/-!
# Texts

A text is a list of code points. Every path, pattern and file content of the library
is one, so that all of it is reasoned about by recursion on lists.

## Main definitions

* `Text` — a list of code points; `Text.le` — its order, by code point.
* `Text.splitOn`, `Text.joinWith` — cutting at a separator character and gluing back.
* `Text.afterFirst?`, `Text.splitLast?` — what follows a first occurrence, what surrounds a last.
* `sortBy`, `Text.sort`, `dedupe` — stable insertion sort, and the distinct elements in
  first-seen order. Both are structural, so closed instances evaluate in the kernel.

## Main results

* `sortBy_perm`, `mem_dedupe`, `nodup_dedupe` — sorting keeps the elements, removing duplicates
  keeps which elements there are and leaves each once.
* `Text.joinWith_splitOn` — gluing with the separator undoes cutting at it.
-/

set_option autoImplicit false

namespace GlobPreset

/-- A text: a list of code points. -/
abbrev Text := List CodePoint

/-! ### Lists -/

/-- Inserts before the first element that is not smaller; `le` decides. -/
def insertBy {α : Type} (le : α → α → Bool) (a : α) : List α → List α
  | [] => [a]
  | b :: rest => if le a b then a :: b :: rest else b :: insertBy le a rest

/-- Stable sort by `le`. -/
def sortBy {α : Type} (le : α → α → Bool) (l : List α) : List α :=
  l.foldr (insertBy le) []

/-- The distinct elements, each at its first place. -/
def dedupe {α : Type} [DecidableEq α] : List α → List α
  | [] => []
  | a :: rest => a :: (dedupe rest).filter (fun b => decide (b ≠ a))

/-- Inserting adds just the one element. -/
theorem insertBy_perm {α : Type} (le : α → α → Bool) (a : α) :
    ∀ l : List α, (insertBy le a l).Perm (a :: l)
  | [] => .refl _
  | b :: rest => by
    unfold insertBy
    split
    · exact .refl _
    · exact ((insertBy_perm le a rest).cons b).trans (.swap a b rest)

/-- Sorting rearranges a list. -/
theorem sortBy_perm {α : Type} (le : α → α → Bool) : ∀ l : List α, (sortBy le l).Perm l
  | [] => .refl _
  | a :: rest => (insertBy_perm le a _).trans ((sortBy_perm le rest).cons a)

/-- Sorting keeps the members. -/
@[simp] theorem mem_sortBy {α : Type} {le : α → α → Bool} {a : α} {l : List α} :
    a ∈ sortBy le l ↔ a ∈ l :=
  (sortBy_perm le l).mem_iff

/-- Removing duplicates keeps which elements there are. -/
@[simp] theorem mem_dedupe {α : Type} [DecidableEq α] {a : α} {l : List α} :
    a ∈ dedupe l ↔ a ∈ l := by
  induction l with
  | nil => rfl
  | cons b rest ih => by_cases h : a = b <;> simp [dedupe, ih, h]

/-- What is left without duplicates holds each element once. -/
theorem nodup_dedupe {α : Type} [DecidableEq α] (l : List α) : (dedupe l).Nodup := by
  induction l with
  | nil => exact List.nodup_nil
  | cons b rest ih =>
    refine List.nodup_cons.2 ⟨fun h => ?_, ih.sublist List.filter_sublist⟩
    simp at h

/-- The value that an association list gives to a key. -/
def lookup? {α β : Type} [DecidableEq α] (key : α) : List (α × β) → Option β
  | [] => none
  | (k, v) :: rest => if k = key then some v else lookup? key rest

/-- Appends `b` to the group of `key`; a new key goes to the end. -/
def addToGroup {α β : Type} [DecidableEq α] (key : α) (b : β) :
    List (α × List β) → List (α × List β)
  | [] => [(key, [b])]
  | (k, bs) :: rest =>
    if k = key then (k, bs ++ [b]) :: rest else (k, bs) :: addToGroup key b rest

/-- Groups values by their key; keys and the members of a group are in first-seen order. -/
def groupPairs {α β : Type} [DecidableEq α] (pairs : List (α × β)) : List (α × List β) :=
  pairs.foldl (fun groups p => addToGroup p.1 p.2 groups) []

namespace Text

/-! ### Order -/

/-- The order of texts by code point, as a test: the first difference decides, and a text stands
before its continuations. -/
def le : Text → Text → Bool
  | [], _ => true
  | _ :: _, [] => false
  | c :: s, d :: t => decide (c < d) || (c == d && le s t)

/-- Sorts texts by code point. -/
def sort (ts : List Text) : List Text := sortBy le ts

/-! ### Cutting and gluing -/

/-- Cuts a text at every `sep`; there is one more piece than separators. -/
def splitOn (sep : CodePoint) : Text → List Text
  | [] => [[]]
  | c :: rest =>
    if c = sep then [] :: splitOn sep rest
    else
      match splitOn sep rest with
      | [] => [[c]]
      | piece :: pieces => (c :: piece) :: pieces

/-- Glues pieces together with `sep` between them. -/
def joinWith (sep : Text) : List Text → Text
  | [] => []
  | [piece] => piece
  | piece :: next :: pieces => piece ++ sep ++ joinWith sep (next :: pieces)

/-- A text is cut into at least one piece. -/
theorem splitOn_ne_nil (sep : CodePoint) (t : Text) : splitOn sep t ≠ [] := by
  cases t with
  | nil => simp [splitOn]
  | cons c rest =>
    unfold splitOn
    split
    · simp
    · split <;> simp

/-- Gluing with the separator undoes cutting at it. -/
theorem joinWith_splitOn (sep : CodePoint) (t : Text) : joinWith [sep] (splitOn sep t) = t := by
  induction t with
  | nil => rfl
  | cons c rest ih =>
    obtain ⟨piece, pieces, h⟩ := List.exists_cons_of_ne_nil (splitOn_ne_nil sep rest)
    rw [h] at ih
    by_cases hc : c = sep
    · simp [splitOn, hc, h, joinWith, ih]
    · cases pieces <;> simp_all [splitOn, joinWith]

/-- What follows the first `c`, if there is one. -/
def afterFirst? (c : CodePoint) : Text → Option Text
  | [] => none
  | d :: rest => if d = c then some rest else afterFirst? c rest

/-- What stands before and after the last `c`, if there is one. -/
def splitLast? (c : CodePoint) : Text → Option (Text × Text)
  | [] => none
  | d :: rest =>
    match splitLast? c rest with
    | some (before, behind) => some (d :: before, behind)
    | none => if d = c then some ([], rest) else none

/-- What follows `lead`, if the text starts with it. -/
def dropLead? : (lead t : Text) → Option Text
  | [], t => some t
  | _ :: _, [] => none
  | c :: lead, d :: t => if c = d then dropLead? lead t else none

/-- The text starts with `lead`. -/
def startsWith (t lead : Text) : Bool := lead.isPrefixOf t

/-- The text ends with `tail`. -/
def endsWith (t tail : Text) : Bool := tail.isSuffixOf t

/-- The text contains `part` as a contiguous block. -/
def hasBlock (part : Text) : Text → Bool
  | [] => part.isEmpty
  | c :: rest => part.isPrefixOf (c :: rest) || hasBlock part rest

/-- The text without the characters at its end that satisfy `p`. -/
def dropEndWhile (p : CodePoint → Bool) : Text → Text
  | [] => []
  | c :: rest =>
    match dropEndWhile p rest with
    | [] => if p c then [] else [c]
    | kept => c :: kept

/-- The text without its characters satisfying `p` at both ends. -/
def dropAround (p : CodePoint → Bool) (t : Text) : Text := dropEndWhile p (t.dropWhile p)

/-- The text without its last `n` characters. -/
def dropEnd (n : Nat) (t : Text) : Text := t.take (t.length - n)

/-- The number of bytes of a text in UTF-8. -/
def byteCount (t : Text) : Nat := t.foldr (fun c n => c.byteCount + n) 0

/-! ### Numbers -/

/-- Decimal digits of a natural number. -/
def ofNat (n : Nat) : Text := (Nat.toDigits 10 n).map .of

/-- Decimal text of an integer. -/
def ofInt : Int → Text
  | .ofNat n => ofNat n
  | .negSucc n => .of '-' :: ofNat (n + 1)

/-- A natural number with at least `width` digits. -/
def paddedNat (width n : Nat) : Text :=
  List.replicate (width - (ofNat n).length) (.of '0') ++ ofNat n

end Text

end GlobPreset
