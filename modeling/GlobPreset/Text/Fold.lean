import GlobPreset.Text.Basic
import GlobPreset.Text.FoldTable

/-!
# Case folding

Full Unicode case folding: two texts that differ in letter case alone have one folding. It works
character by character, so it distributes over concatenation; a character may fold to several.

## Main definitions

* `Text.foldChar` — the folding of one character.
* `Text.fold` — the folding of a text.

## Main results

* `Text.fold_append` — folding distributes over concatenation.
-/

set_option autoImplicit false

namespace GlobPreset.Text

/-- The folding of one character; ASCII letters become lower case. -/
def foldChar (c : CodePoint) : Text :=
  let n := c.toNat
  if n < 0x80 then [if 0x41 ≤ n && n ≤ 0x5A then CodePoint.ofNat (n + 0x20) else c]
  else
    match foldRuns.find? (fun r => r.first ≤ n && n ≤ r.last && (n - r.first) % r.stride == 0) with
    | some r => [CodePoint.ofNat (r.image + (n - r.first))]
    | none =>
      match lookup? n foldExpansions with
      | some image => image.map CodePoint.ofNat
      | none => [c]

/-- The folding of a text. -/
def fold (t : Text) : Text := t.flatMap foldChar

/-- A text is folded part by part. -/
theorem fold_append (s t : Text) : fold (s ++ t) = fold s ++ fold t :=
  List.flatMap_append

end GlobPreset.Text
