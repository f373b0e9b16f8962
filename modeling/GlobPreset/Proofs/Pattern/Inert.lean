import Mathlib.Data.List.Forall2
import GlobPreset.Proofs.Pattern.Base
import GlobPreset.Proofs.Pattern.Spelling

/-!
# Literal texts are inert

A pattern is read in stages, and each of them keeps track of escapes on its own: escapes are
resolved, characters with a meaning are looked for, groups are spelled out, the directory of a
`dir/**` is taken off, and the leading literal segments make a base. What spells a literal text goes
through all of them as that text does, whatever its characters are.

## Main results

* `Pattern.Spells.recursiveDirectory?_append` — the directory of a spelling in front of `/**`.
* `Pattern.Spells.literalBase_eq`, `Pattern.Spells.literalBase_append_slash` — the literal base of a
  spelling, alone and in front of further segments.
* `Pattern.escapeLiteral_injective` — different texts are written differently.
* `Pattern.escapeLiteral_inert` — **a literal text that is written as a pattern is inert**.

## Design

The base of a pattern has no empty segments, so that of a spelling is the text without them; where
the text has none, it is the text itself. Segments are cut before escapes are resolved, which comes
to the same as cutting the text only because no slash of a spelling is escaped.
-/

set_option autoImplicit false

namespace GlobPreset.Pattern

open GlobPreset.Path Text

namespace Spells

variable {s t : Text}

/-! ### Groups and directories -/

/-- A spelling stands for itself. -/
lemma alternatives_eq (h : Spells s t) : alternatives s = [s] := by
  have halone := h.alternatives_append (r := []) List.not_mem_nil
  rwa [List.append_nil] at halone

/-- **The directory of a spelling in front of `/**`** is its text. -/
lemma recursiveDirectory?_append (h : Spells s t) (ht : t ≠ []) :
    recursiveDirectory? (s ++ recursiveTail) = some t := by
  have hdrop : dropEnd 3 (s ++ recursiveTail) = s := dropEnd_append s recursiveTail
  have hplain : (s.isEmpty || hasMagic s) = false := by
    rw [h.hasMagic_eq, List.isEmpty_eq_false_iff.2 (h.ne_nil ht), Bool.or_false]
  rw [recursiveDirectory?, if_pos (endsWith_iff.2 (List.suffix_append s recursiveTail))]
  simp only [hdrop, hplain, Bool.false_eq_true, if_false, h.unescape_eq]

/-! ### Literal bases -/

/-- A spelling is empty exactly if its text is. -/
lemma isEmpty_eq (h : Spells s t) : s.isEmpty = t.isEmpty := by
  cases h with
  | nil => rfl
  | plain _ _ => rfl
  | escaped _ _ => rfl

/-- **The names of a spelling** spell the names of the text. -/
lemma names (h : Spells s t) : List.Forall₂ Spells (Path.names s) (Path.names t) := by
  refine List.rel_filter (fun p q hpiece => ?_) h.segments
  show (!p.isEmpty) = true ↔ (!q.isEmpty) = true
  rw [hpiece.isEmpty_eq]

/-- No name of a spelling has a wildcard. -/
lemma hasWildcard_of_mem_names (h : Spells s t) : ∀ p ∈ Path.names s, hasWildcard p = false :=
  ((List.forall₂_and_left _ _).1
    (h.names.imp fun _ _ hpiece => ⟨hpiece.hasWildcard_eq, hpiece⟩)).1

/-- The literal run of a spelling goes on with that of what stands behind a slash. -/
lemma literalRun_append_slash (h : Spells s t) (rest : Text) :
    literalRun (s ++ .of '/' :: rest) = Path.names s ++ literalRun rest := by
  rw [literalRun, names_append_slash,
    List.takeWhile_append_of_pos fun p hp => by simp [h.hasWildcard_of_mem_names p hp], literalRun]

/-- **The literal base of a spelling** is its text without empty segments. -/
lemma literalBase_eq (h : Spells s t) : literalBase s = ofSegments (Path.names t) := by
  have hrun : literalRun s = Path.names s :=
    List.takeWhile_eq_self_iff.2 fun p hp => by simp [h.hasWildcard_of_mem_names p hp]
  rw [Pattern.literalBase_eq, hrun, map_unescape h.names]

/-- **The literal base of a spelling in front of further segments** goes on with theirs. -/
lemma literalBase_append_slash (h : Spells s t) (rest : Text) :
    literalBase (s ++ .of '/' :: rest) =
      ofSegments (Path.names t ++ (literalRun rest).map unescape) := by
  rw [Pattern.literalBase_eq, h.literalRun_append_slash, List.map_append, map_unescape h.names]

end Spells

/-! ### Literal texts -/

/-- **Different texts are written differently.** -/
theorem escapeLiteral_injective : Function.Injective escapeLiteral :=
  Function.LeftInverse.injective fun t => (spells_escapeLiteral t).unescape_eq

/-- **A literal text that is written as a pattern is inert** in every stage of reading: resolving
the escapes gives it back, it has no magic, and it stands for itself. In front of `/**` it is the
directory, unless it is empty; and where no segment is empty, it is its own literal base, alone and
in front of `/**`. -/
theorem escapeLiteral_inert (p : Text) :
    unescape (escapeLiteral p) = p ∧ hasMagic (escapeLiteral p) = false ∧
      alternatives (escapeLiteral p) = [escapeLiteral p] ∧
      (p ≠ [] → recursiveDirectory? (escapeLiteral p ++ recursiveTail) = some p) ∧
      ((∀ s ∈ segments p, s ≠ []) → literalBase (escapeLiteral p) = p ∧
        literalBase (escapeLiteral p ++ recursiveTail) = p) := by
  have h := spells_escapeLiteral p
  refine ⟨h.unescape_eq, h.hasMagic_eq, h.alternatives_eq, h.recursiveDirectory?_append,
    fun hfull => ?_⟩
  have hnames : ofSegments (names p) = p := by rw [names_eq_segments hfull, ofSegments_segments]
  have hstars : literalRun [.of '*', .of '*'] = [] := rfl
  refine ⟨h.literalBase_eq.trans hnames, ?_⟩
  rw [recursiveTail, h.literalBase_append_slash, hstars, List.map_nil, List.append_nil, hnames]

/-- A file whose name has a group, a class, a wildcard and backslashes and ends with a space, in a
directory whose name starts with a mark and ends with a space as well. -/
def oddName : Text := "#a /\\\x7bb,c\x7d[!d]*\\ ".toText

/-- What is written for such a file is the file in every stage, and the directory of a `/**`. -/
theorem escapeLiteral_inert_oddName :
    escapeLiteral oddName = "\\#a /\\\\\\\x7bb,c\\\x7d\\[!d\\]\\*\\\\\\ ".toText ∧
      unescape (escapeLiteral oddName) = oddName ∧
      alternatives (escapeLiteral oddName) = [escapeLiteral oddName] ∧
      recursiveDirectory? (escapeLiteral oddName ++ recursiveTail) = some oddName ∧
      literalBase (escapeLiteral oddName) = oddName ∧
      literalBase (escapeLiteral oddName ++ recursiveTail) = oddName := by
  obtain ⟨hread, -, halone, hdirectory, hbase⟩ := escapeLiteral_inert oddName
  exact ⟨by decide, hread, halone, hdirectory (by decide), hbase (by decide)⟩

end GlobPreset.Pattern
