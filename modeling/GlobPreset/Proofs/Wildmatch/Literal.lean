import GlobPreset.Path.Basic
import GlobPreset.Pattern.Escape
import GlobPreset.Proofs.Text.Cutting
import GlobPreset.Wildmatch.Line

/-!
# Literal segments of a line

The leading segments of a line that have no wildcard are matched character by character. So a line
matches a path only if the path goes on from these segments, and what the rest of the line asks for
concerns what follows them.

## Main definitions

* `Wildmatch.literal` — the steps that consume a given text.
* `Wildmatch.dangles` — a text ends in a backslash that has nothing to escape.
* `Wildmatch.IsLiteral` — a segment that stands for one text.

## Main results

* `Wildmatch.runSteps_literal` — the steps of a text consume it, and nothing else.
* `Wildmatch.glyphSteps_of_literal` — the steps of a segment without a wildcard.
* `Wildmatch.lineSteps_literal` — the steps of a line that starts with literal segments.
* `Wildmatch.lineSteps_dangling` — a dangling backslash behind literal segments is refused.
-/

set_option autoImplicit false

namespace GlobPreset.Pattern

/-! ### Escapes, character by character -/

/-- A backslash either ends the text or escapes something, so neither is a different character. -/
lemma ne_backslash {c : CodePoint} {rest : Text} (hlast : c = .of '\\' → rest = [] → False)
    (hescape : ∀ d behind, c = .of '\\' → rest = d :: behind → False) : c ≠ .of '\\' := by
  rintro rfl
  cases rest with
  | nil => exact hlast rfl rfl
  | cons d behind => exact hescape d behind rfl rfl

/-- A character other than a backslash is read as it is. -/
lemma unescape_cons {c : CodePoint} (hc : c ≠ .of '\\') (r : Text) :
    unescape (c :: r) = c :: unescape r := by
  rw [unescape] <;> simp_all

/-- A character other than a backslash is unescaped. -/
lemma hasUnescaped_cons {special : CodePoint → Bool} {c : CodePoint} (hc : c ≠ .of '\\')
    (r : Text) : hasUnescaped special (c :: r) = (special c || hasUnescaped special r) := by
  rw [hasUnescaped] <;> simp_all

end GlobPreset.Pattern

namespace GlobPreset.Wildmatch

open Text

/-! ### Steps of a text -/

/-- The steps that consume one text. -/
def literal (t : Text) : List Step := t.map (fun c => .one (.only c))

/-- The literal steps of a text start with its first character. -/
@[simp] lemma literal_cons (c : CodePoint) (t : Text) :
    literal (c :: t) = .one (.only c) :: literal t := rfl

/-- The literal steps of two texts put together. -/
lemma literal_append (s t : Text) : literal (s ++ t) = literal s ++ literal t :=
  List.map_append

/-- Steps one after another are matched one after another. -/
lemma runSteps_append (first second : List Step) (next : Continuation) :
    runSteps (first ++ second) next = runSteps first (runSteps second next) :=
  List.foldr_append

/-- **The steps of a text consume that text.** -/
lemma runSteps_literal (t : Text) (next : Continuation) (path : Text) :
    runSteps (literal t) next path = (dropLead? t path).bind next := by
  induction t generalizing path with
  | nil => rfl
  | cons c t ih =>
    rw [literal_cons]
    change Step.run (runSteps (literal t) next) (.one (.only c)) path = _
    cases path with
    | nil => rfl
    | cons d path =>
      by_cases h : d = c
      · subst h
        simp [Step.run, CharSet.mem, dropLead?, ih]
      · simp [Step.run, CharSet.mem, dropLead?, h, Ne.symm h]

/-! ### Segments without a wildcard -/

/-- The text ends in a backslash that has nothing to escape. -/
def dangles : Text → Bool
  | [] => false
  | .of '\\' :: [] => true
  | .of '\\' :: _ :: rest => dangles rest
  | _ :: rest => dangles rest

/-- A character other than a backslash in front does not matter for a backslash at the end. -/
lemma dangles_cons {c : CodePoint} (hc : c ≠ .of '\\') (r : Text) :
    dangles (c :: r) = dangles r := by
  rw [dangles] <;> simp_all

/-- A segment that stands for one text: it is not empty, and has no wildcard and no dangling
backslash. -/
structure IsLiteral (segment : Text) : Prop where
  /-- Something is there. -/
  ne_nil : segment ≠ []
  /-- No wildcard is there. -/
  noWildcard : Pattern.hasWildcard segment = false
  /-- Every backslash escapes something. -/
  dangles_eq : dangles segment = false

/-- **The steps of a segment without a wildcard** consume its unescaped text; a dangling backslash
is a flaw.

**Proof sketch.** Induction along the escapes: the steps, the unescaped text and the test for a
dangling backslash all take a backslash together with the character behind it. -/
lemma glyphSteps_of_literal (segment : Text) (h : Pattern.hasWildcard segment = false) :
    glyphSteps 0 segment =
      if dangles segment = true then .error .danglingEscape
      else .ok (literal (Pattern.unescape segment)) := by
  unfold Pattern.hasWildcard at h
  induction segment using dangles.induct with
  | case1 => rfl
  | case2 => rfl
  | case3 c rest ih =>
    rw [Pattern.hasUnescaped] at h
    have hstep : glyphSteps 0 (.of '\\' :: c :: rest) =
        (glyphSteps 0 rest).map (.one (.only c) :: ·) := rfl
    rw [hstep, ih h]
    simp only [dangles, Pattern.unescape, literal_cons]
    split <;> rfl
  | case4 c rest hlone hpair ih =>
    have hc : c ≠ .of '\\' := Pattern.ne_backslash hlone hpair
    rw [Pattern.hasUnescaped_cons hc, Bool.or_eq_false_iff] at h
    have hglyph : (c ≠ .of '*' ∧ c ≠ .of '?') ∧ c ≠ .of '[' := by
      simpa [Pattern.isWildcard] using h.1
    have hstep : glyphSteps 0 (c :: rest) = (glyphSteps 0 rest).map (.one (.only c) :: ·) := by
      simp [glyphSteps, hc, hglyph.1.1, hglyph.1.2, hglyph.2]
    rw [hstep, ih h.2, Pattern.unescape_cons hc, dangles_cons hc]
    split <;> rfl

/-- A segment without a wildcard is no `**`. -/
lemma ne_deep_of_noWildcard {segment : Text} (h : Pattern.hasWildcard segment = false) :
    segment ≠ deep := by
  rintro rfl
  exact absurd h (by decide)

/-- The steps of a segment without a wildcard, as a line takes them. -/
lemma segmentSteps_of_literal {segment : Text} (h : Pattern.hasWildcard segment = false) :
    segmentSteps segment =
      if dangles segment = true then .error .danglingEscape
      else .ok (literal (Pattern.unescape segment)) := by
  have hstar : segment ≠ [.of '*'] := by
    rintro rfl
    exact absurd h (by decide)
  rw [segmentSteps, if_neg hstar, glyphSteps_of_literal segment h]

/-! ### Literal segments in front of a line -/

/-- What a segment has in front of it. -/
def slashIf (separated : Bool) : Text := if separated then [.of '/'] else []

/-- **The steps of a line that starts with literal segments** consume the path of these segments
first.

**Proof sketch.** Induction on the literal segments. None of them is a `**`, so each contributes
its own steps behind the slash that separates it from the one before. -/
lemma lineSteps_literal (directory : Bool) (rest : List Text) :
    ∀ (literals : List Text) (isFirst separated : Bool), literals ≠ [] →
      (∀ s ∈ literals, IsLiteral s) →
      lineSteps directory isFirst separated (literals ++ rest) =
        (lineSteps directory false true rest).map (fun r =>
          (literal (slashIf separated ++ Path.ofSegments (literals.map Pattern.unescape)) ++ r.1,
            r.2))
  | [], _, _, hne, _ => absurd rfl hne
  | s :: literals, isFirst, separated, _, h => by
    have hs : IsLiteral s := h s List.mem_cons_self
    have hown : segmentSteps s = .ok (literal (Pattern.unescape s)) := by
      rw [segmentSteps_of_literal hs.noWildcard, hs.dangles_eq]
      rfl
    have hunfold : lineSteps directory isFirst separated (s :: (literals ++ rest)) =
        (lineSteps directory false true (literals ++ rest)).map (fun r =>
          (literal (slashIf separated ++ Pattern.unescape s) ++ r.1, r.2)) := by
      rw [lineSteps, if_neg (ne_deep_of_noWildcard hs.noWildcard), hown, literal_append]
      cases lineSteps directory false true (literals ++ rest) <;> cases separated <;> rfl
    rw [List.cons_append, hunfold]
    by_cases hl : literals = []
    · subst hl
      rfl
    · rw [lineSteps_literal directory rest literals false true hl
        (fun x hx => h x (List.mem_cons_of_mem _ hx)), List.map_cons]
      have hglue : Path.ofSegments (Pattern.unescape s :: literals.map Pattern.unescape) =
          Pattern.unescape s ++ (.of '/' :: Path.ofSegments (literals.map Pattern.unescape)) := by
        rw [Path.ofSegments, joinWith_cons _ _ (by simpa using hl)]
        simp [Path.ofSegments]
      rw [hglue]
      cases lineSteps directory false true rest with
      | error e => rfl
      | ok r => simp [Except.map, literal_append, slashIf, List.append_assoc]

/-- **A dangling backslash in a segment without a wildcard is refused** if only such segments stand
before it. -/
lemma lineSteps_dangling (directory : Bool) (rest : List Text) :
    ∀ (literals : List Text) (isFirst separated : Bool),
      (∀ s ∈ literals, Pattern.hasWildcard s = false) → (∃ s ∈ literals, dangles s = true) →
      lineSteps directory isFirst separated (literals ++ rest) = .error .danglingEscape
  | [], _, _, _, h => by simp at h
  | s :: literals, isFirst, separated, hw, h => by
    have hs : Pattern.hasWildcard s = false := hw s List.mem_cons_self
    rw [List.cons_append, lineSteps, if_neg (ne_deep_of_noWildcard hs),
      segmentSteps_of_literal hs]
    by_cases hd : dangles s = true
    · rw [if_pos hd]
      rfl
    · have hrest : ∃ s ∈ literals, dangles s = true := by
        obtain ⟨x, hx, hxd⟩ := h
        rcases List.mem_cons.1 hx with rfl | hx
        · exact absurd hxd hd
        · exact ⟨x, hx, hxd⟩
      rw [if_neg hd, lineSteps_dangling directory rest literals false true
        (fun x hx => hw x (List.mem_cons_of_mem _ hx)) hrest]
      rfl

end GlobPreset.Wildmatch
