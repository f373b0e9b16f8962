import GlobPreset.Proofs.Pattern.Groups
import GlobPreset.Proofs.Pattern.Spelled

/-!
# Directory patterns

A pattern `X/**` whose directory part has no magic stands for itself, has the directory for its
literal base, and matches whatever lies below it. This holds of every spelling of the directory that
can be read, save that a `#` in front makes the line a comment, which matches nothing.

## Main definitions

* `Pattern.IsFull` — no segment of a pattern is empty.

## Main results

* `Pattern.unescape_append_slash`, `Pattern.hasUnescaped_append_slash` — escapes and slashes.
* `Pattern.alternatives_of_noOpener` — a pattern without an opening brace stands for itself.
* `Pattern.finds_directoryGlob` — **what a directory pattern matches**.
* `Pattern.below_of_finds` — what a wildcard pattern matches lies strictly below its base.
* `Pattern.literalBase_of_noWildcard` — the base of a pattern without a wildcard is its text.

## Design

A slash is no character that an escape could hide from the segments: a backslash in front of it is
read as dangling at the end of its segment, and in the whole text it takes the slash. Either way the
same texts are left on both sides.
-/

set_option autoImplicit false

namespace GlobPreset.Pattern

open GlobPreset.Path Text Wildmatch

/-! ### Escapes and slashes -/

/-- Reading a pattern reads what stands on both sides of a slash. -/
lemma unescape_append_slash (s t : Text) :
    unescape (s ++ .of '/' :: t) = unescape s ++ .of '/' :: unescape t := by
  induction s using unescape.induct with
  | case1 => rw [List.nil_append, unescape_cons (by decide)]; rfl
  | case2 => rfl
  | case3 c rest ih =>
    rw [List.cons_append, List.cons_append, unescape, unescape, ih, List.cons_append]
  | case4 c rest hlone hpair ih =>
    have hc : c ≠ .of '\\' := ne_backslash hlone hpair
    rw [List.cons_append, unescape_cons hc, unescape_cons hc, ih, List.cons_append]

/-- A pattern is read segment by segment. -/
lemma unescape_ofSegments (parts : List Text) :
    unescape (ofSegments parts) = ofSegments (parts.map unescape) := by
  induction parts with
  | nil => rfl
  | cons p rest ih =>
    by_cases hrest : rest = []
    · subst hrest
      rfl
    · rw [ofSegments_cons p hrest, unescape_append_slash, ih, List.map_cons,
        ofSegments_cons _ (by simpa using hrest)]

/-- An unescaped character of a class stands on one of the sides of a slash. -/
lemma hasUnescaped_append_slash {special : CodePoint → Bool} (hslash : special (.of '/') = false)
    (s t : Text) :
    hasUnescaped special (s ++ .of '/' :: t) =
      (hasUnescaped special s || hasUnescaped special t) := by
  induction s using unescape.induct with
  | case1 =>
    rw [List.nil_append, hasUnescaped_cons (by decide), hslash]
    rfl
  | case2 => rfl
  | case3 c rest ih =>
    rw [List.cons_append, List.cons_append, hasUnescaped, hasUnescaped]
    exact ih
  | case4 c rest hlone hpair ih =>
    have hc : c ≠ .of '\\' := ne_backslash hlone hpair
    rw [List.cons_append, hasUnescaped_cons hc, hasUnescaped_cons hc, ih,
      Bool.or_assoc]

/-- An unescaped character of a class stands in some segment. -/
lemma hasUnescaped_eq_any {special : CodePoint → Bool} (hslash : special (.of '/') = false)
    (t : Text) : hasUnescaped special t = (segments t).any (hasUnescaped special) := by
  have hparts : ∀ parts : List Text,
      hasUnescaped special (ofSegments parts) = parts.any (hasUnescaped special) := by
    intro parts
    induction parts with
    | nil => rfl
    | cons p rest ih =>
      by_cases hrest : rest = []
      · subst hrest
        simp
      · rw [ofSegments_cons p hrest, hasUnescaped_append_slash hslash, ih, List.any_cons]
  rw [← hparts, ofSegments_segments]

/-- A pattern without characters of a class has none of a smaller class. -/
lemma hasUnescaped_mono {special special' : CodePoint → Bool}
    (hsub : ∀ c, special c = false → special' c = false) {t : Text}
    (h : hasUnescaped special t = false) : hasUnescaped special' t = false := by
  induction t using unescape.induct with
  | case1 => rfl
  | case2 => rfl
  | case3 c rest ih =>
    rw [hasUnescaped] at h ⊢
    exact ih h
  | case4 c rest hlone hpair ih =>
    have hc : c ≠ .of '\\' := ne_backslash hlone hpair
    rw [hasUnescaped_cons hc, Bool.or_eq_false_iff] at h ⊢
    exact ⟨hsub c h.1, ih h.2⟩

/-! ### Patterns without a group -/

/-- No group begins without an unescaped opening brace. -/
lemma groupBehind?_of_noOpener {t : Text} (h : hasUnescaped (· == .of '{') t = false) :
    groupBehind? 0 t = none := by
  induction t using unescape.induct with
  | case1 => rfl
  | case2 => rfl
  | case3 c rest ih =>
    rw [hasUnescaped] at h
    simp [groupBehind?, ih h]
  | case4 c rest hlone hpair ih =>
    have hc : c ≠ .of '\\' := ne_backslash hlone hpair
    rw [hasUnescaped_cons hc, Bool.or_eq_false_iff, beq_eq_false_iff_ne] at h
    simp [groupBehind?, hc, h.1, ih h.2]

/-- **A pattern without an unescaped opening brace stands for itself.** -/
lemma alternatives_of_noOpener {t : Text} (h : hasUnescaped (· == .of '{') t = false) :
    alternatives t = [t] :=
  alternatives_of_noGroup (groupBehind?_of_noOpener h)

/-! ### Literal segments -/

/-- No segment of the pattern is empty. -/
def IsFull (pattern : Text) : Prop := ∀ s ∈ segments pattern, unescape s ≠ []

instance (pattern : Text) : Decidable (IsFull pattern) :=
  inferInstanceAs (Decidable (∀ s ∈ segments pattern, unescape s ≠ []))

/-- A full pattern has no empty segment. -/
lemma IsFull.ne_nil {pattern s : Text} (h : IsFull pattern) (hs : s ∈ segments pattern) :
    s ≠ [] := by
  rintro rfl
  exact h [] hs rfl

/-- The names of a full pattern are its segments. -/
lemma IsFull.names_eq {pattern : Text} (h : IsFull pattern) : names pattern = segments pattern :=
  names_eq_segments fun _ hs => h.ne_nil hs

/-- The literal run of a full pattern: the segments in front of the first with a wildcard. -/
lemma IsFull.literalRun_eq {pattern : Text} (h : IsFull pattern) {pre post : List Text}
    (hsegs : segments pattern = pre ++ post) (hpre : ∀ s ∈ pre, hasWildcard s = false)
    (hpost : ∀ x more, post = x :: more → hasWildcard x = true) : literalRun pattern = pre := by
  rw [literalRun, h.names_eq, hsegs,
    List.takeWhile_append_of_pos fun s hs => by simp [hpre s hs]]
  cases post with
  | nil => simp
  | cons x more => rw [List.takeWhile_cons_of_neg (by simp [hpost x more rfl]), List.append_nil]

/-- **The base of a pattern without a wildcard** is the path that it spells. -/
lemma literalBase_of_noWildcard {pattern : Text} (h : IsFull pattern)
    (hwild : hasWildcard pattern = false) : literalBase pattern = unescape pattern := by
  have hall : ∀ s ∈ segments pattern, hasWildcard s = false := by
    rw [hasWildcard, hasUnescaped_eq_any (by decide), List.any_eq_false] at hwild
    exact fun s hs => by simpa [hasWildcard] using hwild s hs
  have hrun : literalRun pattern = segments pattern :=
    h.literalRun_eq (List.append_nil _).symm hall (by simp)
  rw [literalBase_eq, hrun, ← unescape_ofSegments, ofSegments_segments]

/-- **What a wildcard pattern matches lies strictly below its base.** -/
lemma below_of_finds {pattern path : Text} (h : IsTidy pattern)
    (hwild : hasWildcard pattern = true) (hbase : literalBase pattern ≠ [])
    (hfind : finds pattern path = true) :
    ∃ rel, RuleSet.plainPath path = literalBase pattern ++ .of '/' :: rel := by
  have hrun : literalRun pattern ≠ [] := by
    intro hnil
    rw [literalBase_eq, hnil] at hbase
    exact hbase rfl
  have hmore : segments pattern ≠ literalRun pattern := by
    intro hall
    rw [hasWildcard, hasUnescaped_eq_any (by decide), List.any_eq_true] at hwild
    obtain ⟨s, hs, hs'⟩ := hwild
    rw [hall] at hs
    have := (literalRun_spec hs).2
    rw [hasWildcard, hs'] at this
    cases this
  obtain ⟨-, behind, hpath, -, hslash⟩ := finds_literalRun h hrun hfind
  obtain ⟨rel, rfl⟩ : ∃ rel, behind = .of '/' :: rel :=
    ⟨behind.tail, List.eq_cons_of_mem_head? (by rw [hslash hmore]; rfl)⟩
  exact ⟨rel, hpath⟩

/-! ### Directory patterns -/

/-- The parts of a directory pattern. -/
lemma recursiveDirectory?_eq_some {pattern d : Text}
    (h : recursiveDirectory? pattern = some d) :
    ∃ head, pattern = head ++ recursiveTail ∧ hasMagic head = false ∧ d = unescape head := by
  unfold recursiveDirectory? at h
  split at h
  · rename_i hend
    obtain ⟨head, rfl⟩ := endsWith_iff.1 hend
    have hdrop : dropEnd 3 (head ++ recursiveTail) = head := dropEnd_append head recursiveTail
    simp only [hdrop] at h
    split at h
    · cases h
    · rename_i hplain
      rw [Bool.or_eq_true, not_or] at hplain
      exact ⟨head, rfl, by simpa using hplain.2, (Option.some.inj h).symm⟩
  · cases h

/-- A directory pattern stands for itself. -/
lemma alternatives_of_recursiveDirectory? {pattern d : Text}
    (h : recursiveDirectory? pattern = some d) : alternatives pattern = [pattern] := by
  obtain ⟨head, rfl, hmagic, -⟩ := recursiveDirectory?_eq_some h
  refine alternatives_of_noOpener ?_
  rw [recursiveTail, hasUnescaped_append_slash (by decide), Bool.or_eq_false_iff]
  refine ⟨hasUnescaped_mono (fun c hc => ?_) hmagic, by decide⟩
  rw [beq_eq_false_iff_ne]
  rintro rfl
  exact absurd hc (by decide)

/-- **What a directory pattern matches**: whatever lies below the directory, unless its line is a
comment. The directory is its literal base. -/
theorem finds_directoryGlob {pattern d : Text} (h : recursiveDirectory? pattern = some d)
    (hfull : IsFull pattern) (hsel : IsSelecting pattern)
    (hcomment : pattern.head? ≠ some (.of '#')) :
    literalBase pattern = d ∧
      ∀ path, finds pattern path = true ↔
        ∃ behind, RuleSet.plainPath path = d ++ .of '/' :: behind := by
  obtain ⟨head, rfl, hmagic, rfl⟩ := recursiveDirectory?_eq_some h
  have hsegs : segments (head ++ recursiveTail) = segments head ++ [deep] :=
    segments_append_slash _ _
  have hwild : ∀ s ∈ segments head, hasWildcard s = false := by
    have hhead : hasUnescaped isWildcard head = false :=
      hasUnescaped_mono (fun c hc => by simp [isMagic] at hc; exact hc.1.1) hmagic
    rw [hasUnescaped_eq_any (by decide), List.any_eq_false] at hhead
    exact fun s hs => by simpa [hasWildcard] using hhead s hs
  have hrun : literalRun (head ++ recursiveTail) = segments head := by
    refine hfull.literalRun_eq hsegs hwild fun x more hx => ?_
    obtain rfl : deep = x := (List.cons.inj hx).1
    rfl
  have hbase : ofSegments ((segments head).map unescape) = unescape head := by
    rw [← unescape_ofSegments, ofSegments_segments]
  refine ⟨by rw [literalBase_eq, hrun, hbase], fun path => ?_⟩
  have hsteps : lineSteps false false true (normalTail [deep]) = .ok ([], .slash false) := rfl
  have hread := readLine_literal (segments_ne_nil head)
    (fun s hs => ⟨hfull.ne_nil (hsegs ▸ List.mem_append_left _ hs), hwild s hs⟩) hsegs hsel.unmarked
    hcomment (trimLine_recursiveTail head) (by decide) hsteps rfl
  -- the line can be read, so no backslash dangles
  have hdangle : ¬ ∃ s ∈ segments head, dangles s = true := by
    intro hdangle
    obtain ⟨rule, hrule⟩ := hsel.readable
    rw [hread, if_pos hdangle] at hrule
    cases hrule
  rw [if_neg hdangle, hbase] at hread
  exact finds_below hread

end GlobPreset.Pattern
