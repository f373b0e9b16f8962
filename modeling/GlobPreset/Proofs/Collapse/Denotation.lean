import GlobPreset.Proofs.Collapse.Glob
import GlobPreset.Proofs.Selection.Invariant
import GlobPreset.Proofs.Wildmatch.Repeating

/-!
# What the patterns of a run stand for

Each form of pattern that a run writes is read back as a rule, and what that rule finds is what the
form is written for. The statement is about paths of a normal selection that are relative and in
which no line feed stands: a line feed at the end of a path does not count to a match, and a slash
in front of one is dropped.

## Main definitions

* `Glob.Denotes` — the paths that a pattern stands for.

## Main results

* `Glob.IsProper.isFaithful` — **a pattern of a run matches the paths that it stands for**.
* `Glob.IsProper.exists_matcher` — so does the matcher of the pattern alone.
-/

set_option autoImplicit false

namespace GlobPreset

open GlobPreset.Path Text Wildmatch

/-- The paths that a pattern of a run stands for. -/
def Glob.Denotes : Glob → Text → Prop
  | .file path, q => q = path ∨ path ++ [.of '/'] <+: q
  | .tree directory, q => ∃ rel, rel ≠ [] ∧ q = directory ++ .of '/' :: rel
  | .direct directory extension, q => ∃ rel, q = directory ++ .of '/' :: rel ∧
      ∃ s, (segments rel).head? = some s ∧ .of '.' :: extension <:+ s
  | .deep directory extension, q => ∃ rel, q = directory ++ .of '/' :: rel ∧
      ∃ s ∈ segments rel, .of '.' :: extension <:+ s
  | .everywhere extension, q => ∃ s ∈ segments q, .of '.' :: extension <:+ s

/-! ### Names with an extension -/

namespace IsExtension

variable {extension : Text} (h : IsExtension extension)

include h

/-- The extension of a glob has no slash. -/
lemma noSlash : .of '/' ∉ extension := h.not_mem (by decide)

/-- The name pattern of an extension. -/
lemma segmentSteps_name :
    segmentSteps (.of '*' :: .of '.' :: extension) = .ok (nameSteps extension) := by
  have hspell : Pattern.Spells (.of '.' :: extension) (.of '.' :: extension) := by
    refine Pattern.Spells.of_plain fun c hc => ?_
    rw [Bool.eq_false_iff]
    intro hescape
    rcases List.mem_cons.1 hc with rfl | hc
    · exact absurd hescape (by decide)
    · simp only [Pattern.needsEscape, Pattern.isMagic, Pattern.isWildcard, Bool.or_eq_true,
        beq_iff_eq] at hescape
      rcases hescape with (((((rfl | rfl) | rfl) | rfl) | rfl) | rfl) | rfl <;>
        exact absurd (h.2 _ hc) (by decide)
  have hglyphs : glyphSteps 0 (.of '.' :: extension) = .ok (literal (.of '.' :: extension)) := by
    rw [glyphSteps_of_literal _ hspell.hasWildcard_eq, hspell.dangles_eq, hspell.unescape_eq]
    rfl
  change (glyphSteps 0 (.of '.' :: extension)).map (.many .notSlash :: ·) = _
  rw [hglyphs]
  rfl

/-- A line that ends with an extension is not trimmed. -/
lemma trimLine_append (lead : Text) : trimLine (lead ++ extension) = lead ++ extension := by
  obtain ⟨front, c, rfl⟩ := List.eq_nil_or_concat' extension |>.resolve_left h.1
  rw [← List.append_assoc]
  exact Pattern.trimLine_concat _
    (Glob.isBlank_eq_false (Glob.toNat_of_isPlainInExtension (h.2 c (by simp))))

/-- The steps of a name pattern at the end of a line. -/
lemma lineSteps_name (isFirst separated : Bool) :
    lineSteps false isFirst separated [.of '*' :: .of '.' :: extension] =
      .ok
        ((if separated then [.one (.only (.of '/'))] else []) ++ nameSteps extension, .close) := by
  rw [lineSteps, if_neg (by simp [deep]), h.segmentSteps_name]
  change Except.ok
    ((if separated then [Step.one (.only (.of '/'))] else []) ++ nameSteps extension ++ [],
      Ending.close) = _
  rw [List.append_nil]

/-- The line of an extension everywhere. -/
lemma readLine_everywhere :
    readLine (Pattern.anchored (Glob.everywhere extension).text) =
      .ok (some ⟨true, .fromStart (.leadingDirs :: nameSteps extension) .close⟩) := by
  have htext : (Glob.everywhere extension).text =
    deep ++ .of '/' :: .of '*' :: .of '.' :: extension := rfl
  have hanchored : Pattern.anchored (deep ++ .of '/' :: .of '*' :: .of '.' :: extension) =
      deep ++ .of '/' :: .of '*' :: .of '.' :: extension := rfl
  have htrim : trimLine (deep ++ .of '/' :: .of '*' :: .of '.' :: extension) =
      deep ++ .of '/' :: .of '*' :: .of '.' :: extension :=
        h.trimLine_append [.of '*', .of '*', .of '/', .of '*', .of '.']
  have hparts : splitOn (.of '/') (deep ++ .of '/' :: .of '*' :: .of '.' :: extension) =
      [deep, .of '*' :: .of '.' :: extension] := by
    have hname : .of '/' ∉ .of '*' :: .of '.' :: extension := by simp [h.noSlash]
    rw [splitOn_append_sep, splitOn_of_not_mem hname]
    rfl
  have hnormal : normalForm [deep, .of '*' :: .of '.' :: extension] =
    [deep, .of '*' :: .of '.' :: extension] :=
    normalTail_deepName extension
  have hshape : lineShape false [deep, .of '*' :: .of '.' :: extension] =
      .ok (.fromStart (.leadingDirs :: nameSteps extension) .close) := by
    rw [lineShape, if_neg (by simp), if_neg (by simp), if_neg (by simp), lineSteps, if_pos rfl,
      h.lineSteps_name]
    rfl
  rw [htext, hanchored, readLine_of_unmarked (by rw [htrim]; simp [deep]), htrim, hparts,
    if_neg (by simp [isSkipped, deep]), shapeOf, hnormal]
  simp only [List.isEmpty_cons, Bool.false_eq_true, if_false, List.getLast?_cons_cons,
    List.getLast?_singleton, Option.some.injEq, reduceCtorEq, decide_false, hshape]
  rw [if_pos
    (show (Shape.fromStart (.leadingDirs :: nameSteps extension) .close).isValid = true from
      isValid_nameSteps extension)]
  rfl

end IsExtension

/-! ### Matches -/

namespace Glob

/-- A relative path of a normal selection is looked at as it is. -/
lemma plainPath_eq_self {q : Text} (hq : Selection.IsNormal q) (hrel : q.head? ≠ some (.of '/')) :
    RuleSet.plainPath q = q := by
  unfold RuleSet.plainPath
  split
  · exact absurd rfl hrel
  · exact absurd ⟨_, rfl⟩ hq.noDots
  · rfl

/-- **The line of a directory and segments behind it** asks for the directory first. -/
lemma finds_behind {directory extension : Text} (hd : IsTame directory)
    (he : IsExtension extension) {post : List Text} {first : List Step} {pattern : Text}
    (hsegs : segments pattern = segments (Pattern.escapeLiteral directory) ++ post)
    (hlead : ∃ tail, pattern = Pattern.escapeLiteral directory ++ tail)
    (hend : ∃ lead, pattern = lead ++ extension) (hlast : post.getLast? ≠ some [])
    (hsteps : lineSteps false false true (normalTail post) =
      .ok (first ++ nameSteps extension, .close))
    (hvalid : (Shape.fromStart (first ++ nameSteps extension) .close).isValid = true) :
    Pattern.IsSelecting pattern ∧ ∀ path, Pattern.finds pattern path = true ↔
      ∃ behind, RuleSet.plainPath path = directory ++ behind ∧
        (runSteps (first ++ nameSteps extension) (Ending.run .close) behind).isSome = true := by
  obtain ⟨tail, htail⟩ := hlead
  obtain ⟨lead, hlead⟩ := hend
  have hhead : ∀ {c : CodePoint}, Pattern.needsLeadEscape c = true → pattern.head? ≠ some c :=
    fun hc => htail ▸ Pattern.head?_ne_of_needsLeadEscape hd tail hc
  have hmark := hhead (c := .of '!') (by decide)
  have hread := Pattern.readLine_spelled (Pattern.spells_escapeLiteral directory) hd.areNames post
    _ _ hsegs hmark (hhead (by decide)) (by rw [hlead, he.trimLine_append]) hlast hsteps hvalid
  exact ⟨Pattern.isSelecting_of_readLine hmark hread, fun _ => Pattern.finds_of_readLine hread⟩

variable {g : Glob} {q : Text}

/-- What is asked for behind a directory, in a path of a normal selection. -/
lemma plain_behind (hq : Selection.IsNormal q) (hline : .of '\n' ∉ q) {directory behind : Text}
    (hpath : q = directory ++ behind) : .of '\n' ∉ behind ∧ ¬ [.of '/', .of '/'] <+: behind := by
  subst hpath
  exact ⟨fun hmem => hline (List.mem_append_right _ hmem), fun hlead =>
    hq.notDoubled (hlead.isInfix.trans (List.suffix_append directory behind).isInfix)⟩

/-- A pattern can be read, and matches the paths that it stands for. -/
def IsFaithful (g : Glob) : Prop :=
  Pattern.IsSelecting g.text ∧ ∀ q, Selection.IsNormal q → q.head? ≠ some (.of '/') → .of '\n' ∉ q →
    (Pattern.finds g.text q = true ↔ g.Denotes q)

variable {directory extension : Text}

/-- The pattern of a path matches the path, and what lies below it. -/
lemma isFaithful_file {path : Text} (h : IsOrdinary path) : (file path).IsFaithful := by
  obtain ⟨hsel, hfinds⟩ := Pattern.findsBy_escapeLiteral .sensitive h
  rw [IsFaithful, text_file]
  refine ⟨hsel, fun q hq hrel hline => (hfinds q).trans ?_⟩
  change (∃ behind, RuleSet.plainPath q = path ++ behind ∧ GoesOn behind) ↔ _
  rw [plainPath_eq_self hq hrel]
  constructor
  · rintro ⟨behind, rfl, rfl | hslash | rfl⟩
    · exact .inl (List.append_nil _)
    · rw [List.eq_cons_of_mem_head? (show .of '/' ∈ behind.head? by rw [hslash]; rfl)]
      exact .inr ⟨behind.tail, by simp⟩
    · simp at hline
  · rintro (rfl | ⟨behind, rfl⟩)
    · exact ⟨[], (List.append_nil _).symm, .inl rfl⟩
    · exact ⟨.of '/' :: behind, by simp, .inr (.inl rfl)⟩

/-- A `/**` matches what lies strictly below the directory. -/
lemma isFaithful_tree (h : IsTame directory) : (tree directory).IsFaithful := by
  obtain ⟨hsel, hfinds⟩ := Pattern.finds_directoryPattern h
  refine ⟨hsel, fun q hq hrel hline => (hfinds q).trans ?_⟩
  rw [plainPath_eq_self hq hrel]
  refine exists_congr fun rel => ⟨fun hpath => ⟨?_, hpath⟩, And.right⟩
  rintro rfl
  exact hq.getLast?_ne (by rw [hpath, List.getLast?_concat])

/-- A `/*.ext` matches what has the extension in the first segment below the directory. -/
lemma isFaithful_direct (hd : IsTame directory) (he : IsExtension extension) :
    (direct directory extension).IsFaithful := by
  have hsegs : segments (direct directory extension).text =
      segments (Pattern.escapeLiteral directory) ++ [.of '*' :: .of '.' :: extension] := by
    have hname : .of '/' ∉ .of '*' :: .of '.' :: extension := by simp [he.noSlash]
    rw [text, tail, segments_append_slash, ← splitOn_of_not_mem hname]
    rfl
  have hsteps : lineSteps false false true (normalTail [.of '*' :: .of '.' :: extension]) =
      .ok ([.one (.only (.of '/'))] ++ nameSteps extension, .close) := by
    rw [normalTail_name, he.lineSteps_name]
    rfl
  obtain ⟨hsel, hfinds⟩ := finds_behind hd he hsegs ⟨_, rfl⟩
    ⟨Pattern.escapeLiteral directory ++ [.of '/', .of '*', .of '.'],
      by simp [text, tail, base]⟩ (by simp)
    hsteps (isValid_nameSteps extension)
  refine ⟨hsel, fun q hq hrel hline => (hfinds q).trans ?_⟩
  rw [plainPath_eq_self hq hrel]
  have hname : ∀ rel, q = directory ++ .of '/' :: rel →
      ((runSteps (nameSteps extension) (Ending.run .close) rel).isSome = true ↔
        ∃ s, (segments rel).head? = some s ∧ .of '.' :: extension <:+ s) := fun rel hpath =>
    isSome_nameSteps he.noSlash fun hmem =>
      (plain_behind hq hline hpath).1 (List.mem_cons_of_mem _ hmem)
  constructor
  · rintro ⟨_, hpath, hrun⟩
    obtain ⟨rel, rfl, hrun⟩ := isSome_slash.1 hrun
    exact ⟨rel, hpath, (hname rel hpath).1 hrun⟩
  · rintro ⟨rel, hpath, hext⟩
    exact ⟨_, hpath, isSome_slash.2 ⟨rel, rfl, (hname rel hpath).2 hext⟩⟩

/-- A `/**/*.ext` matches what has the extension in some segment below the directory. -/
lemma isFaithful_deep (hd : IsTame directory) (he : IsExtension extension) :
    (deep directory extension).IsFaithful := by
  have hsegs : segments (deep directory extension).text =
      segments (Pattern.escapeLiteral directory) ++
        [Wildmatch.deep, .of '*' :: .of '.' :: extension] := by
    have hname : .of '/' ∉ .of '*' :: .of '.' :: extension := by simp [he.noSlash]
    have htext : (deep directory extension).text = Pattern.escapeLiteral directory ++
      .of '/' :: (Wildmatch.deep ++ .of '/' :: .of '*' :: .of '.' :: extension) := rfl
    rw [htext, segments_append_slash, segments_append_slash, ← splitOn_of_not_mem hname]
    rfl
  have hsteps : lineSteps false false true
      (normalTail [Wildmatch.deep, .of '*' :: .of '.' :: extension]) =
      .ok ([.innerDirs, .one (.only (.of '/'))] ++ nameSteps extension, .close) := by
    rw [normalTail_deepName, lineSteps, if_pos rfl, he.lineSteps_name, he.lineSteps_name]
    rfl
  obtain ⟨hsel, hfinds⟩ := finds_behind hd he hsegs ⟨_, rfl⟩
    ⟨Pattern.escapeLiteral directory ++ [.of '/', .of '*', .of '*', .of '/', .of '*', .of '.'],
      by simp [text, tail, base]⟩
    (by simp) hsteps (isValid_nameSteps extension)
  refine ⟨hsel, fun q hq hrel hline => (hfinds q).trans ?_⟩
  rw [plainPath_eq_self hq hrel]
  have hdeep : ∀ behind, q = directory ++ behind →
      ((runSteps ([.innerDirs, .one (.only (.of '/'))] ++ nameSteps extension) (Ending.run .close)
          behind).isSome = true ↔
        ∃ rel, behind = .of '/' :: rel ∧ ∃ s ∈ segments rel, .of '.' :: extension <:+ s) :=
    fun behind hpath => isSome_deepSteps he.noSlash (plain_behind hq hline hpath).1
      (plain_behind hq hline hpath).2
  constructor
  · rintro ⟨behind, hpath, hrun⟩
    obtain ⟨rel, rfl, hext⟩ := (hdeep behind hpath).1 hrun
    exact ⟨rel, hpath, hext⟩
  · rintro ⟨rel, hpath, hext⟩
    exact ⟨_, hpath, (hdeep _ hpath).2 ⟨rel, rfl, hext⟩⟩

/-- A `**/*.ext` matches what has the extension in some segment. -/
lemma isFaithful_everywhere (he : IsExtension extension) : (everywhere extension).IsFaithful := by
  have hread := he.readLine_everywhere
  refine ⟨Pattern.isSelecting_of_readLine (by simp [text, tail, base, Pattern.escapeLiteral]) hread,
    fun q hq hrel hline => ?_⟩
  rw [Pattern.finds_of_readLine (t := []) hread, plainPath_eq_self hq hrel]
  exact exists_eq_left'.trans (isSome_floatingSteps he.noSlash hline hrel)

/-- **A pattern of a run matches the paths that it stands for.** -/
theorem IsProper.isFaithful (h : g.IsProper) : g.IsFaithful := by
  cases g with
  | file path => exact isFaithful_file h
  | tree directory => exact isFaithful_tree h
  | direct directory extension => exact isFaithful_direct h.1 h.2
  | deep directory extension => exact isFaithful_deep h.1 h.2
  | everywhere extension => exact isFaithful_everywhere h

/-- **The matcher of a pattern of a run.** There is one, and where case counts it accepts, among the
relative paths of a normal selection in which no line feed stands, those that the pattern stands
for: a path and what lies below it, what lies strictly below a directory, or what has an extension
in the first segment below a directory, in some segment below it, or in some segment at all. -/
theorem IsProper.exists_matcher (h : g.IsProper) :
    ∃ m, Matcher.ofPatterns .sensitive [g.text] = .ok m ∧
      ∀ q, Selection.IsNormal q → q.head? ≠ some (.of '/') → .of '\n' ∉ q →
        (m.accepts q = true ↔ g.Denotes q) := by
  obtain ⟨hsel, hfinds⟩ := h.isFaithful
  have hall : ∀ p ∈ [g.text], Pattern.IsSelecting (CasePolicy.sensitive.key p) :=
    fun p hp => List.mem_singleton.1 hp ▸ hsel
  obtain ⟨m, hm, haccepts⟩ := Matcher.ofPatterns_eq_ok hall
  refine ⟨m, hm, fun q hq hrel hline => ?_⟩
  rw [haccepts, List.any_cons, List.any_nil, Bool.or_false]
  exact hfinds q hq hrel hline

/-- The extension may stand in a directory below, but not in the directory itself. -/
theorem exists_matcher_deep :
    ∃ m, Matcher.ofPatterns .sensitive ["src.ts/**/*.ts".toText] = .ok m ∧
      m.accepts "src.ts/a.ts/b".toText = true ∧ m.accepts "src.ts/a".toText = false := by
  obtain ⟨m, hm, haccepts⟩ := IsProper.exists_matcher (g := deep "src.ts".toText "ts".toText)
    ⟨(show IsOrdinary "src.ts".toText by decide +kernel).toIsTame,
      by decide +kernel, List.all_eq_true.1 (by decide +kernel)⟩
  refine ⟨m, hm, ?_, ?_⟩
  · exact (haccepts _ (by decide +kernel) (by decide +kernel) (by decide +kernel)).2
      ⟨"a.ts/b".toText, by decide +kernel, "a.ts".toText, by decide +kernel, by decide +kernel⟩
  · rw [Bool.eq_false_iff, ne_eq, haccepts _ (by decide +kernel) (by decide +kernel)
      (by decide +kernel)]
    rintro ⟨rel, hrel, s, hs, hext⟩
    obtain rfl : rel = [.of 'a'] := by simpa using hrel.symm
    obtain rfl : s = [.of 'a'] := by simpa [segments, splitOn] using hs
    exact absurd hext (by decide +kernel)

end Glob

end GlobPreset
