import GlobPreset.Proofs.Path.Names
import GlobPreset.Proofs.Wildmatch.Leading

/-!
# Steps that take any number of characters

A repetition searches for its match from the longest way to the shortest. Whether there is a match
does not depend on the order of the search: there is one exactly if the path can be split into a
part that the step may take and a rest in which what follows matches.

## Main definitions

* `Wildmatch.nameSteps` — the steps of a `*.ext`, for an extension without special characters.

## Main results

* `Wildmatch.isSome_manyThen`, `Wildmatch.isSome_leadingDirs`, `Wildmatch.isSome_innerDirs` —
  **a repetition matches iff the path splits**.
* `Wildmatch.isSome_nameSteps` — a `*.ext` at the end of a line looks at one segment.
* `Wildmatch.isSome_deepSteps`, `Wildmatch.isSome_floatingSteps` — a `*.ext` behind a `**` looks at
  every segment.
-/

set_option autoImplicit false

namespace GlobPreset.Wildmatch

open GlobPreset.Path Text

/-! ### Repetitions -/

section Repetitions

variable {next : Continuation} {path : Text}

/-- **Any number of characters of a class.** -/
lemma isSome_manyThen (set : CharSet) :
    (manyThen set next path).isSome = true ↔ ∃ run behind, path = run ++ behind ∧
      (∀ c ∈ run, set.mem c = true) ∧ (next behind).isSome = true := by
  induction path with
  | nil =>
    constructor
    · exact fun h => ⟨[], [], rfl, by simp, h⟩
    · rintro ⟨run, behind, hpath, -, h⟩
      obtain ⟨rfl, rfl⟩ := List.append_eq_nil_iff.1 hpath.symm
      exact h
  | cons c rest ih =>
    have hhere : (next (c :: rest)).isSome = true → ∃ run behind, c :: rest = run ++ behind ∧
        (∀ d ∈ run, set.mem d = true) ∧ (next behind).isSome = true :=
      fun h => ⟨[], c :: rest, rfl, by simp, h⟩
    rw [manyThen]
    split
    · rename_i hc
      rw [Option.orElse_eq_or, Option.isSome_or, Bool.or_eq_true, ih]
      constructor
      · rintro (⟨run, behind, rfl, hrun, h⟩ | h)
        · exact ⟨c :: run, behind, rfl, List.forall_mem_cons.2 ⟨hc, hrun⟩, h⟩
        · exact hhere h
      · rintro ⟨run, behind, hpath, hrun, h⟩
        cases run with
        | nil =>
          obtain rfl : c :: rest = behind := hpath
          exact .inr h
        | cons d run =>
          obtain ⟨rfl, rfl⟩ := List.cons.inj hpath
          exact .inl ⟨run, behind, rfl, (List.forall_mem_cons.1 hrun).2, h⟩
    · rename_i hc
      refine ⟨hhere, ?_⟩
      rintro ⟨run, behind, hpath, hrun, h⟩
      cases run with
      | nil =>
        obtain rfl : c :: rest = behind := hpath
        exact h
      | cons d run =>
        obtain ⟨rfl, rfl⟩ := List.cons.inj hpath
        exact absurd (hrun c List.mem_cons_self) hc

/-- A part of a line. -/
lemma isSome_lineThen :
    (lineThen next path).isSome = true ↔ ∃ run behind, path = run ++ behind ∧ .of '\n' ∉ run ∧
      (next behind).isSome = true := by
  induction path with
  | nil =>
    constructor
    · exact fun h => ⟨[], [], rfl, by simp, h⟩
    · rintro ⟨run, behind, hpath, -, h⟩
      obtain ⟨rfl, rfl⟩ := List.append_eq_nil_iff.1 hpath.symm
      exact h
  | cons c rest ih =>
    rw [lineThen, Option.orElse_eq_or, Option.isSome_or, Bool.or_eq_true]
    constructor
    · rintro (h | h)
      · split at h
        · cases h
        · rename_i hc
          obtain ⟨run, behind, rfl, hrun, h⟩ := ih.1 h
          exact ⟨c :: run, behind, rfl, by simp [Ne.symm hc, hrun], h⟩
      · exact ⟨[], c :: rest, rfl, by simp, h⟩
    · rintro ⟨run, behind, hpath, hrun, h⟩
      cases run with
      | nil =>
        obtain rfl : c :: rest = behind := hpath
        exact .inr h
      | cons d run =>
        obtain ⟨rfl, rfl⟩ := List.cons.inj hpath
        rw [List.mem_cons, not_or] at hrun
        rw [if_neg (Ne.symm hrun.1)]
        exact .inl (ih.2 ⟨run, behind, rfl, hrun.2, h⟩)

/-- A part of a line and the slash behind it. -/
lemma isSome_lineThenSlash :
    (lineThenSlash next path).isSome = true ↔ ∃ run behind, path = run ++ .of '/' :: behind ∧
      .of '\n' ∉ run ∧ (next behind).isSome = true := by
  induction path with
  | nil => simp [lineThenSlash]
  | cons c rest ih =>
    rw [lineThenSlash, Option.orElse_eq_or, Option.isSome_or, Bool.or_eq_true]
    constructor
    · rintro (h | h)
      · split at h
        · cases h
        · rename_i hc
          obtain ⟨run, behind, rfl, hrun, h⟩ := ih.1 h
          exact ⟨c :: run, behind, rfl, by simp [Ne.symm hc, hrun], h⟩
      · split at h
        · rename_i hc
          exact ⟨[], rest, by rw [hc]; rfl, by simp, h⟩
        · cases h
    · rintro ⟨run, behind, hpath, hrun, h⟩
      cases run with
      | nil =>
        obtain ⟨rfl, rfl⟩ := List.cons.inj hpath
        exact .inr (by simpa using h)
      | cons d run =>
        obtain ⟨rfl, rfl⟩ := List.cons.inj hpath
        rw [List.mem_cons, not_or] at hrun
        rw [if_neg (Ne.symm hrun.1)]
        exact .inl (ih.2 ⟨run, behind, rfl, hrun.2, h⟩)

/-- **A leading `**`** takes nothing, or directories. -/
lemma isSome_leadingDirs (hline : .of '\n' ∉ path) :
    (Step.run next .leadingDirs path).isSome = true ↔ (next path).isSome = true ∨
      ∃ run behind, path = run ++ .of '/' :: behind ∧ run ≠ [] ∧ (next behind).isSome = true := by
  unfold Step.run
  dsimp only
  rw [Option.orElse_eq_or, Option.isSome_or, Bool.or_eq_true, or_comm]
  refine or_congr_right ?_
  cases path with
  | nil => simp
  | cons c rest =>
    rw [List.mem_cons, not_or] at hline
    simp only [Ne.symm hline.1, if_false, isSome_lineThenSlash]
    constructor
    · rintro ⟨run, behind, rfl, -, h⟩
      exact ⟨c :: run, behind, rfl, List.cons_ne_nil _ _, h⟩
    · rintro ⟨run, behind, hpath, hne, h⟩
      obtain ⟨d, run, rfl⟩ := List.exists_cons_of_ne_nil hne
      obtain ⟨rfl, rfl⟩ := List.cons.inj hpath
      exact ⟨run, behind, rfl, fun hmem => hline.2 (List.mem_append_left _ hmem), h⟩

/-- **A `**` between two segments** takes nothing, or a slash and what is below it. -/
lemma isSome_innerDirs (hline : .of '\n' ∉ path) :
    (Step.run next .innerDirs path).isSome = true ↔ (next path).isSome = true ∨
      ∃ run behind, path = .of '/' :: (run ++ behind) ∧ run ≠ [] ∧ (next behind).isSome = true := by
  unfold Step.run
  dsimp only
  rw [Option.orElse_eq_or, Option.isSome_or, Bool.or_eq_true, or_comm]
  refine or_congr_right ?_
  split
  · rename_i c rest
    have hc : c ≠ .of '\n' := by
      rintro rfl
      simp at hline
    have hrest : .of '\n' ∉ rest := fun hmem => hline (by simp [hmem])
    simp only [hc, if_false, isSome_lineThen]
    constructor
    · rintro ⟨run, behind, rfl, -, h⟩
      exact ⟨c :: run, behind, rfl, List.cons_ne_nil _ _, h⟩
    · rintro ⟨run, behind, hpath, hne, h⟩
      obtain ⟨d, run, rfl⟩ := List.exists_cons_of_ne_nil hne
      obtain ⟨rfl, rfl⟩ := List.cons.inj (List.cons.inj hpath).2
      exact ⟨run, behind, rfl, fun hmem => hrest (List.mem_append_left _ hmem), h⟩
  · rename_i hno
    simp only [Option.isSome_none, Bool.false_eq_true, false_iff]
    rintro ⟨run, behind, rfl, hne, -⟩
    obtain ⟨d, run, rfl⟩ := List.exists_cons_of_ne_nil hne
    exact hno d (run ++ behind) rfl

end Repetitions

/-! ### Segments -/

section Segments

/-- **The first segment** of a path ends with the path, or at a slash. -/
lemma head?_segments_eq_some {path s : Text} :
    (segments path).head? = some s ↔
      .of '/' ∉ s ∧ ∃ behind, path = s ++ behind ∧
        (behind = [] ∨ behind.head? = some (.of '/')) := by
  constructor
  · intro h
    obtain ⟨others, hsegs⟩ : ∃ others, segments path = s :: others :=
      ⟨(segments path).tail, List.eq_cons_of_mem_head? (by rw [h]; rfl)⟩
    refine ⟨not_mem_of_mem_splitOn (hsegs ▸ List.mem_cons_self), ?_⟩
    have hpath := ofSegments_segments path
    rw [hsegs] at hpath
    by_cases hothers : others = []
    · subst hothers
      exact ⟨[], by rw [← hpath, ofSegments_singleton, List.append_nil], .inl rfl⟩
    · rw [ofSegments_cons s hothers] at hpath
      exact ⟨_, hpath.symm, .inr rfl⟩
  · rintro ⟨hs, behind, rfl, rfl | hslash⟩
    · rw [List.append_nil, segments, splitOn_of_not_mem hs]
      rfl
    · obtain ⟨rest, rfl⟩ : ∃ rest, behind = .of '/' :: rest :=
        ⟨behind.tail, List.eq_cons_of_mem_head? (by rw [hslash]; rfl)⟩
      rw [segments_append_slash, segments, splitOn_of_not_mem hs]
      rfl

/-- **Some segment** of a path that does not start with a slash is its first one, or the first one
of what stands behind some other segments. -/
lemma exists_segment_iff {path : Text} (hhead : path.head? ≠ some (.of '/')) {P : Text → Prop} :
    (∃ s ∈ segments path, P s) ↔
      (∃ s, (segments path).head? = some s ∧ P s) ∨
        ∃ run behind, path = run ++ .of '/' :: behind ∧ run ≠ [] ∧
          ∃ s, (segments behind).head? = some s ∧ P s := by
  constructor
  · rintro ⟨s, hs, hP⟩
    obtain ⟨front, others, hsegs⟩ := List.append_of_mem hs
    by_cases hfront : front = []
    · subst hfront
      exact .inl ⟨s, by rw [hsegs]; rfl, hP⟩
    · have hpath := ofSegments_segments path
      rw [hsegs, ofSegments_append hfront (List.cons_ne_nil _ _)] at hpath
      refine .inr ⟨ofSegments front, ofSegments (s :: others), hpath.symm, ?_, s, ?_, hP⟩
      · intro hnil
        rw [hnil] at hpath
        exact hhead (by rw [← hpath]; rfl)
      · refine head?_segments_eq_some.2 ⟨not_mem_of_mem_splitOn hs, ?_⟩
        by_cases hothers : others = []
        · subst hothers
          exact ⟨[], by rw [ofSegments_singleton, List.append_nil], .inl rfl⟩
        · exact ⟨_, ofSegments_cons s hothers, .inr rfl⟩
  · rintro (⟨s, hs, hP⟩ | ⟨run, behind, rfl, -, s, hs, hP⟩)
    · exact ⟨s, List.mem_of_mem_head? hs, hP⟩
    · refine ⟨s, ?_, hP⟩
      rw [segments_append_slash]
      exact List.mem_append_right _ (List.mem_of_mem_head? hs)

end Segments

/-! ### Extensions -/

/-- A slash that is asked for. -/
lemma isSome_slash {next : Continuation} {path : Text} :
    (Step.run next (.one (.only (.of '/'))) path).isSome = true ↔
      ∃ behind, path = .of '/' :: behind ∧ (next behind).isSome = true := by
  cases path with
  | nil => simp [Step.run]
  | cons c rest => by_cases hc : c = .of '/' <;> simp [Step.run, CharSet.mem, hc]

/-- The steps of a `*.ext`. -/
def nameSteps (extension : Text) : List Step := .many .notSlash :: literal (.of '.' :: extension)

/-- A `*.ext` is no `**`, and is not empty. -/
lemma normalTail_name (extension : Text) :
    normalTail [.of '*' :: .of '.' :: extension] = [.of '*' :: .of '.' :: extension] := by
  simp [normalTail, deepenLast, squeezeDeep, deep]

/-- A name of an extension behind a `**` is in normal form. -/
lemma normalTail_deepName (extension : Text) :
    normalTail [deep, .of '*' :: .of '.' :: extension] =
      [deep, .of '*' :: .of '.' :: extension] := by
  simp [normalTail, deepenLast, squeezeDeep, deep]

variable {extension path : Text}

/-- A `*.ext` has no range that runs backwards. -/
lemma isValid_nameSteps (extension : Text) :
    (Shape.fromStart (nameSteps extension) .close).isValid = true := by
  have hvalid : (Shape.fromStart (literal (.of '.' :: extension) ++ []) .close).isValid = true :=
    isValid_append _ rfl
  rwa [List.append_nil] at hvalid

/-- **A `*.ext` at the end of a line** asks for the extension at the end of the first segment. -/
lemma isSome_nameSteps (he : .of '/' ∉ extension) (hline : .of '\n' ∉ path) :
    (runSteps (nameSteps extension) (Ending.run .close) path).isSome = true ↔
      ∃ s, (segments path).head? = some s ∧ .of '.' :: extension <:+ s := by
  change (manyThen .notSlash (runSteps (literal (.of '.' :: extension)) (Ending.run .close))
    path).isSome = true ↔ _
  simp only [isSome_manyThen, runSteps_literal, Option.isSome_bind, Option.any_eq_true,
    dropLead?_eq_some, isSome_close, head?_segments_eq_some]
  constructor
  · rintro ⟨run, _, rfl, hrun, behind, rfl, hgoes⟩
    refine ⟨run ++ .of '.' :: extension, ⟨?_, behind, by simp, ?_⟩, List.suffix_append _ _⟩
    · have hslash : .of '/' ∉ run := fun hmem => by simpa [CharSet.mem] using hrun _ hmem
      simp [hslash, he]
    · rcases hgoes with hnil | hhead | rfl
      · exact .inl hnil
      · exact .inr hhead
      · simp at hline
  · rintro ⟨s, ⟨hs, behind, rfl, hbehind⟩, run, rfl⟩
    refine ⟨run, .of '.' :: extension ++ behind, by simp, fun c hc => ?_, behind, rfl, ?_⟩
    · have hne : c ≠ .of '/' := by
        rintro rfl
        exact hs (List.mem_append_left _ hc)
      simpa [CharSet.mem] using hne
    · exact hbehind.imp_right .inl

/-- **A `*.ext` behind a leading `**`** asks for the extension at the end of some segment. -/
lemma isSome_floatingSteps (he : .of '/' ∉ extension) (hline : .of '\n' ∉ path)
    (hhead : path.head? ≠ some (.of '/')) :
    (runSteps (.leadingDirs :: nameSteps extension) (Ending.run .close) path).isSome = true ↔
      ∃ s ∈ segments path, .of '.' :: extension <:+ s := by
  change (Step.run (runSteps (nameSteps extension) (Ending.run .close)) .leadingDirs
    path).isSome = true ↔ _
  rw [isSome_leadingDirs hline, exists_segment_iff hhead, isSome_nameSteps he hline]
  refine or_congr_right (exists₂_congr fun run behind => and_congr_right ?_)
  rintro rfl
  rw [isSome_nameSteps he fun hmem => hline (by simp [hmem])]

/-- **A `*.ext` behind a `**` behind a directory** asks for a slash, and for the extension at the
end of some segment. -/
lemma isSome_deepSteps (he : .of '/' ∉ extension) (hline : .of '\n' ∉ path)
    (hdoubled : ¬ [.of '/', .of '/'] <+: path) :
    (runSteps (.innerDirs :: .one (.only (.of '/')) :: nameSteps extension) (Ending.run .close)
        path).isSome = true ↔
      ∃ rel, path = .of '/' :: rel ∧ ∃ s ∈ segments rel, .of '.' :: extension <:+ s := by
  change (Step.run (Step.run (runSteps (nameSteps extension) (Ending.run .close))
    (.one (.only (.of '/')))) .innerDirs path).isSome = true ↔ _
  have hname : ∀ behind, .of '\n' ∉ behind →
      ((runSteps (nameSteps extension) (Ending.run .close) behind).isSome = true ↔
        ∃ s, (segments behind).head? = some s ∧ .of '.' :: extension <:+ s) :=
    fun _ => isSome_nameSteps he
  simp only [isSome_innerDirs hline, isSome_slash]
  constructor
  · rintro (⟨rel, rfl, h⟩ | ⟨run, _, rfl, hne, behind, rfl, h⟩)
    · obtain ⟨s, hs, hext⟩ := (hname rel fun hmem => hline (by simp [hmem])).1 h
      exact ⟨rel, rfl, s, List.mem_of_mem_head? hs, hext⟩
    · obtain ⟨s, hs, hext⟩ := (hname behind fun hmem => hline (by simp [hmem])).1 h
      refine ⟨_, rfl, s, ?_, hext⟩
      rw [segments_append_slash]
      exact List.mem_append_right _ (List.mem_of_mem_head? hs)
  · rintro ⟨rel, rfl, h⟩
    have hhead : rel.head? ≠ some (.of '/') := by
      intro hslash
      rw [List.eq_cons_of_mem_head? (show .of '/' ∈ rel.head? by rw [hslash]; rfl)] at hdoubled
      exact hdoubled ⟨_, rfl⟩
    rcases (exists_segment_iff hhead).1 h with h | ⟨run, behind, rfl, hne, h⟩
    · exact .inl ⟨rel, rfl, (hname rel fun hmem => hline (by simp [hmem])).2 h⟩
    · exact .inr ⟨run, .of '/' :: behind, rfl, hne, behind, rfl,
        (hname behind fun hmem => hline (by simp [hmem])).2 h⟩

end GlobPreset.Wildmatch
