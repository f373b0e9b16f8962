import GlobPreset.Proofs.Wildmatch.Selecting

/-!
# Lines that start with literal segments

What a line finds in a path starts with the path of its leading literal segments: the path goes on
with a slash behind them, or ends there. A line feed at the very end of a path is the one exception,
for it does not count to the ending of a match.

## Main definitions

* `Wildmatch.GoesOn` — what may follow a segment in a path that is matched.

## Main results

* `Wildmatch.slash_of_lineSteps` — what the rest of a line asks for starts with a slash.
* `Wildmatch.lineShape_literal` — the shape of a line that starts with literal segments.
* `Wildmatch.finds_leading` — a path in which such a line finds something.
* `Wildmatch.readLine_leading` — the rule of such a line.
-/

set_option autoImplicit false

namespace GlobPreset.Wildmatch

open Text

/-- What may follow a segment in a path that is matched: nothing, a slash with more behind it, or a
line feed at the very end. -/
def GoesOn (path : Text) : Prop := path = [] ∨ path.head? = some (.of '/') ∨ path = [.of '\n']

/-- What ends a match where no slash is asked for. -/
lemma isSome_close {path : Text} : (Ending.run .close path).isSome = true ↔ GoesOn path := by
  unfold GoesOn
  simp only [Ending.run]
  split
  · simp
  · simp
  · simp
  · rename_i hnil hslash hfeed
    simp only [Option.isSome_none, Bool.false_eq_true, false_iff, not_or]
    refine ⟨hnil, fun h => ?_, hfeed⟩
    exact hslash _ (List.eq_cons_of_mem_head? (by rw [h]; rfl))

/-- **What the rest of a line asks for** behind a segment starts with a slash, if there is a rest.

**Proof sketch.** Induction on the segments of the rest. A segment has a slash in front of it, the
last `**` asks for one, and a `**` in between takes one or leaves the path to what follows. -/
lemma slash_of_lineSteps (directory : Bool) {rest : List Text} (hne : rest ≠ []) :
    ∀ {steps : List Step} {ending : Ending} {path : Text},
      lineSteps directory false true rest = .ok (steps, ending) →
      (runSteps steps ending.run path).isSome → path.head? = some (.of '/') := by
  induction rest with
  | nil => exact absurd rfl hne
  | cons s rest ih =>
    intro steps ending path h hrun
    rw [lineSteps] at h
    split at h
    · split at h
      · cases h
        change (Ending.run (.slash directory) path).isSome at hrun
        simp only [Ending.run] at hrun
        split at hrun
        · assumption
        · cases hrun
      · rename_i hmore
        simp only [Bool.false_eq_true, if_false] at h
        cases hr : lineSteps directory false true rest with
        | error e => rw [hr] at h; cases h
        | ok r =>
          rw [hr] at h
          cases h
          change (Step.run (runSteps r.1 r.2.run) .innerDirs path).isSome at hrun
          -- either a slash is taken, or the path is left to what follows
          simp only [Step.run] at hrun
          split at hrun
          · rfl
          · exact ih (by simpa using hmore) hr (by simpa using hrun)
    · cases hown : segmentSteps s with
      | error e => rw [hown] at h; cases h
      | ok own =>
        cases hr : lineSteps directory false true rest with
        | error e => rw [hown, hr] at h; cases h
        | ok r =>
          rw [hown, hr] at h
          cases h
          change (runSteps (.one (.only (.of '/')) :: (own ++ r.1)) r.2.run path).isSome at hrun
          cases path with
          | nil => simp [runSteps, Step.run] at hrun
          | cons c path =>
            by_cases hc : c = .of '/'
            · subst hc
              rfl
            · simp [runSteps, Step.run, CharSet.mem, hc] at hrun

/-- What is asked for behind a segment: nothing more, or something that starts with a slash. -/
lemma goesOn_of_lineSteps (directory : Bool) (rest : List Text) {steps : List Step}
    {ending : Ending} {path : Text}
    (h : lineSteps directory false true rest = .ok (steps, ending))
    (hrun : (runSteps steps ending.run path).isSome) : GoesOn path := by
  by_cases hne : rest = []
  · subst hne
    cases h
    exact isSome_close.1 hrun
  · exact .inr (.inl (slash_of_lineSteps directory hne h hrun))

/-! ### The segments of a whole line -/

/-- Segments other than `**` in front stay as they are. -/
lemma squeezeDeep_append {pre : List Text} (hpre : ∀ s ∈ pre, s ≠ deep) (post : List Text) :
    squeezeDeep (pre ++ post) = pre ++ squeezeDeep post := by
  induction pre with
  | nil => rfl
  | cons s pre ih =>
    have hs : s ≠ deep := hpre s List.mem_cons_self
    rw [List.cons_append, squeezeDeep, ih fun x hx => hpre x (List.mem_cons_of_mem _ hx)]
    simp [hs]

/-- Segments in front of others do not matter for an empty one at the end. -/
lemma deepenLast_append {pre : List Text} (hpre : ∀ s ∈ pre, s ≠ []) (post : List Text) :
    deepenLast (pre ++ post) = pre ++ deepenLast post := by
  by_cases hpost : post = []
  · subst hpost
    have hlast : pre.getLast? ≠ some [] := fun h => hpre [] (List.mem_of_getLast? h) rfl
    simp [deepenLast, hlast]
  · unfold deepenLast
    rw [List.getLast?_append_of_ne_nil _ hpost]
    split
    · rw [List.dropLast_append_of_ne_nil hpost, List.append_assoc]
    · rfl

/-- What normalization makes of the segments behind the literal ones. -/
def normalTail (post : List Text) : List Text := squeezeDeep (deepenLast post)

/-- Something is left of segments when repeated `**` are removed. -/
lemma squeezeDeep_ne_nil {parts : List Text} (h : parts ≠ []) : squeezeDeep parts ≠ [] := by
  induction parts with
  | nil => exact absurd rfl h
  | cons s rest ih =>
    rw [squeezeDeep]
    split
    · rename_i hdeep
      refine ih ?_
      rintro rfl
      simp at hdeep
    · exact List.cons_ne_nil _ _

/-- Something stays of the segments behind the literal ones. -/
lemma normalTail_ne_nil {post : List Text} (h : post ≠ []) : normalTail post ≠ [] := by
  refine squeezeDeep_ne_nil ?_
  unfold deepenLast
  split
  · simp
  · exact h

/-- The normal form of an anchored line that starts with literal segments. -/
lemma normalForm_anchored {pre post : List Text}
    (hpre : ∀ s ∈ pre, s ≠ [] ∧ Pattern.hasWildcard s = false) :
    normalForm ([] :: (pre ++ post)) = pre ++ normalTail post := by
  change squeezeDeep (deepenLast (pre ++ post)) = _
  rw [deepenLast_append fun s hs => (hpre s hs).1,
    squeezeDeep_append fun s hs => ne_deep_of_noWildcard (hpre s hs).2]
  rfl

/-- The normal form of a line with an inner slash that starts with literal segments. -/
lemma normalForm_inner {pre post : List Text} (hne : pre ≠ [])
    (hpre : ∀ s ∈ pre, s ≠ [] ∧ Pattern.hasWildcard s = false)
    (hlong : ∀ s, pre ++ post ≠ [s] ∧ pre ++ post ≠ [s, []]) :
    normalForm (pre ++ post) = pre ++ normalTail post := by
  obtain ⟨first, pre, rfl⟩ := List.exists_cons_of_ne_nil hne
  have hfirst : first ≠ [] := (hpre first List.mem_cons_self).1
  have hform : normalForm (first :: (pre ++ post)) =
      squeezeDeep (deepenLast (first :: (pre ++ post))) := by
    unfold normalForm
    congr 2
    split
    · rename_i h
      exact absurd (List.cons.inj h).1 hfirst
    · rename_i s _ h
      exact absurd h (hlong s).1
    · rename_i s _ h
      exact absurd h (hlong s).2
    · rfl
  rw [List.cons_append, hform, ← List.cons_append,
    deepenLast_append fun s hs => (hpre s hs).1,
    squeezeDeep_append fun s hs => ne_deep_of_noWildcard (hpre s hs).2]
  rfl

/-- **The shape of a line that starts with literal segments**: their text first, then the steps of
the rest. A dangling backslash in one of them is refused. -/
lemma lineShape_literal (directory : Bool) {pre : List Text} (hne : pre ≠ [])
    (hpre : ∀ s ∈ pre, s ≠ [] ∧ Pattern.hasWildcard s = false) (rest : List Text) :
    lineShape directory (pre ++ rest) =
      if ∃ s ∈ pre, dangles s = true then .error .danglingEscape
      else (lineSteps directory false true rest).map (fun r =>
        .fromStart (literal (Path.ofSegments (pre.map Pattern.unescape)) ++ r.1) r.2) := by
  obtain ⟨first, others, hcons⟩ := List.exists_cons_of_ne_nil hne
  have hfirst : first ≠ deep := ne_deep_of_noWildcard (hpre first (by simp [hcons])).2
  have hshape : lineShape directory (pre ++ rest) =
      (lineSteps directory true false (pre ++ rest)).map (fun r => .fromStart r.1 r.2) := by
    unfold lineShape
    rw [hcons]
    simp [hfirst]
  rw [hshape]
  by_cases hdangle : ∃ s ∈ pre, dangles s = true
  · rw [if_pos hdangle, lineSteps_dangling directory rest pre true false
      (fun s hs => (hpre s hs).2) hdangle]
    rfl
  · have hlit : ∀ s ∈ pre, IsLiteral s := fun s hs =>
      ⟨(hpre s hs).1, (hpre s hs).2, by simpa using fun hd => hdangle ⟨s, hs, hd⟩⟩
    rw [if_neg hdangle, lineSteps_literal directory rest pre true false hne hlit]
    cases lineSteps directory false true rest with
    | error e => rfl
    | ok r => rfl

/-- **A path in which a line that starts with literal segments finds something** starts with the
path of these segments, and goes on with what the rest of the line asks for: nothing more, or
something that starts with a slash.

**Proof sketch.** The literal segments lead the normal form of the line, so their text is consumed
first, and what the rest asks for starts with a slash. -/
theorem finds_leading {line path : Text} {pre post : List Text}
    (hmark : line.head? ≠ some (.of '!'))
    (hparts : splitOn (.of '/') (trimLine line) = [] :: (pre ++ post) ∨
      (splitOn (.of '/') (trimLine line) = pre ++ post ∧
        ∀ s, pre ++ post ≠ [s] ∧ pre ++ post ≠ [s, []]))
    (hne : pre ≠ []) (hpre : ∀ s ∈ pre, s ≠ [] ∧ Pattern.hasWildcard s = false)
    (hfind : lineFinds line path = true) :
    (∀ s ∈ pre, dangles s = false) ∧
      ∃ behind, path = Path.ofSegments (pre.map Pattern.unescape) ++ behind ∧ GoesOn behind ∧
        (post ≠ [] → behind.head? = some (.of '/')) := by
  have hnormal : normalForm (splitOn (.of '/') (trimLine line)) = pre ++ normalTail post := by
    rcases hparts with h | ⟨h, hlong⟩
    · rw [h, normalForm_anchored hpre]
    · rw [h, normalForm_inner hne hpre hlong]
  unfold lineFinds at hfind
  rw [readLine_of_unmarked (head?_trimLine hmark)] at hfind
  by_cases hskip : isSkipped (trimLine line) = true
  · rw [if_pos hskip] at hfind
    cases hfind
  rw [if_neg hskip, shapeOf, hnormal, if_neg (by simp [hne]), lineShape_literal _ hne hpre] at hfind
  by_cases hdangle : ∃ s ∈ pre, dangles s = true
  · rw [if_pos hdangle] at hfind
    cases hfind
  rw [if_neg hdangle] at hfind
  refine ⟨fun s hs => by simpa using fun hd => hdangle ⟨s, hs, hd⟩, ?_⟩
  cases hsteps : lineSteps
      (decide ((splitOn (.of '/') (trimLine line)).getLast? = some [])) false true
      (normalTail post) with
  | error e =>
    rw [hsteps] at hfind
    cases e <;> cases hfind
  | ok r =>
    rw [hsteps] at hfind
    simp only [Except.map] at hfind
    by_cases hvalid : (Shape.fromStart
        (literal (Path.ofSegments (pre.map Pattern.unescape)) ++ r.1) r.2).isValid = true
    · simp only [hvalid, if_true, Option.map_some] at hfind
      rw [Shape.find, runSteps_append, runSteps_literal] at hfind
      obtain ⟨found, hfound⟩ := Option.isSome_iff_exists.1 hfind
      obtain ⟨behind, hdrop, hrest⟩ := Option.bind_eq_some_iff.1 hfound
      exact ⟨behind, dropLead?_eq_some.1 hdrop,
        goesOn_of_lineSteps _ _ hsteps (by rw [hrest]; rfl), fun hpost =>
        slash_of_lineSteps _ (normalTail_ne_nil hpost) hsteps (by rw [hrest]; rfl)⟩
    · simp [hvalid] at hfind

/-- Literal steps in front have no range that runs backwards. -/
lemma isValid_append (text : Text) {steps : List Step} {ending : Ending}
    (h : (Shape.fromStart steps ending).isValid = true) :
    (Shape.fromStart (literal text ++ steps) ending).isValid = true := by
  induction text with
  | nil => exact h
  | cons c text ih =>
    simp only [Shape.isValid] at ih ⊢
    rw [literal_cons, List.cons_append, List.all_cons, ih]
    rfl

/-- **The rule of a line that starts with literal segments**: their text, and what the rest asks
for. A dangling backslash in one of them is refused. -/
theorem readLine_leading {line : Text} {pre post : List Text} {steps : List Step}
    {ending : Ending} (hmark : line.head? ≠ some (.of '!')) (htrim : trimLine line = line)
    (hskip : isSkipped line = false)
    (hparts : splitOn (.of '/') line = [] :: (pre ++ post) ∨
      (splitOn (.of '/') line = pre ++ post ∧ ∀ s, pre ++ post ≠ [s] ∧ pre ++ post ≠ [s, []]))
    (hne : pre ≠ []) (hpre : ∀ s ∈ pre, s ≠ [] ∧ Pattern.hasWildcard s = false)
    (hsteps : lineSteps (decide ((splitOn (.of '/') line).getLast? = some [])) false true
      (normalTail post) = .ok (steps, ending))
    (hvalid : (Shape.fromStart steps ending).isValid = true) :
    readLine line = if ∃ s ∈ pre, dangles s = true then .error (.invalid line)
      else .ok (some ⟨true,
        .fromStart (literal (Path.ofSegments (pre.map Pattern.unescape)) ++ steps) ending⟩) := by
  have hnormal : normalForm (splitOn (.of '/') line) = pre ++ normalTail post := by
    rcases hparts with h | ⟨h, hlong⟩
    · rw [h, normalForm_anchored hpre]
    · rw [h, normalForm_inner hne hpre hlong]
  rw [readLine_of_unmarked (by rw [htrim]; exact hmark), htrim, hskip, if_neg (by simp), shapeOf,
    hnormal, if_neg (by simp [hne]), lineShape_literal _ hne hpre, hsteps]
  by_cases hdangle : ∃ s ∈ pre, dangles s = true
  · rw [if_pos hdangle, if_pos hdangle]
    rfl
  · rw [if_neg hdangle, if_neg hdangle]
    simp only [Except.map]
    rw [if_pos (isValid_append _ hvalid)]
    rfl

end GlobPreset.Wildmatch
