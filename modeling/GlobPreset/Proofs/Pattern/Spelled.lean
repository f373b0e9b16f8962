import GlobPreset.Pattern.Safety
import GlobPreset.Proofs.Path.Keys
import GlobPreset.Proofs.Path.Ordinary
import GlobPreset.Proofs.Pattern.Inert

/-!
# Patterns that start with a spelled path

A pattern that spells a tame path, alone or in front of further segments, is safe, has that path for
its literal base if a wildcard follows, and what it matches can be told.

## Main results

* `Pattern.unsafeCause?_spelled` — such a pattern is safe.
* `Pattern.literalBase_spelling`, `Pattern.literalBase_spelled` — its literal base.
* `Pattern.Spells.key` — the key of a spelling spells the key of the text.
* `Pattern.findsBy_escapeLiteral` — the pattern of a path matches it, and what lies below it.
* `Pattern.findsBy_directoryPattern` — the pattern of a directory matches what lies below it.
-/

set_option autoImplicit false

namespace GlobPreset.Pattern

open GlobPreset.Path Text Wildmatch

variable {s t : Text}

/-! ### Safety -/

/-- The segments of a spelling, backslashes being read as separators: the escapes cut them, but none
of the pieces starts with a dot unless a segment of the text starts with the piece. -/
lemma segments_toSlashes_spelling (h : Spells s t) (hback : .of '\\' ∉ t) :
    ∃ q qs r rs, segments (toSlashes s) = q :: qs ∧ segments t = r :: rs ∧ q <+: r ∧
      ∀ x ∈ qs, (∃ r' ∈ rs, x <+: r') ∨ ∃ c, c ≠ .of '.' ∧ x.head? = some c := by
  induction h with
  | nil => exact ⟨[], [], [], [], rfl, rfl, List.prefix_refl _, by simp⟩
  | @plain c s t hc h ih =>
    obtain ⟨q, qs, r, rs, hq, hr, hlead, hothers⟩ :=
      ih fun hmem => hback (List.mem_cons_of_mem _ hmem)
    have hcons : toSlashes (c :: s) = c :: toSlashes s := by
      have hne : c ≠ .of '\\' := fun e => hback (e ▸ List.mem_cons_self)
      simp [toSlashes, hne]
    by_cases hslash : c = .of '/'
    · subst hslash
      refine ⟨[], q :: qs, [], r :: rs, ?_, ?_, List.prefix_refl _, ?_⟩
      · rw [hcons, ← hq]
        exact splitOn_cons_sep _
      · rw [← hr]
        exact splitOn_cons_sep _
      · intro x hx
        rcases List.mem_cons.1 hx with rfl | hx
        · exact .inl ⟨r, List.mem_cons_self, hlead⟩
        · exact (hothers x hx).imp_left fun ⟨r', hr', hx'⟩ => ⟨r', List.mem_cons_of_mem _ hr', hx'⟩
    · refine ⟨c :: q, qs, c :: r, rs, ?_, splitOn_cons_of_ne hslash hr,
        (List.prefix_cons_inj c).2 hlead, hothers⟩
      rw [hcons]
      exact splitOn_cons_of_ne hslash hq
  | @escaped c s t hc h ih =>
    obtain ⟨q, qs, r, rs, hq, hr, hlead, hothers⟩ :=
      ih fun hmem => hback (List.mem_cons_of_mem _ hmem)
    have hne : c ≠ .of '\\' := fun e => hback (e ▸ List.mem_cons_self)
    have hcons : toSlashes (.of '\\' :: c :: s) = .of '/' :: c :: toSlashes s := by
      simp [toSlashes, hne]
    refine ⟨[], (c :: q) :: qs, c :: r, rs, ?_, splitOn_cons_of_ne hc.1 hr, List.nil_prefix, ?_⟩
    · rw [hcons, ← splitOn_cons_of_ne hc.1 hq]
      exact splitOn_cons_sep _
    · intro x hx
      rcases List.mem_cons.1 hx with rfl | hx
      · exact .inr ⟨c, hc.2, rfl⟩
      · exact hothers x hx

/-- A spelling of a tame path has no parent segment, however its backslashes are read. -/
lemma hasParentSegment_spelling (h : Spells s t) (ht : IsTame t) :
    hasParentSegment (toSlashes s) = false := by
  obtain ⟨q, qs, r, rs, hq, hr, hlead, hothers⟩ := segments_toSlashes_spelling h ht.noBackslash
  rw [hasParentSegment, hq, List.any_eq_false]
  intro x hx hdots
  obtain rfl : x = [.of '.', .of '.'] := by simpa using hdots
  rcases List.mem_cons.1 hx with rfl | hx
  · exact (ht.segment_spec (hr ▸ List.mem_cons_self)).2.2 hlead
  · rcases hothers _ hx with ⟨r', hr', hlead'⟩ | ⟨c, hc, hhead⟩
    · exact (ht.segment_spec (hr ▸ List.mem_cons_of_mem _ hr')).2.2 hlead'
    · exact hc (by simpa using hhead.symm)

/-- A pattern that starts with a spelling of a clean path is relative. -/
lemma isAbsolute_spelled (h : Spells s t) (ht : IsClean t) (tail : Text)
    (htail : tail = [] ∨ tail.head? = some (.of '/')) : isAbsolute (s ++ tail) = false := by
  cases h with
  | nil => exact absurd rfl ht.ne_nil
  | @escaped c s t hc h =>
    have hdrive := hasDrive_cons_cons (x := .of '\\') (.inr (ht.isSeparator_head rfl)) (s ++ tail)
    rw [isAbsolute, List.cons_append, List.cons_append, hdrive]
    simp [isDriveLetter]
  | @plain c s t hc h =>
    have hsep := ht.isSeparator_head rfl
    have hhead : c ≠ .of '/' := by
      rintro rfl
      exact absurd hsep (by decide)
    have hdrive : hasDrive (c :: (s ++ tail)) = false := by
      cases h with
      | nil =>
        rcases htail with rfl | hslash
        · exact hasDrive_singleton c
        · obtain ⟨rest, rfl⟩ : ∃ rest, tail = .of '/' :: rest :=
            ⟨_, List.eq_cons_of_mem_head? (by rw [hslash]; rfl)⟩
          rw [List.nil_append, hasDrive_cons_cons (.inl hsep)]
          rfl
      | plain hd h =>
        rw [List.cons_append, hasDrive_cons_cons (.inl hsep)]
        exact ht.no_drive rfl
      | escaped hd h =>
        rw [List.cons_append, hasDrive_cons_cons (.inl hsep)]
        rfl
    rw [isAbsolute, List.cons_append, hdrive]
    simpa using hhead

/-- A spelling of a clean path has no NUL. -/
lemma noNul_spelling (h : Spells s t) (ht : IsClean t) : .of '\x00' ∉ s := by
  intro hmem
  rcases h.mem_or hmem with hmem | hback
  · exact ht.noNul hmem
  · exact absurd hback (by decide)

/-- **A pattern that starts with a spelling of a tame path is safe**, if what follows is. -/
lemma unsafeCause?_spelled (h : Spells s t) (ht : IsTame t) {tail : Text}
    (htail : tail = [] ∨ ∃ rest, tail = .of '/' :: rest ∧ .of '\x00' ∉ rest ∧
      hasParentSegment (toSlashes rest) = false) : unsafeCause? (s ++ tail) = none := by
  have hnul := noNul_spelling h ht.isClean
  have hparent := hasParentSegment_spelling h ht
  rcases htail with rfl | ⟨rest, rfl, hrest, hdots⟩
  · rw [List.append_nil]
    refine unsafeCause?_eq_none.2 ⟨hnul, ?_, hparent⟩
    have habs := isAbsolute_spelled h ht.isClean [] (.inl rfl)
    rwa [List.append_nil] at habs
  · refine unsafeCause?_eq_none.2 ⟨?_, isAbsolute_spelled h ht.isClean _ (.inr rfl), ?_⟩
    · intro hmem
      rcases List.mem_append.1 hmem with hmem | hmem
      · exact hnul hmem
      · rcases List.mem_cons.1 hmem with hslash | hmem
        · exact absurd hslash (by decide)
        · exact hrest hmem
    · rw [hasParentSegment, segments_toSlashes_append, List.any_append, Bool.or_eq_false_iff]
      exact ⟨hparent, hdots⟩

/-! ### Literal bases -/

/-- **The literal base of a spelling** is its text. -/
lemma literalBase_spelling (h : Spells s t) (ht : IsClean t) : literalBase s = t := by
  rw [h.literalBase_eq, names_eq_segments ht.segment_ne_nil, ofSegments_segments]

/-- **The literal base of a spelling in front of a wildcard** is its text. -/
lemma literalBase_spelled (h : Spells s t) (ht : IsClean t) {rest x : Text} {more : List Text}
    (hrest : segments rest = x :: more) (hx : hasWildcard x = true) :
    literalBase (s ++ .of '/' :: rest) = t := by
  have hne : x ≠ [] := by
    rintro rfl
    cases hx
  have hrun : literalRun rest = [] := by
    rw [literalRun, names, hrest, List.filter_cons_of_pos (by simpa using hne),
      List.takeWhile_cons_of_neg (by simp [hx])]
  rw [h.literalBase_append_slash, hrun, List.map_nil, List.append_nil,
    names_eq_segments ht.segment_ne_nil, ofSegments_segments]

/-! ### Matches -/

/-- **The line of a pattern that starts with literal segments** asks for their path first, and then
for what the rest asks for. A dangling backslash in one of them is refused. -/
lemma readLine_literal {pre post : List Text} (hpre : pre ≠ [])
    (hlit : ∀ s ∈ pre, s ≠ [] ∧ hasWildcard s = false) {steps : List Step} {ending : Ending}
    {pattern : Text}
    (hsegs : segments pattern = pre ++ post)
    (hmark : pattern.head? ≠ some (.of '!')) (hcomment : pattern.head? ≠ some (.of '#'))
    (htrim : trimLine pattern = pattern) (hlast : post.getLast? ≠ some [])
    (hsteps : lineSteps false false true (normalTail post) = .ok (steps, ending))
    (hvalid : (Shape.fromStart steps ending).isValid = true) :
    readLine (anchored pattern) =
      if ∃ s ∈ pre, dangles s = true then .error (.invalid (anchored pattern))
      else .ok (some ⟨true,
        .fromStart (literal (ofSegments (pre.map unescape)) ++ steps) ending⟩) := by
  obtain ⟨first, others, hcons⟩ := List.exists_cons_of_ne_nil hpre
  have hfirst := hlit first (hcons ▸ List.mem_cons_self)
  have hlast' : (pre ++ post).getLast? ≠ some [] := by
    rw [List.getLast?_append]
    cases hp : post.getLast? with
    | some x => rw [hp] at hlast; simpa using hlast
    | none =>
      simp only [Option.none_or]
      intro hnil
      exact (hlit [] (List.mem_of_getLast? hnil)).1 rfl
  have hne : pattern ≠ [] := by
    rintro rfl
    rw [hcons, List.cons_append] at hsegs
    exact hfirst.1 (List.cons.inj hsegs).1.symm
  rcases anchored_of_segments (hsegs.trans (by rw [hcons]; rfl)) hfirst with ha | ⟨ha, hinner⟩
  · rw [ha]
    have hcut : splitOn (.of '/') (.of '/' :: pattern) = [] :: (pre ++ post) := by
      rw [splitOn_cons_sep, ← hsegs]
      rfl
    refine readLine_leading (by simp) ?_ ?_ (.inl hcut) hpre hlit ?_ hvalid
    · rw [trimLine_cons_slash, htrim]
    · simp [isSkipped, hne]
    · rw [hcut, List.getLast?_cons_of_ne_nil (by simp [hpre]), decide_eq_false hlast']
      exact hsteps
  · rw [ha]
    have hcut : splitOn (.of '/') pattern = pre ++ post := hsegs
    refine readLine_leading hmark htrim ?_ (.inr ⟨hcut, hsegs ▸ hinner⟩) hpre hlit ?_ hvalid
    · have hslash : pattern ≠ [.of '/'] := by
        rintro rfl
        rw [hcons, List.cons_append] at hsegs
        exact hfirst.1 (List.cons.inj hsegs).1.symm
      simp [isSkipped, hne, hcomment, hslash]
    · rw [hcut, decide_eq_false hlast']
      exact hsteps

/-- The line of a pattern that starts with a spelling of a plain path, on its own or in front of
`/**`, asks for the path first. -/
lemma readLine_spelled (h : Spells s t) (ht : IsPlain t) (post : List Text)
    (steps : List Step) (ending : Ending) {pattern : Text}
    (hsegs : segments pattern = segments s ++ post)
    (hmark : pattern.head? ≠ some (.of '!')) (hcomment : pattern.head? ≠ some (.of '#'))
    (htrim : trimLine pattern = pattern) (hlast : post.getLast? ≠ some [])
    (hsteps : lineSteps false false true (normalTail post) = .ok (steps, ending))
    (hvalid : (Shape.fromStart steps ending).isValid = true) :
    readLine (anchored pattern) = .ok (some ⟨true, .fromStart (literal t ++ steps) ending⟩) := by
  have hbase : ofSegments ((segments s).map unescape) = t := by
    rw [h.map_unescape_segments, ofSegments_segments]
  have hlit := h.isLiteral_of_mem fun q hq => (ht q hq).ne_nil
  have hdangle : ¬ ∃ p ∈ segments s, dangles p = true := by
    rintro ⟨p, hp, hd⟩
    rw [(hlit p hp).dangles_eq] at hd
    cases hd
  rw [readLine_literal (segments_ne_nil s)
    (fun p hp => ⟨(hlit p hp).ne_nil, (hlit p hp).noWildcard⟩) hsegs hmark hcomment htrim hlast
    hsteps hvalid, if_neg hdangle, hbase]

/-- What the shape of a pattern that starts with a spelling finds. -/
lemma finds_of_readLine {pattern path : Text} {steps : List Step} {ending : Ending}
    (hread : readLine (anchored pattern) =
      .ok (some ⟨true, .fromStart (literal t ++ steps) ending⟩)) :
    finds pattern path = true ↔
      ∃ behind, RuleSet.plainPath path = t ++ behind ∧
        (runSteps steps ending.run behind).isSome = true := by
  rw [finds, lineFinds, hread]
  simp only [Shape.find]
  rw [runSteps_append, runSteps_literal, Option.isSome_bind, Option.any_eq_true]
  simp only [dropLead?_eq_some]

/-- A pattern without an exclusion mark is a selecting one if it is read as a rule. -/
lemma isSelecting_of_readLine {pattern : Text} {rule : Option Rule}
    (hmark : pattern.head? ≠ some (.of '!')) (hread : readLine (anchored pattern) = .ok rule) :
    IsSelecting pattern :=
  ⟨hmark, rule, hread⟩

/-- A line with no blank at its end is not trimmed. -/
lemma trimLine_concat (line : Text) {c : CodePoint} (hc : isBlank c = false) :
    trimLine (line ++ [c]) = line ++ [c] := by
  unfold trimLine
  split
  · rfl
  · refine dropEndWhile_eq_self fun d hd => ?_
    obtain rfl : c = d := by simpa using hd
    exact hc

/-! ### Keys -/

section Keys

variable (policy : CasePolicy)

/-- What a character folds to needs no escape, unless the character itself does. -/
lemma needsEscape_of_isFoldImage {c : CodePoint} (h : isFoldImage c.toNat = true) :
    needsEscape c = false := by
  rw [Bool.eq_false_iff]
  intro hc
  simp only [needsEscape, isMagic, isWildcard, Bool.or_eq_true, beq_iff_eq] at hc
  rcases hc with (((((rfl | rfl) | rfl) | rfl) | rfl) | rfl) | rfl <;> exact absurd h (by decide)

/-- What a letter is folded to is no blank. -/
lemma isBlank_of_isFoldImage {c : CodePoint} (h : isFoldImage c.toNat = true) :
    isBlank c = false := by
  simp only [isFoldImage, Bool.or_eq_true, Bool.and_eq_true, decide_eq_true_eq, bne_iff_ne,
    Bool.not_eq_true', Bool.and_eq_false_iff, decide_eq_false_iff_not] at h
  simp [isBlank]
  omega

/-- **The key of a spelling** spells the key of the text. -/
lemma Spells.key (h : Spells s t) : Spells (policy.key s) (policy.key t) := by
  have hclass : ∀ {c : CodePoint}, needsEscape c = false →
      ∀ d ∈ policy.key [c], needsEscape d = false := by
    intro c hc d hd
    rcases (policy.key_singleton c).2 d hd with rfl | himage
    · exact hc
    · exact needsEscape_of_isFoldImage himage
  induction h with
  | nil => simpa using Spells.nil
  | @plain c s t hc h ih =>
    rw [policy.key_cons c s, policy.key_cons c t]
    exact (Spells.of_plain (hclass hc)).append ih
  | @escaped c s t hc h ih =>
    have hback : policy.key [.of '\\'] = [.of '\\'] := policy.key_of_fold (by decide)
    rw [policy.key_cons (.of '\\'), hback, policy.key_cons c s, policy.key_cons c t,
      List.singleton_append]
    -- the escape stands in front of the first of the characters that are compared
    by_cases hescape : needsEscape c = true
    · have hself : policy.key [c] = [c] := by
        apply policy.key_of_fold
        simp only [needsEscape, isMagic, isWildcard, Bool.or_eq_true, beq_iff_eq] at hescape
        rcases hescape with (((((rfl | rfl) | rfl) | rfl) | rfl) | rfl) | rfl <;> decide
      rw [hself]
      exact .escaped hc ih
    · obtain ⟨hne, hmem⟩ := policy.key_singleton c
      have hunescaped := hclass (by simpa using hescape)
      obtain ⟨d, rest, hcons⟩ := List.exists_cons_of_ne_nil hne
      rw [hcons] at hunescaped hmem ⊢
      have hd : d ≠ .of '/' ∧ d ≠ .of '.' := by
        rcases hmem d List.mem_cons_self with rfl | himage
        · exact hc
        · constructor <;> rintro rfl <;> exact absurd himage (by decide)
      exact .escaped hd
        ((Spells.of_plain fun x hx => hunescaped x (List.mem_cons_of_mem _ hx)).append ih)

/-- Reading the line of an ordinary path trims nothing. -/
lemma trimLine_escapeLiteral (ht : IsOrdinary t) :
    trimLine (policy.key (escapeLiteral t)) = policy.key (escapeLiteral t) := by
  obtain ⟨front, c, rfl⟩ := List.eq_nil_or_concat' t |>.resolve_left ht.ne_nil
  obtain ⟨x, hx, hspace⟩ := escapeLiteral_concat front c
  rw [hx, policy.key_append]
  by_cases hc : c = .of ' '
  · obtain ⟨y, -, rfl⟩ := hspace hc
    subst hc
    have hspace : policy.key [.of ' '] = [.of ' '] := policy.key_of_fold (by decide)
    have hback : policy.key [.of '\\'] = [.of '\\'] := policy.key_of_fold (by decide)
    rw [policy.key_append, hspace, hback]
    unfold trimLine
    rw [if_pos (endsWith_iff.2 ⟨policy.key y, by simp⟩)]
  · have hblank := ht.endsPlain
    rw [List.getLast?_concat] at hblank
    obtain ⟨hne, hmem⟩ := policy.key_singleton c
    obtain ⟨w, d, hw⟩ := List.eq_nil_or_concat' (policy.key [c]) |>.resolve_left hne
    rw [hw] at hmem ⊢
    rw [← List.append_assoc]
    refine trimLine_concat _ ?_
    rcases hmem d (by simp) with rfl | himage
    · simpa [hc] using hblank
    · exact isBlank_of_isFoldImage himage

end Keys

/-- A pattern that starts with a literal path starts with no mark. -/
lemma head?_ne_of_needsLeadEscape (ht : IsTame t) (tail : Text) {c : CodePoint}
    (hc : needsLeadEscape c = true) : (escapeLiteral t ++ tail).head? ≠ some c := by
  intro h
  obtain ⟨d, rest, hs⟩ :=
    List.exists_cons_of_ne_nil ((spells_escapeLiteral t).ne_nil ht.ne_nil)
  have hd : d = c := by simpa [hs] using h
  have hhead := (head?_escapeLiteral (t := t) (c := d) (by rw [hs]; rfl)).1
  rw [hd, hc] at hhead
  cases hhead

/-- **The pattern of an ordinary path** matches the path and what lies below it, as far as a case
policy tells; a line feed behind the path does not count. -/
theorem findsBy_escapeLiteral (policy : CasePolicy) (ht : IsOrdinary t) :
    IsSelecting (policy.key (escapeLiteral t)) ∧
      ∀ path, findsBy policy (escapeLiteral t) path = true ↔
        ∃ behind, RuleSet.plainPath (policy.key path) = policy.key t ++ behind ∧ GoesOn behind := by
  have hhead : ∀ {c : CodePoint}, needsLeadEscape c = true → isFoldImage c.toNat = false →
      (policy.key (escapeLiteral t)).head? ≠ some c := by
    intro c hlead hc h
    have hne := head?_ne_of_needsLeadEscape ht.toIsTame [] hlead
    rw [List.append_nil] at hne
    exact hne (policy.head?_key hc h)
  have hmark := hhead (c := .of '!') (by decide) (by decide)
  have hcomment := hhead (c := .of '#') (by decide) (by decide)
  have hread := readLine_spelled ((spells_escapeLiteral t).key policy) ht.isPlain.key [] [] .close
    (by rw [List.append_nil]) hmark hcomment (trimLine_escapeLiteral policy ht) (by simp) rfl rfl
  refine ⟨isSelecting_of_readLine hmark hread, fun path => ?_⟩
  rw [findsBy, finds_of_readLine hread]
  refine exists_congr fun behind => and_congr_right fun _ => ?_
  exact isSome_close

/-- What is asked for behind the directory of a `/**`. -/
lemma finds_below {pattern path : Text}
    (hread : readLine (anchored pattern) =
      .ok (some ⟨true, .fromStart (literal t ++ []) (.slash false)⟩)) :
    finds pattern path = true ↔ ∃ behind, RuleSet.plainPath path = t ++ .of '/' :: behind := by
  rw [finds_of_readLine hread]
  constructor
  · rintro ⟨behind, hpath, hrun⟩
    change (Ending.run (.slash false) behind).isSome = true at hrun
    simp only [Ending.run] at hrun
    split at hrun
    · rename_i hslash
      have hcons : behind = .of '/' :: behind.tail :=
        List.eq_cons_of_mem_head? (by rw [hslash]; rfl)
      exact ⟨behind.tail, by rw [hpath, ← hcons]⟩
    · cases hrun
  · rintro ⟨behind, hpath⟩
    exact ⟨.of '/' :: behind, hpath, rfl⟩

/-- Reading a directory pattern trims nothing. -/
lemma trimLine_recursiveTail (head : Text) :
    trimLine (head ++ recursiveTail) = head ++ recursiveTail := by
  have hlast : head ++ recursiveTail = (head ++ [.of '/', .of '*']) ++ [.of '*'] :=
    by simp [recursiveTail]
  rw [hlast, trimLine_concat _ (by decide)]

/-- **The pattern of a directory** matches what lies below it, as far as a case policy tells. -/
theorem findsBy_directoryPattern (policy : CasePolicy) (ht : IsTame t) :
    IsSelecting (policy.key (escapeLiteral t ++ recursiveTail)) ∧
      ∀ path, findsBy policy (escapeLiteral t ++ recursiveTail) path = true ↔
        ∃ behind, RuleSet.plainPath (policy.key path) = policy.key t ++ .of '/' :: behind := by
  have htail : policy.key (escapeLiteral t ++ recursiveTail) =
      policy.key (escapeLiteral t) ++ recursiveTail := by
    rw [policy.key_append, policy.key_of_fold (t := recursiveTail) (by decide)]
  have hhead : ∀ {c : CodePoint}, needsLeadEscape c = true → isFoldImage c.toNat = false →
      (policy.key (escapeLiteral t) ++ recursiveTail).head? ≠ some c := by
    intro c hlead hc h
    rw [← htail] at h
    exact head?_ne_of_needsLeadEscape ht recursiveTail hlead (policy.head?_key hc h)
  have hmark := hhead (c := .of '!') (by decide) (by decide)
  have hcomment := hhead (c := .of '#') (by decide) (by decide)
  have hplain : IsPlain t := ht.areNames
  have hread := readLine_spelled ((spells_escapeLiteral t).key policy) hplain.key [deep] []
    (.slash false) (segments_append_slash _ _) hmark hcomment (trimLine_recursiveTail _)
    (by decide) rfl rfl
  rw [htail]
  refine ⟨isSelecting_of_readLine hmark hread, fun path => ?_⟩
  rw [findsBy, htail]
  exact finds_below hread

/-- The pattern of a directory, where case counts. -/
lemma finds_directoryPattern (ht : IsTame t) :
    IsSelecting (escapeLiteral t ++ recursiveTail) ∧
      ∀ path, finds (escapeLiteral t ++ recursiveTail) path = true ↔
        ∃ behind, RuleSet.plainPath path = t ++ .of '/' :: behind :=
  findsBy_directoryPattern .sensitive ht

end GlobPreset.Pattern
