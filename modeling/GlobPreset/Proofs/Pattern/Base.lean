import GlobPreset.Proofs.Path.Safe
import GlobPreset.Proofs.Pattern.Matching
import GlobPreset.Proofs.Wildmatch.Leading

/-!
# The literal base of a pattern

What a plain pattern matches is its literal base or lies below it, so nothing is lost by walking
from there. The one exception is a file whose name ends with a line feed: the line feed does not
count to the end of a match, but it counts to the name.

## Main definitions

* `Pattern.endsBlank` — the pattern ends with a blank that is not escaped.
* `Pattern.IsTidy` — a plain pattern whose segments are spelled out.
* `Pattern.literalRun` — the leading segments that make the base.

## Main results

* `Pattern.segments_eq_literalRun` — the literal run leads the segments of a tidy pattern.
* `Pattern.trimLine_of_tidy` — reading a tidy pattern trims it only behind a dangling backslash.
* `Pattern.finds_literalRun` — a path that is matched starts with the literal run.
* `Pattern.areNames_literalRun` — the base of a safe pattern that matches something is plain.
-/

set_option autoImplicit false

namespace GlobPreset.Pattern

open GlobPreset.Path Text Wildmatch

/-! ### Tidy patterns -/

/-- The pattern ends with a blank that is not escaped. -/
def endsBlank : Text → Bool
  | [] => false
  | .of '\\' :: [] => false
  | .of '\\' :: _ :: rest => endsBlank rest
  | c :: rest => if rest.isEmpty then isBlank c else endsBlank rest

/-- A plain pattern whose segments are spelled out: none is a dot or, but for the last, empty; and
no mark or blank stands at its edges unescaped. -/
structure IsTidy (pattern : Text) : Prop where
  /-- No segment is a dot. -/
  ne_dot : ∀ s ∈ segments pattern, unescape s ≠ [.of '.']
  /-- No segment but the last is empty. -/
  ne_nil : ∀ s ∈ (segments pattern).dropLast, unescape s ≠ []
  /-- There is no exclusion mark in front. -/
  unmarked : pattern.head? ≠ some (.of '!')
  /-- There is no blank in front. -/
  startsPlain : pattern.head?.any isBlank = false
  /-- There is no blank at the end, unless it is escaped. -/
  endsPlain : endsBlank pattern = false

instance (pattern : Text) : Decidable (IsTidy pattern) :=
  decidable_of_iff
    ((∀ s ∈ segments pattern, unescape s ≠ [.of '.']) ∧
      (∀ s ∈ (segments pattern).dropLast, unescape s ≠ []) ∧ pattern.head? ≠ some (.of '!') ∧
      pattern.head?.any isBlank = false ∧ endsBlank pattern = false)
    ⟨fun ⟨h₁, h₂, h₃, h₄, h₅⟩ => ⟨h₁, h₂, h₃, h₄, h₅⟩,
      fun h => ⟨h.ne_dot, h.ne_nil, h.unmarked, h.startsPlain, h.endsPlain⟩⟩

/-- The leading segments that make the base of a pattern. -/
def literalRun (pattern : Text) : List Text :=
  (names pattern).takeWhile (fun s => !hasWildcard s)

/-- The base of a pattern is its literal segments in front, read without escapes. -/
lemma literalBase_eq (pattern : Text) :
    literalBase pattern = ofSegments ((literalRun pattern).map unescape) := rfl

/-- The literal segments in front of a pattern are not empty and have no wildcards. -/
lemma literalRun_spec {pattern s : Text} (hs : s ∈ literalRun pattern) :
    s ≠ [] ∧ hasWildcard s = false := by
  have hname : s ∈ names pattern := (List.takeWhile_sublist _).subset hs
  have hwild := List.mem_takeWhile_imp hs
  exact ⟨by simpa using (List.mem_filter.1 hname).2, by simpa using hwild⟩

/-- The segments of a tidy pattern that are not the last are not empty. -/
lemma IsTidy.ne_nil_of_mem {pattern s : Text} (h : IsTidy pattern)
    (hs : s ∈ (segments pattern).dropLast) : s ≠ [] := by
  rintro rfl
  exact h.ne_nil [] hs rfl

/-- **The literal run leads the segments** of a tidy pattern: behind it comes a segment with a
wildcard, or at most an empty one. -/
lemma segments_eq_literalRun {pattern : Text} (h : IsTidy pattern) :
    ∃ post, segments pattern = literalRun pattern ++ post ∧
      (post = [] ∨ post = [[]] ∨ ∃ x more, post = x :: more ∧ hasWildcard x = true) := by
  obtain ⟨front, last, hsegs⟩ :=
    List.eq_nil_or_concat' (segments pattern) |>.resolve_left (segments_ne_nil pattern)
  have hfront : ∀ s ∈ front, s ≠ [] := by
    intro s hs
    refine h.ne_nil_of_mem ?_
    rw [hsegs, List.dropLast_concat]
    exact hs
  have hkeep : front.filter (fun s => !s.isEmpty) = front :=
    List.filter_eq_self.2 fun s hs => by simpa using hfront s hs
  -- what is left of the names behind the literal run starts with a wildcard
  have hrest : ∀ rest, names pattern = literalRun pattern ++ rest →
      rest = [] ∨ ∃ x more, rest = x :: more ∧ hasWildcard x = true := by
    intro rest hrest
    have hdrop : rest = (names pattern).dropWhile (fun s => !hasWildcard s) := by
      have hboth : literalRun pattern ++ (names pattern).dropWhile (fun s => !hasWildcard s) =
          names pattern := List.takeWhile_append_dropWhile
      exact List.append_cancel_left (hrest.symm.trans hboth.symm)
    cases hr : rest with
    | nil => exact .inl rfl
    | cons x more =>
      refine .inr ⟨x, more, rfl, ?_⟩
      have hhead := List.head?_dropWhile_not (fun s => !hasWildcard s) (names pattern)
      rw [← hdrop, hr] at hhead
      simpa using hhead
  have hboth : names pattern = literalRun pattern ++
      (names pattern).dropWhile (fun s => !hasWildcard s) :=
    (List.takeWhile_append_dropWhile).symm
  by_cases hlast : last = []
  · subst hlast
    have hnames : names pattern = front := by
      rw [names, hsegs, List.filter_append, hkeep]
      simp
    refine ⟨(names pattern).dropWhile (fun s => !hasWildcard s) ++ [[]], ?_, ?_⟩
    · rw [hsegs, ← List.append_assoc, ← hboth, hnames]
    · rcases hrest _ hboth with hnil | ⟨x, more, hx, hw⟩
      · exact .inr (.inl (by rw [hnil]; rfl))
      · exact .inr (.inr ⟨x, more ++ [[]], by rw [hx]; rfl, hw⟩)
  · have hnames : names pattern = front ++ [last] := by
      rw [names, hsegs, List.filter_append, hkeep]
      simp [hlast]
    refine ⟨(names pattern).dropWhile (fun s => !hasWildcard s), ?_, ?_⟩
    · rw [hsegs, ← hboth, hnames]
    · rcases hrest _ hboth with hnil | hx
      · exact .inl hnil
      · exact .inr (.inr hx)

/-! ### Trimming -/

/-- A blank at the end that is escaped stands behind a dangling backslash. -/
lemma dangles_of_endsBlank {t : Text} {w : CodePoint} (hw : isBlank w = true)
    (h : endsBlank (t ++ [w]) = false) : dangles t = true := by
  induction t using dangles.induct with
  | case1 =>
    have hne : w ≠ .of '\\' := by
      rintro rfl
      exact absurd hw (by decide)
    have hval : endsBlank [w] = isBlank w := by
      rw [endsBlank] <;> simp_all
    rw [List.nil_append, hval, hw] at h
    cases h
  | case2 => rfl
  | case3 c rest ih =>
    rw [dangles]
    exact ih h
  | case4 c rest hlone hpair ih =>
    have hc : c ≠ .of '\\' := ne_backslash hlone hpair
    have hend : endsBlank (c :: (rest ++ [w])) = endsBlank (rest ++ [w]) := by
      rw [endsBlank] <;> simp_all
    rw [dangles_cons hc]
    exact ih (hend ▸ h)

/-- A dangling backslash stands at the end. -/
lemma getLast?_of_dangles {t : Text} (h : dangles t = true) : t.getLast? = some (.of '\\') := by
  induction t using dangles.induct with
  | case1 => cases h
  | case2 => rfl
  | case3 c rest ih =>
    have hrest : rest ≠ [] := by
      rintro rfl
      cases h
    rw [dangles] at h
    rw [List.getLast?_cons_of_ne_nil (List.cons_ne_nil _ _),
      List.getLast?_cons_of_ne_nil hrest]
    exact ih h
  | case4 c rest hlone hpair ih =>
    rw [dangles_cons (ne_backslash hlone hpair)] at h
    have hrest : rest ≠ [] := by
      rintro rfl
      cases h
    rw [List.getLast?_cons_of_ne_nil hrest]
    exact ih h

/-- Escapes that end with a text do not reach beyond it. -/
lemma dangles_append {s : Text} (hs : dangles s = false) (t : Text) :
    dangles (s ++ t) = dangles t := by
  induction s using dangles.induct with
  | case1 => rfl
  | case2 => cases hs
  | case3 c rest ih =>
    rw [dangles] at hs
    rw [List.cons_append, List.cons_append, dangles]
    exact ih hs
  | case4 c rest hlone hpair ih =>
    have hc : c ≠ .of '\\' := ne_backslash hlone hpair
    rw [dangles_cons hc] at hs
    rw [List.cons_append, dangles_cons hc]
    exact ih hs

/-- A backslash that dangles at the end of a path dangles at the end of some segment. -/
lemma exists_dangles_segment {t : Text} (h : dangles t = true) :
    ∃ s ∈ segments t, dangles s = true := by
  by_contra hno
  have hall : ∀ s ∈ segments t, dangles s = false :=
    fun s hs => by simpa using fun hd => hno ⟨s, hs, hd⟩
  have hparts : ∀ parts : List Text, (∀ s ∈ parts, dangles s = false) →
      dangles (ofSegments parts) = false := by
    intro parts
    induction parts with
    | nil => exact fun _ => rfl
    | cons p rest ih =>
      intro hp
      by_cases hrest : rest = []
      · subst hrest
        exact hp p List.mem_cons_self
      · rw [ofSegments_cons p hrest, dangles_append (hp p List.mem_cons_self)]
        exact ih fun s hs => hp s (List.mem_cons_of_mem _ hs)
  rw [← ofSegments_segments t, hparts _ hall] at h
  cases h

/-- **Reading a tidy pattern trims it only behind a dangling backslash.** -/
lemma trimLine_of_tidy {pattern : Text} (h : endsBlank pattern = false) :
    trimLine pattern = pattern ∨
      ∃ w, pattern = trimLine pattern ++ [w] ∧ w ≠ .of '/' ∧ dangles (trimLine pattern) = true := by
  unfold trimLine
  split
  · exact .inl rfl
  rcases List.eq_nil_or_concat' pattern with rfl | ⟨front, w, rfl⟩
  · exact .inl rfl
  by_cases hw : isBlank w = true
  · have hdan := dangles_of_endsBlank hw h
    have htrim : stripEnd (front ++ [w]) = front := by
      rw [stripEnd, dropEndWhile_eq_rdropWhile, List.rdropWhile_concat_pos _ _ _ hw,
        ← dropEndWhile_eq_rdropWhile]
      refine dropEndWhile_eq_self fun c hc => ?_
      rw [getLast?_of_dangles hdan] at hc
      obtain rfl : c = .of '\\' := by simpa using hc.symm
      decide
    rw [htrim]
    refine .inr ⟨w, rfl, ?_, hdan⟩
    rintro rfl
    exact absurd hw (by decide)
  · refine .inl (dropEndWhile_eq_self fun c hc => ?_)
    rw [List.getLast?_concat] at hc
    obtain rfl : w = c := by simpa using hc
    simpa using hw

/-- Trimming behind a slash in front. -/
lemma trimLine_cons_slash (t : Text) : trimLine (.of '/' :: t) = .of '/' :: trimLine t := by
  have hends : endsWith (.of '/' :: t) [.of '\\', .of ' '] = endsWith t [.of '\\', .of ' '] := by
    rw [Bool.eq_iff_iff, endsWith_iff, endsWith_iff, List.suffix_cons_iff]
    constructor
    · rintro (h | h)
      · cases h
      · exact h
    · exact .inr
  unfold trimLine
  rw [hends]
  split
  · rfl
  · rw [stripEnd, stripEnd, dropEndWhile]
    split
    · rename_i hnil
      rw [hnil]
      rfl
    · rfl

/-- A start of a text has no more unescaped characters of a class than the text. -/
lemma hasUnescaped_of_append {special : CodePoint → Bool} {s t : Text}
    (h : hasUnescaped special (s ++ t) = false) : hasUnescaped special s = false := by
  induction s using dangles.induct with
  | case1 => rfl
  | case2 => rfl
  | case3 c rest ih =>
    rw [hasUnescaped]
    exact ih h
  | case4 c rest hlone hpair ih =>
    have hc : c ≠ .of '\\' := ne_backslash hlone hpair
    rw [List.cons_append, hasUnescaped_cons hc, Bool.or_eq_false_iff] at h
    rw [hasUnescaped_cons hc, h.1, ih h.2]
    rfl

/-- A pattern that starts with a segment without a wildcard is anchored by a slash in front, unless
it has an inner one. -/
lemma anchored_of_segments {pattern first : Text} {others : List Text}
    (hsegs : segments pattern = first :: others)
    (hfirst : first ≠ [] ∧ hasWildcard first = false) :
    anchored pattern = .of '/' :: pattern ∨
      (anchored pattern = pattern ∧
        ∀ s, segments pattern ≠ [s] ∧ segments pattern ≠ [s, []]) := by
  have hslash : startsWith pattern [.of '/'] = false := by
    rw [Bool.eq_false_iff, ne_eq, startsWith_iff]
    rintro ⟨t, rfl⟩
    have hcut : segments ([.of '/'] ++ t) = [] :: segments t := splitOn_cons_sep t
    rw [hcut] at hsegs
    exact hfirst.1 (List.cons.inj hsegs).1.symm
  have hdeep : startsWith pattern [.of '*', .of '*'] = false := by
    rw [Bool.eq_false_iff, ne_eq, startsWith_iff]
    rintro ⟨t, rfl⟩
    obtain ⟨piece, pieces, hcut⟩ :=
      List.exists_cons_of_ne_nil (splitOn_ne_nil (.of '/') (.of '*' :: t))
    have hcut' : segments ([.of '*', .of '*'] ++ t) = (.of '*' :: piece) :: pieces :=
      splitOn_cons_of_ne (by decide) hcut
    rw [hcut'] at hsegs
    rw [← (List.cons.inj hsegs).1] at hfirst
    exact absurd hfirst.2 (by simp [hasWildcard, hasUnescaped, isWildcard])
  unfold anchored
  rw [hslash, hdeep, if_neg (by simp)]
  split
  · rename_i hinner
    have hmem : .of '/' ∈ dropEndSlashes pattern := by simpa using hinner
    refine .inr ⟨rfl, fun s => ⟨fun hone => ?_, fun htwo => ?_⟩⟩
    · have hno : .of '/' ∉ s :=
        not_mem_of_mem_splitOn (t := pattern)
          (by rw [show splitOn (.of '/') pattern = _ from hone]; simp)
      have hp : pattern = s := by rw [← ofSegments_segments pattern, hone]; rfl
      rw [dropEndSlashes, dropEndWhile_eq_rdropWhile, hp] at hmem
      exact hno ((List.rdropWhile_prefix _ s).subset hmem)
    · have hno : .of '/' ∉ s :=
        not_mem_of_mem_splitOn (t := pattern)
          (by rw [show splitOn (.of '/') pattern = _ from htwo]; simp)
      have hp : pattern = s ++ [.of '/'] := by
        rw [← ofSegments_segments pattern, htwo]
        simp [ofSegments, joinWith]
      rw [dropEndSlashes, dropEndWhile_eq_rdropWhile, hp,
        List.rdropWhile_concat_pos _ _ _ (by decide)] at hmem
      exact hno ((List.rdropWhile_prefix _ s).subset hmem)
  · exact .inl rfl

/-- A tidy pattern is anchored by a slash in front, unless it has an inner one. -/
lemma anchored_of_tidy {pattern : Text} (h : IsTidy pattern) (hrun : literalRun pattern ≠ []) :
    anchored pattern = .of '/' :: pattern ∨
      (anchored pattern = pattern ∧
        ∀ s, segments pattern ≠ [s] ∧ segments pattern ≠ [s, []]) := by
  obtain ⟨post, hsegs, -⟩ := segments_eq_literalRun h
  obtain ⟨first, others, hcons⟩ := List.exists_cons_of_ne_nil hrun
  rw [hcons, List.cons_append] at hsegs
  exact anchored_of_segments hsegs (literalRun_spec (hcons ▸ List.mem_cons_self))

/-- The segments of a tidy pattern as a line reads them: the literal run leads them, or they are
literal and a backslash dangles. -/
lemma segments_trimLine {pattern : Text} (h : IsTidy pattern) (hrun : literalRun pattern ≠ []) :
    ∃ pre post, segments (trimLine pattern) = pre ++ post ∧ pre ≠ [] ∧
      (∀ s ∈ pre, s ≠ [] ∧ hasWildcard s = false) ∧
      (pre = literalRun pattern ∧ (segments pattern ≠ literalRun pattern → post ≠ []) ∨
        ∃ s ∈ pre, dangles s = true) ∧
      ((∀ s, segments pattern ≠ [s] ∧ segments pattern ≠ [s, []]) →
        ∀ s, pre ++ post ≠ [s] ∧ pre ++ post ≠ [s, []]) := by
  obtain ⟨post, hsegs, -⟩ := segments_eq_literalRun h
  rcases trimLine_of_tidy h.endsPlain with htrim | ⟨w, hpat, hw, hdan⟩
  · rw [htrim]
    refine ⟨literalRun pattern, post, hsegs, hrun, fun s hs => literalRun_spec hs,
      .inl ⟨rfl, fun hmore hnil => ?_⟩, fun hlong => hsegs ▸ hlong⟩
    exact hmore (by rw [hsegs, hnil, List.append_nil])
  -- the line lacks the last character, which belongs to the last segment
  obtain ⟨front, last, hcut⟩ :=
    List.eq_nil_or_concat' (segments (trimLine pattern)) |>.resolve_left (segments_ne_nil _)
  have hfull : segments pattern = front ++ [last ++ [w]] := by
    rw [hpat]
    exact splitOn_append_last hcut fun hmem => hw (List.mem_singleton.1 hmem).symm
  have hlast : last ≠ [] := by
    rintro rfl
    have hend := getLast?_of_dangles hdan
    rw [← ofSegments_segments (trimLine pattern), hcut] at hend
    by_cases hf : front = []
    · subst hf
      cases hend
    · rw [ofSegments_append hf (List.cons_ne_nil _ _), ofSegments_singleton,
        List.getLast?_concat] at hend
      cases hend
  have hlong : (∀ s, segments pattern ≠ [s] ∧ segments pattern ≠ [s, []]) →
      ∀ s, front ++ [last] ≠ [s] ∧ front ++ [last] ≠ [s, []] := by
    intro hlong s
    constructor
    · intro hone
      have hf : front = [] := by
        have hlen := congrArg List.length hone
        exact List.eq_nil_of_length_eq_zero (by simpa using hlen)
      exact (hlong (last ++ [w])).1 (by rw [hfull, hf]; rfl)
    · intro htwo
      have hsplit : front ++ [last] = [s] ++ [[]] := htwo
      have hinj := List.append_inj' hsplit rfl
      exact hlast (List.cons.inj hinj.2).1
  rcases List.eq_nil_or_concat' post with rfl | ⟨post, z, rfl⟩
  · rw [List.append_nil, hfull] at hsegs
    refine ⟨front ++ [last], [], by rw [hcut, List.append_nil], by simp, ?_, .inr ?_, ?_⟩
    · intro s hs
      rcases List.mem_append.1 hs with hs | hs
      · exact literalRun_spec (hsegs ▸ List.mem_append_left _ hs)
      · rw [List.mem_singleton.1 hs]
        refine ⟨hlast, ?_⟩
        have hmem : last ++ [w] ∈ literalRun pattern :=
          hsegs ▸ List.mem_append_right _ (List.mem_singleton_self _)
        exact hasUnescaped_of_append (literalRun_spec hmem).2
    · rw [← hcut]
      exact exists_dangles_segment hdan
    · rw [List.append_nil]
      exact hlong
  · rw [hfull, ← List.append_assoc] at hsegs
    obtain ⟨hfront, -⟩ := List.append_inj' hsegs rfl
    refine ⟨literalRun pattern, post ++ [last], by rw [hcut, hfront, List.append_assoc], hrun,
      fun s hs => literalRun_spec hs, .inl ⟨rfl, fun _ => by simp⟩, ?_⟩
    rw [← List.append_assoc, ← hfront]
    exact hlong

/-! ### What is matched lies at or below the base -/

/-- **A path that a tidy pattern matches starts with the literal run**, and a slash stands behind it
if the pattern has more. -/
theorem finds_literalRun {pattern path : Text} (h : IsTidy pattern)
    (hrun : literalRun pattern ≠ []) (hfind : finds pattern path = true) :
    (∀ s ∈ literalRun pattern, dangles s = false) ∧
      ∃ behind, RuleSet.plainPath path = literalBase pattern ++ behind ∧ GoesOn behind ∧
        (segments pattern ≠ literalRun pattern → behind.head? = some (.of '/')) := by
  obtain ⟨pre, post, hsegs, hne, hpre, hcase, hlong⟩ := segments_trimLine h hrun
  have hparts : splitOn (.of '/') (trimLine (anchored pattern)) = [] :: (pre ++ post) ∨
      (splitOn (.of '/') (trimLine (anchored pattern)) = pre ++ post ∧
        ∀ s, pre ++ post ≠ [s] ∧ pre ++ post ≠ [s, []]) := by
    rcases anchored_of_tidy h hrun with ha | ⟨ha, hinner⟩
    · left
      rw [ha, trimLine_cons_slash, splitOn_cons_sep, ← hsegs]
      rfl
    · right
      rw [ha]
      exact ⟨hsegs, hlong hinner⟩
  obtain ⟨hdan, behind, hpath, hgoes, hslash⟩ :=
    finds_leading (head?_anchored h.unmarked) hparts hne hpre hfind
  rcases hcase with ⟨rfl, hmore⟩ | ⟨s, hs, hd⟩
  · exact ⟨hdan, behind, hpath, hgoes, fun hlong => hslash (hmore hlong)⟩
  · rw [hdan s hs] at hd
    cases hd

/-- A segment that is not empty stands for something, unless its backslash dangles. -/
lemma unescape_ne_nil {s : Text} (hne : s ≠ []) (hdan : dangles s = false) : unescape s ≠ [] := by
  cases s using unescape.fun_cases with
  | case1 => exact absurd rfl hne
  | case2 => cases hdan
  | case3 c rest =>
    rw [unescape]
    exact List.cons_ne_nil _ _
  | case4 c rest hlone hpair =>
    rw [unescape_cons (ne_backslash hlone hpair)]
    exact List.cons_ne_nil _ _

/-- Reading without escapes brings no new character. -/
lemma mem_of_mem_unescape {t : Text} {c : CodePoint} (h : c ∈ unescape t) : c ∈ t := by
  induction t using unescape.induct with
  | case1 => exact h
  | case2 => cases h
  | case3 d rest ih =>
    rw [unescape] at h
    rcases List.mem_cons.1 h with rfl | h
    · exact List.mem_cons_of_mem _ List.mem_cons_self
    · exact List.mem_cons_of_mem _ (List.mem_cons_of_mem _ (ih h))
  | case4 d rest hlone hpair ih =>
    rw [unescape_cons (ne_backslash hlone hpair)] at h
    rcases List.mem_cons.1 h with rfl | h
    · exact List.mem_cons_self
    · exact List.mem_cons_of_mem _ (ih h)

/-- **The base of a safe tidy pattern is plain**, if the pattern matches anything at all. -/
lemma areNames_literalRun {pattern path : Text} (h : IsTidy pattern)
    (hsafe : unsafeCause? (literalBase pattern) = none) (hfind : finds pattern path = true) :
    AreNames ((literalRun pattern).map unescape) := by
  by_cases hrun : literalRun pattern = []
  · rw [hrun]
    exact areNames_nil
  obtain ⟨hdan, -⟩ := finds_literalRun h hrun hfind
  obtain ⟨post, hsegs, -⟩ := segments_eq_literalRun h
  rw [literalBase_eq] at hsafe
  intro x hx
  have hdots := ne_dots_of_safe hsafe x hx
  obtain ⟨s, hs, rfl⟩ := List.mem_map.1 hx
  have hmem : s ∈ segments pattern := hsegs ▸ List.mem_append_left _ hs
  exact ⟨unescape_ne_nil (literalRun_spec hs).1 (hdan s hs),
    fun hslash => not_mem_of_mem_splitOn hmem (mem_of_mem_unescape hslash),
    h.ne_dot s hmem, hdots⟩

end GlobPreset.Pattern
