import GlobPreset.Proofs.Path.Ordinary
import GlobPreset.Proofs.Results
import GlobPreset.Selection.Normalize

/-!
# Normal forms of paths

What the spelling of a path can be once it has its normal form: its separators are slashes, none of
them doubled or at the end. So a path of a normal selection that is safe has a name between any two
of its separators.

## Main results

* `Selection.mem_normalPath` — normal forms have no characters of their own but slashes.
* `Selection.exists_normalPath` — the paths of a normal selection are normal forms.
* `Selection.isClean_of_normalize` — **a safe path of a normal selection is clean**.
-/

set_option autoImplicit false

namespace GlobPreset

open GlobPreset.Path Text

namespace Path

/-- Squeezing slashes brings no new character. -/
lemma mem_of_mem_squeezeSlashes {c : CodePoint} {t : Text} (h : c ∈ squeezeSlashes t) : c ∈ t := by
  fun_induction squeezeSlashes t with
  | case1 => exact h
  | case2 d t _ ih => exact List.mem_cons_of_mem d (ih h)
  | case3 d t _ ih =>
    rcases List.mem_cons.1 h with rfl | h
    · exact List.mem_cons_self
    · exact List.mem_cons_of_mem d (ih h)

/-- Dropping a `./` brings no new character. -/
lemma mem_of_mem_dropDotSlash {c : CodePoint} {t : Text} (h : c ∈ dropDotSlash t) : c ∈ t := by
  fun_induction dropDotSlash t with
  | case1 t ih => exact List.mem_cons_of_mem _ (List.mem_cons_of_mem _ (ih h))
  | case2 t _ => exact h

/-- What is left without slashes at the end is in front of the text. -/
lemma prefix_of_dropEndSlashes (t : Text) : dropEndSlashes t <+: t := by
  rw [dropEndSlashes, dropEndWhile_eq_rdropWhile]
  exact List.rdropWhile_prefix _ _

/-- No slash is left at the end. -/
lemma getLast?_dropEndSlashes (t : Text) : (dropEndSlashes t).getLast? ≠ some (.of '/') := by
  rw [dropEndSlashes, dropEndWhile_eq_rdropWhile]
  intro hlast
  have hne : t.rdropWhile (· == .of '/') ≠ [] := by
    intro hnil
    rw [hnil] at hlast
    cases hlast
  refine List.rdropWhile_last_not _ t hne ?_
  rw [List.getLast?_eq_some_getLast hne] at hlast
  exact beq_iff_eq.2 (Option.some.inj hlast)

/-- Squeezing slashes leaves the first character. -/
lemma head?_squeezeSlashes (t : Text) : (squeezeSlashes t).head? = t.head? := by
  fun_induction squeezeSlashes t with
  | case1 => rfl
  | case2 d t h ih =>
    obtain ⟨rfl, hhead⟩ : d = .of '/' ∧ t.head? = some (.of '/') := by simpa using h
    rw [ih, hhead]
    rfl
  | case3 d t _ _ => rfl

/-- No `./` is left in front. -/
lemma not_dotSlash_dropDotSlash (t : Text) : ¬ [.of '.', .of '/'] <+: dropDotSlash t := by
  fun_induction dropDotSlash t with
  | case1 t ih => exact ih
  | case2 t hno =>
    rintro ⟨rest, rfl⟩
    exact hno rest rfl

/-- Reading a run of slashes as one puts no `./` in front. -/
lemma dotSlash_of_squeezeSlashes {t : Text} (h : [.of '.', .of '/'] <+: squeezeSlashes t) :
    [.of '.', .of '/'] <+: t := by
  have hhead := head?_squeezeSlashes t
  obtain ⟨rest, hrest⟩ := h
  rw [← hrest] at hhead
  obtain ⟨more, rfl⟩ : ∃ more, t = .of '.' :: more :=
    ⟨t.tail, List.eq_cons_of_mem_head? (by rw [← hhead]; rfl)⟩
  have hmore := head?_squeezeSlashes more
  rw [squeezeSlashes, if_neg (by simp)] at hrest
  rw [← (List.cons.inj hrest).2] at hmore
  obtain ⟨behind, rfl⟩ : ∃ behind, more = .of '/' :: behind :=
    ⟨more.tail, List.eq_cons_of_mem_head? (by rw [← hmore]; rfl)⟩
  exact ⟨behind, rfl⟩

/-- The first segment of a text that does not start with a slash. -/
lemma segment_ne_nil_of_head? {t first : Text} {others : List Text}
    (hsegs : segments t = first :: others) (hne : t ≠ []) (hhead : t.head? ≠ some (.of '/')) :
    first ≠ [] := by
  obtain ⟨c, rest, rfl⟩ := List.exists_cons_of_ne_nil hne
  have hc : c ≠ .of '/' := fun e => hhead (by rw [e]; rfl)
  obtain ⟨piece, pieces, hrest⟩ := List.exists_cons_of_ne_nil (segments_ne_nil rest)
  have hcons : segments (c :: rest) = (c :: piece) :: pieces := splitOn_cons_of_ne hc hrest
  rw [hcons] at hsegs
  rw [← (List.cons.inj hsegs).1]
  exact List.cons_ne_nil c piece

/-- Where no slash stands at the end and none is doubled, only the first segment can be empty. -/
lemma segment_ne_nil_of_squeezeSlashes {t : Text} (hlast : t.getLast? ≠ some (.of '/')) :
    ∀ s ∈ (segments (squeezeSlashes t)).tail, s ≠ [] := by
  fun_induction squeezeSlashes t with
  | case1 => exact fun s hs => absurd hs List.not_mem_nil
  | case2 c t h ih =>
    have hne : t ≠ [] := by
      rintro rfl
      simp at h
    exact ih (by rwa [List.getLast?_cons_of_ne_nil hne] at hlast)
  | case3 c t h ih =>
    have hlast' : t.getLast? ≠ some (.of '/') := by
      intro e
      rw [List.getLast?_cons, e] at hlast
      exact hlast rfl
    obtain ⟨first, others, hsegs⟩ := List.exists_cons_of_ne_nil (segments_ne_nil (squeezeSlashes t))
    have hothers : ∀ s ∈ others, s ≠ [] := by
      rw [hsegs] at ih
      exact ih hlast'
    by_cases hc : c = .of '/'
    · subst hc
      -- what follows a slash is there, and starts with another character
      have hhead : t.head? ≠ some (.of '/') := by simpa using h
      have hne : squeezeSlashes t ≠ [] := by
        intro hnil
        have hhead' := head?_squeezeSlashes t
        rw [hnil] at hhead'
        rw [List.head?_eq_none_iff.1 hhead'.symm] at hlast
        exact hlast rfl
      have hcons : segments (.of '/' :: squeezeSlashes t) = [] :: first :: others := by
        rw [← hsegs]
        exact splitOn_cons_sep _
      rw [hcons, List.tail_cons]
      intro s hs
      rcases List.mem_cons.1 hs with rfl | hs
      · exact segment_ne_nil_of_head? hsegs hne (by rwa [head?_squeezeSlashes])
      · exact hothers s hs
    · have hcons : segments (c :: squeezeSlashes t) = (c :: first) :: others :=
        splitOn_cons_of_ne hc hsegs
      rwa [hcons, List.tail_cons]

end Path

namespace Selection

variable {inputs paths : List Text}

/-- The characters of a normal form are those of the path, its separators being slashes. -/
lemma mem_toSlashes_of_mem_normalPath {c : CodePoint} {path : Text} (h : c ∈ normalPath path) :
    c ∈ toSlashes path :=
  mem_of_mem_dropDotSlash ((prefix_of_dropEndSlashes _).subset (mem_of_mem_squeezeSlashes h))

/-- The characters of a normal form are those of the path, and slashes. -/
lemma mem_normalPath {c : CodePoint} {path : Text} (h : c ∈ normalPath path) :
    c = .of '/' ∨ c ∈ path := by
  obtain ⟨d, hd, rfl⟩ := List.mem_map.1 (mem_toSlashes_of_mem_normalPath h)
  split
  · exact .inl rfl
  · exact .inr hd

/-- A normal form has no backslash. -/
lemma backslash_not_mem_normalPath (path : Text) : .of '\\' ∉ normalPath path := fun h =>
  backslash_not_mem_toSlashes path (mem_toSlashes_of_mem_normalPath h)

/-- The path of a normal selection does not start with `./`. -/
lemma noDots_normalPath (path : Text) : ¬ [.of '.', .of '/'] <+: normalPath path := fun h =>
  not_dotSlash_dropDotSlash (toSlashes path)
    ((dotSlash_of_squeezeSlashes h).trans (prefix_of_dropEndSlashes _))

/-- What a selection is normalized to. -/
lemma normalize_eq_ok_iff : normalize inputs = .ok paths ↔
    (∀ p ∈ inputs, unsafeCause? p = none) ∧
      paths = sort (dedupe (inputs.filterMap normalPath?)) := by
  have hcheck : inputs.forM (checkSafe role) = .ok () ↔ ∀ p ∈ inputs, unsafeCause? p = none :=
    forM_eq_ok.trans (forall₂_congr fun _ _ => checkSafe_eq_ok)
  rw [normalize, bind_eq_ok, ← hcheck]
  exact ⟨fun ⟨_, h, e⟩ => ⟨h, (pure_eq_ok.1 e).symm⟩, fun ⟨h, e⟩ => ⟨(), h, pure_eq_ok.2 e.symm⟩⟩

/-- A path of a normal selection is the normal form of an input, which is safe. -/
lemma exists_input (h : normalize inputs = .ok paths) {p : Text} (hp : p ∈ paths) :
    ∃ input ∈ inputs, unsafeCause? input = none ∧ p = normalPath input ∧ p ≠ [] ∧
      p ≠ [.of '.'] := by
  obtain ⟨hsafe, rfl⟩ := normalize_eq_ok_iff.1 h
  rw [Text.sort, mem_sortBy, mem_dedupe, List.mem_filterMap] at hp
  obtain ⟨input, hinput, hnormal⟩ := hp
  simp only [normalPath?] at hnormal
  split at hnormal
  · cases hnormal
  · rename_i hne
    cases hnormal
    exact ⟨input, hinput, hsafe input hinput, rfl, not_or.1 hne⟩

/-- The paths of a normal selection are the normal forms of what it is given as. -/
lemma exists_normalPath (h : normalize inputs = .ok paths) {p : Text} (hp : p ∈ paths) :
    ∃ input ∈ inputs, p = normalPath input ∧ p ≠ [] := by
  obtain ⟨input, hinput, -, hnormal, hne, -⟩ := exists_input h hp
  exact ⟨input, hinput, hnormal, hne⟩

/-- **A safe path of a normal selection is clean.** -/
theorem isClean_of_normalize (h : normalize inputs = .ok paths) {p : Text} (hp : p ∈ paths)
    (hsafe : unsafeCause? p = none) : IsClean p := by
  obtain ⟨input, -, rfl, hne⟩ := exists_normalPath h hp
  have hhead : (normalPath input).head? ≠ some (.of '/') := by
    intro hslash
    have habs := (unsafeCause?_eq_none.1 hsafe).2.1
    simp [isAbsolute, hslash] at habs
  refine ⟨fun s hs => ?_, backslash_not_mem_normalPath input, hsafe⟩
  obtain ⟨first, others, hsegs⟩ := List.exists_cons_of_ne_nil (segments_ne_nil (normalPath input))
  have hothers := segment_ne_nil_of_squeezeSlashes
    (getLast?_dropEndSlashes (dropDotSlash (toSlashes input)))
  rw [← normalPath, hsegs, List.tail_cons] at hothers
  rw [hsegs] at hs
  rcases List.mem_cons.1 hs with rfl | hs
  · exact segment_ne_nil_of_head? hsegs hne hhead
  · exact hothers s hs

end Selection

end GlobPreset
