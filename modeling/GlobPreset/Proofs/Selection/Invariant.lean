import Mathlib.Data.List.Infix
import GlobPreset.Proofs.Preset.Paths
import GlobPreset.Proofs.Selection.Normal
import GlobPreset.Proofs.Text.Order

/-!
# The invariant of selections

A normal selection is strictly increasing, and the form of its paths leaves nothing to normalize.
The paths are checked as they are given, though, and not in their normal form: what stands in front
of a path may hide that it is absolute. Such a path is in the normal selection, and that selection
is refused when it is normalized again.

## Main definitions

* `Selection.IsNormal` — the form of the paths of a normal selection.

## Main results

* `Selection.isNormal_normalPath`, `Selection.IsNormal.normalPath_eq` — normal forms have it, and
  are what has it.
* `Selection.normalize_invariant` — **the invariant of a normal selection**.
* `Selection.normalize_eq_self_iff` — a normal selection is its own normal form iff none of its
  paths is absolute.
* `Selection.normalize_safe_iff`, `Selection.isAbsolute_normalPath` — which inputs keep the check of
  the paths valid; one that starts with a name does.

## Design

Whether a path is absolute is kept apart from the rest of the invariant: it is the one part that
the inputs do not bring along.
-/

set_option autoImplicit false

namespace GlobPreset

open GlobPreset.Path Text

/-! ### Runs of slashes -/

namespace Path

/-- No slash is doubled any more. -/
lemma not_doubled_squeezeSlashes (t : Text) : ¬ [.of '/', .of '/'] <:+: squeezeSlashes t := by
  fun_induction squeezeSlashes t with
  | case1 => simp
  | case2 c t h ih => exact ih
  | case3 c t h ih =>
    rw [List.infix_cons_iff, not_or]
    refine ⟨fun hlead => h ?_, ih⟩
    obtain ⟨hc, hrest⟩ := List.cons_prefix_cons.1 hlead
    have hhead : (squeezeSlashes t).head? = some (.of '/') := by
      obtain ⟨rest, hrest⟩ := hrest
      rw [← hrest]
      rfl
    rw [head?_squeezeSlashes] at hhead
    simp [← hc, hhead]

/-- What stands at the end stays there. -/
lemma getLast?_squeezeSlashes (t : Text) : (squeezeSlashes t).getLast? = t.getLast? := by
  fun_induction squeezeSlashes t with
  | case1 => rfl
  | case2 c t h ih =>
    have hne : t ≠ [] := by
      rintro rfl
      simp at h
    rw [ih, List.getLast?_cons_of_ne_nil hne]
  | case3 c t h ih => rw [List.getLast?_cons, List.getLast?_cons, ih]

/-- Where no slash is doubled there is nothing to squeeze. -/
lemma squeezeSlashes_eq_self {t : Text} (h : ¬ [.of '/', .of '/'] <:+: t) :
    squeezeSlashes t = t := by
  induction t with
  | nil => rfl
  | cons c t ih =>
    rw [List.infix_cons_iff, not_or] at h
    have hplain : ¬ (c = .of '/' && t.head? = some (.of '/')) := by
      simp only [Bool.and_eq_true, decide_eq_true_eq]
      rintro ⟨rfl, hhead⟩
      have hcons : t = .of '/' :: t.tail := List.eq_cons_of_mem_head? (by rw [hhead]; rfl)
      exact h.1 ⟨t.tail, by rw [hcons]; rfl⟩
    rw [squeezeSlashes, if_neg hplain, ih h.2]

/-- A text without a `./` in front stays as it is. -/
lemma dropDotSlash_eq_self {t : Text} (h : ¬ [.of '.', .of '/'] <+: t) : dropDotSlash t = t := by
  unfold dropDotSlash
  split
  · exact absurd ⟨_, rfl⟩ h
  · rfl

end Path

namespace Selection

/-! ### Normal paths -/

/-- The form of the paths of a normal selection. -/
structure IsNormal (path : Text) : Prop where
  /-- Something is named. -/
  ne_nil : path ≠ []
  /-- Separators are slashes. -/
  noBackslash : .of '\\' ∉ path
  /-- No slash is doubled. -/
  notDoubled : ¬ [.of '/', .of '/'] <:+: path
  /-- There is no `./` in front. -/
  noDots : ¬ [.of '.', .of '/'] <+: path
  /-- There is no slash at the end. -/
  getLast?_ne : path.getLast? ≠ some (.of '/')

instance (path : Text) : Decidable (IsNormal path) :=
  decidable_of_iff
    (path ≠ [] ∧ .of '\\' ∉ path ∧ ¬ [.of '/', .of '/'] <:+: path ∧ ¬ [.of '.', .of '/'] <+: path ∧
      path.getLast? ≠ some (.of '/'))
    ⟨fun ⟨h₁, h₂, h₃, h₄, h₅⟩ => ⟨h₁, h₂, h₃, h₄, h₅⟩,
      fun h => ⟨h.ne_nil, h.noBackslash, h.notDoubled, h.noDots, h.getLast?_ne⟩⟩

/-- **A normal form is normal**, if it names something. -/
theorem isNormal_normalPath {path : Text} (h : normalPath path ≠ []) :
    IsNormal (normalPath path) where
  ne_nil := h
  noBackslash := backslash_not_mem_normalPath path
  notDoubled := not_doubled_squeezeSlashes _
  noDots := noDots_normalPath path
  getLast?_ne := by
    rw [normalPath, getLast?_squeezeSlashes]
    exact getLast?_dropEndSlashes _

/-- **A normal path is its own normal form.** -/
theorem IsNormal.normalPath_eq {path : Text} (h : IsNormal path) : normalPath path = path := by
  have hend : dropEndSlashes path = path := by
    refine dropEndWhile_eq_self fun c hc => ?_
    rw [Option.mem_def] at hc
    have hne := h.getLast?_ne
    rw [hc] at hne
    simpa using hne
  rw [normalPath, toSlashes_eq_self h.noBackslash, dropDotSlash_eq_self h.noDots, hend,
    squeezeSlashes_eq_self h.notDoubled]

/-! ### Safety -/

/-- A normal form has no parent segment of its own. -/
lemma hasParentSegment_normalPath {path : Text} (h : hasParentSegment (toSlashes path) = false) :
    hasParentSegment (normalPath path) = false := by
  rw [hasParentSegment, List.any_eq_false] at h ⊢
  intro s hs hdots
  obtain rfl : s = [.of '.', .of '.'] := by simpa using hdots
  have hcounts : [.of '.', .of '.'] ∈ plainNames (normalPath path) := by
    rw [plainNames_eq, List.mem_filter]
    exact ⟨hs, rfl⟩
  rw [plainNames_normalPath, plainNames_eq, List.mem_filter] at hcounts
  exact h _ hcounts.1 rfl

/-- **The normal form of a safe path** is safe unless it is absolute. -/
theorem unsafeCause?_normalPath {path : Text} (h : unsafeCause? path = none) :
    unsafeCause? (normalPath path) = none ↔ isAbsolute (normalPath path) = false := by
  obtain ⟨hnul, -, hparent⟩ := unsafeCause?_eq_none.1 h
  have hnul' : .of '\x00' ∉ normalPath path := fun hmem =>
    (mem_normalPath hmem).elim (by decide) hnul
  rw [unsafeCause?_eq_none, toSlashes_eq_self (backslash_not_mem_normalPath path)]
  exact ⟨fun h => h.2.1, fun h => ⟨hnul', h, hasParentSegment_normalPath hparent⟩⟩

/-- A drive is one however its separators are written. -/
lemma hasDrive_toSlashes (path : Text) : hasDrive (toSlashes path) = hasDrive path := by
  have hsame : toBackslashes (toSlashes path) = toBackslashes path := by
    rw [toBackslashes, toSlashes, List.map_map]
    refine List.map_congr_left fun c _ => ?_
    by_cases hc : c = .of '\\' <;> simp [hc]
  rw [hasDrive, hsame, ← hasDrive]

/-- No slash is put in front but for a backslash. -/
lemma head?_toSlashes_ne {path : Text} (h : path.head? ≠ some (.of '/'))
    (hback : path.head? ≠ some (.of '\\')) :
    (toSlashes path).head? ≠ some (.of '/') := by
  cases path with
  | nil => exact h
  | cons c rest =>
    have hc : c ≠ .of '\\' := fun e => hback (by rw [e]; rfl)
    simpa [toSlashes, hc] using h

/-- **A path that starts with a name stays relative**: there is neither a backslash in front nor a
dot with a separator behind it. -/
theorem isAbsolute_normalPath {path : Text} (h : isAbsolute path = false)
    (hback : path.head? ≠ some (.of '\\')) (hdots : ¬ [.of '.', .of '/'] <+: toSlashes path) :
    isAbsolute (normalPath path) = false := by
  rw [isAbsolute, Bool.or_eq_false_iff] at h
  have hnormal : normalPath path = squeezeSlashes (dropEndSlashes (toSlashes path)) := by
    rw [normalPath, dropDotSlash_eq_self hdots]
  obtain ⟨ending, hending⟩ := prefix_of_dropEndSlashes (toSlashes path)
  cases hsplit : dropEndSlashes (toSlashes path) with
  | nil =>
    rw [hnormal, hsplit]
    rfl
  | cons c rest =>
    rw [hsplit] at hnormal hending
    have hc : c ≠ .of '/' := by
      rintro rfl
      exact head?_toSlashes_ne (by simpa using h.1) hback (by rw [← hending]; rfl)
    have hback' : c ≠ .of '\\' := by
      rintro rfl
      exact backslash_not_mem_toSlashes path (by rw [← hending]; exact List.mem_cons_self)
    rw [squeezeSlashes, if_neg (by simp [hc])] at hnormal
    have hsep : isSeparator c = false := by simp [isSeparator, hc, hback']
    have hdrive := h.2
    rw [← hasDrive_toSlashes, ← hending] at hdrive
    rw [isAbsolute, hnormal, Bool.or_eq_false_iff]
    refine ⟨by simpa using hc, ?_⟩
    cases hrest : squeezeSlashes rest with
    | nil => exact hasDrive_singleton c
    | cons d more =>
      -- the character behind the first is the same in the path as given
      have hhead := head?_squeezeSlashes rest
      rw [hrest] at hhead
      obtain ⟨tail, rfl⟩ : ∃ tail, rest = d :: tail :=
        ⟨rest.tail, List.eq_cons_of_mem_head? (by rw [← hhead]; rfl)⟩
      rw [List.cons_append, List.cons_append, hasDrive_cons_cons (.inl hsep)] at hdrive
      rw [hasDrive_cons_cons (.inl hsep), hdrive]

/-! ### The invariant -/

variable {inputs paths : List Text}

/-- A normal selection is strictly increasing. -/
lemma pairwise_of_normalize (h : normalize inputs = .ok paths) :
    paths.Pairwise fun p q => Text.le p q = true ∧ p ≠ q := by
  obtain ⟨-, rfl⟩ := normalize_eq_ok_iff.1 h
  exact (sort_pairwise _).and (nodup_sort.2 (nodup_dedupe _))

/-- **The invariant of a normal selection.** It is strictly increasing; each of its paths is normal,
and has no NUL and no parent segment; and the check refuses exactly the absolute ones. -/
theorem normalize_invariant (h : normalize inputs = .ok paths) :
    (paths.Pairwise fun p q => Text.le p q = true ∧ p ≠ q) ∧
      ∀ p ∈ paths, IsNormal p ∧ .of '\x00' ∉ p ∧ hasParentSegment p = false ∧
        (unsafeCause? p = none ↔ isAbsolute p = false) := by
  refine ⟨pairwise_of_normalize h, fun p hp => ?_⟩
  obtain ⟨input, -, hsafe, rfl, hne, -⟩ := exists_input h hp
  obtain ⟨hnul, -, hparent⟩ := unsafeCause?_eq_none.1 hsafe
  exact ⟨isNormal_normalPath hne, fun hmem => (mem_normalPath hmem).elim (by decide) hnul,
    hasParentSegment_normalPath hparent, unsafeCause?_normalPath hsafe⟩

/-- **A normal selection is its own normal form** iff none of its paths is absolute. -/
theorem normalize_eq_self_iff (h : normalize inputs = .ok paths) :
    normalize paths = .ok paths ↔ ∀ p ∈ paths, isAbsolute p = false := by
  have hinv := normalize_invariant h
  have hself : paths.filterMap normalPath? = paths := by
    rw [List.filterMap_congr (g := some) fun p hp => ?_, List.filterMap_some]
    obtain ⟨input, -, -, -, hne⟩ := exists_input h hp
    rw [normalPath?, (hinv.2 p hp).1.normalPath_eq]
    exact if_neg (not_or.2 hne)
  have hsorted : sort (dedupe paths) = paths := by
    rw [dedupe_eq_self (hinv.1.imp And.right), sort_eq_self (hinv.1.imp And.left)]
  rw [normalize_eq_ok_iff, hself, hsorted, and_iff_left rfl]
  exact forall₂_congr fun p hp => (hinv.2 p hp).2.2.2

/-- **The paths of a normal selection are safe** iff dropping what stands in front of an input never
uncovers an absolute path. -/
theorem normalize_safe_iff (h : normalize inputs = .ok paths) :
    (∀ p ∈ paths, unsafeCause? p = none) ↔
      ∀ input ∈ inputs, isAbsolute (normalPath input) = false := by
  constructor
  · intro hsafe input hinput
    obtain ⟨hinputs, rfl⟩ := normalize_eq_ok_iff.1 h
    by_cases hnone : normalPath input = [] ∨ normalPath input = [.of '.']
    · rcases hnone with hnone | hnone <;> rw [hnone] <;> rfl
    · refine (unsafeCause?_normalPath (hinputs input hinput)).1 (hsafe _ ?_)
      rw [mem_sort, mem_dedupe, List.mem_filterMap]
      exact ⟨input, hinput, if_neg hnone⟩
  · intro hrel p hp
    obtain ⟨input, hinput, hsafe, rfl, -⟩ := exists_input h hp
    exact (unsafeCause?_normalPath hsafe).2 (hrel input hinput)

/-- A backslash in front becomes a slash, and a `./` uncovers what stands behind it. -/
theorem normalize_uncovers_absolute :
    normalize ["\\a".toText] = .ok ["/a".toText] ∧
    normalize [".//a".toText] = .ok ["/a".toText] ∧
    normalize ["./c:a".toText] = .ok ["c:a".toText] ∧
    (∀ p ∈ ["/a".toText, "c:a".toText], normalize [p] = .error ⟨role, p, .absolute⟩) := by
  decide +kernel

end Selection

end GlobPreset
