import GlobPreset.Path.Policy
import GlobPreset.Proofs.Path.Names

/-!
# Folding and paths

Case folding leaves signs alone: a character folds to itself, or to letters and marks, and none
folds to nothing. So a dot or a slash is what only a dot or a slash folds to, paths that fold alike
have the same shape, segment by segment, and a name folds alike with names only.

## Main definitions

* `Text.isFoldImage` — the code points of the letters and marks that characters fold to.

## Main results

* `Text.eq_or_of_mem_foldChar` — **what a character folds to**.
* `Text.eq_of_mem_foldChar` — a sign is what only the sign itself folds to.
* `Path.segments_key`, `Path.names_key` — the segments and names of what is compared.
* `Path.isName_of_key_eq` — what is compared alike with a name is one.
-/

set_option autoImplicit false

namespace GlobPreset

/-! ### Characters -/

namespace Text

/-- The code points that characters fold to, apart from those that fold to themselves: small
letters, and letters and marks outside ASCII. No sign, no blank and no end of a line is among them.
-/
def isFoldImage (n : Nat) : Bool :=
  (0x61 ≤ n && n ≤ 0x7A) ||
    (0xDF ≤ n && n != 0x1680 && !(0x2000 ≤ n && n ≤ 0x206F) && n != 0x3000 && decide n.isValidChar)

/-- The number of a character that a letter is folded to. -/
lemma toNat_ofNat {n : Nat} (h : isFoldImage n = true) : (CodePoint.ofNat n).toNat = n := by
  have hvalid : n.isValidChar := by
    simp only [isFoldImage, Bool.or_eq_true, Bool.and_eq_true, decide_eq_true_eq] at h
    rcases h with h | h
    · exact .inl (by omega)
    · exact h.2
  rw [CodePoint.ofNat, CodePoint.toNat_of, Char.ofNat, dif_pos hvalid]
  rfl

/-- What is looked up is there. -/
lemma mem_of_lookup?_eq_some {α β : Type} [DecidableEq α] {k : α} {b : β} :
    ∀ {pairs : List (α × β)}, lookup? k pairs = some b → (k, b) ∈ pairs
  | (l, c) :: rest, h => by
    rw [lookup?] at h
    split at h
    · rename_i hl
      rw [← hl, ← Option.some.inj h]
      exact List.mem_cons_self
    · exact List.mem_cons_of_mem _ (mem_of_lookup?_eq_some h)

/-- **What a character folds to**: itself, or letters and marks. -/
lemma eq_or_of_mem_foldChar {c d : CodePoint} (h : c ∈ foldChar d) :
    c = d ∨ isFoldImage c.toNat = true := by
  have hruns : ∀ r ∈ foldRuns, ∀ i < r.last + 1 - r.first, isFoldImage (r.image + i) = true := by
    decide +kernel
  have hexpansions : ∀ p ∈ foldExpansions, ∀ n ∈ p.2, isFoldImage n = true := by decide +kernel
  have himage : ∀ {n : Nat}, isFoldImage n = true → isFoldImage (CodePoint.ofNat n).toNat = true :=
    fun hn => (toNat_ofNat hn).symm ▸ hn
  unfold foldChar at h
  dsimp only at h
  split at h
  · rw [List.mem_singleton] at h
    split at h
    · rename_i hletter
      simp only [Bool.and_eq_true, decide_eq_true_eq] at hletter
      subst h
      refine .inr (himage ?_)
      simp only [isFoldImage, Bool.or_eq_true, Bool.and_eq_true, decide_eq_true_eq]
      omega
    · exact .inl h
  · split at h
    · rename_i r hr
      rw [List.mem_singleton] at h
      have hrange := List.find?_some hr
      simp only [Bool.and_eq_true, decide_eq_true_eq] at hrange
      subst h
      exact .inr (himage (hruns r (List.mem_of_find?_eq_some hr) _ (by omega)))
    · split at h
      · rename_i image hlookup
        obtain ⟨n, hn, rfl⟩ := List.mem_map.1 h
        exact .inr (himage (hexpansions _ (mem_of_lookup?_eq_some hlookup) n hn))
      · exact .inl (List.mem_singleton.1 h)

/-- **Only a sign folds to a sign**, and it folds to itself alone. -/
lemma eq_of_mem_foldChar {c d : CodePoint} (hc : isFoldImage c.toNat = false) (h : c ∈ foldChar d) :
    d = c := by
  rcases eq_or_of_mem_foldChar h with rfl | himage
  · rfl
  · rw [hc] at himage
    cases himage

/-- Nothing folds away. -/
lemma foldChar_ne_nil (c : CodePoint) : foldChar c ≠ [] := by
  have hexpansions : ∀ p ∈ foldExpansions, p.2 ≠ [] := by decide +kernel
  unfold foldChar
  dsimp only
  split
  · exact List.cons_ne_nil _ _
  · split
    · exact List.cons_ne_nil _ _
    · split
      · rename_i image himage
        have hpair := mem_of_lookup?_eq_some himage
        simpa using hexpansions _ hpair
      · exact List.cons_ne_nil _ _

/-! ### Texts -/

/-- A text is folded character by character. -/
lemma fold_cons (c : CodePoint) (t : Text) : fold (c :: t) = foldChar c ++ fold t := rfl

/-- A folded text is empty if the text is. -/
lemma fold_eq_nil {t : Text} : fold t = [] ↔ t = [] := by
  cases t with
  | nil => simp [fold]
  | cons c t => simp [fold_cons, foldChar_ne_nil]

/-- Dots fold to themselves. -/
lemma fold_of_dots {t : Text} (h : ∀ c ∈ t, c = .of '.') : fold t = t := by
  induction t with
  | nil => rfl
  | cons c t ih =>
    obtain rfl : c = .of '.' := h c List.mem_cons_self
    rw [fold_cons, ih fun d hd => h d (List.mem_cons_of_mem _ hd)]
    rfl

/-- A text that folds to dots consists of dots. -/
lemma dots_of_fold {t : Text} (h : ∀ c ∈ fold t, c = .of '.') : ∀ c ∈ t, c = .of '.' := by
  intro c hc
  obtain ⟨d, hd⟩ := List.exists_mem_of_ne_nil _ (foldChar_ne_nil c)
  have hdot : d = .of '.' := h d (List.mem_flatMap.2 ⟨c, hc, hd⟩)
  exact eq_of_mem_foldChar (by decide) (hdot ▸ hd)

/-- Folding keeps where a path is cut. -/
lemma splitOn_fold (t : Text) : splitOn (.of '/') (fold t) = (splitOn (.of '/') t).map fold := by
  induction t with
  | nil => rfl
  | cons c t ih =>
    by_cases hc : c = .of '/'
    · subst hc
      have hfold : fold (.of '/' :: t) = .of '/' :: fold t := rfl
      rw [hfold, splitOn_cons_sep, splitOn_cons_sep, ih]
      rfl
    · have hslash : .of '/' ∉ foldChar c := fun h => hc (eq_of_mem_foldChar (by decide) h)
      obtain ⟨piece, pieces, ht⟩ := List.exists_cons_of_ne_nil (splitOn_ne_nil (.of '/') t)
      rw [ht, List.map_cons] at ih
      rw [fold_cons, splitOn_append_of_not_mem hslash ih, splitOn_cons_of_ne hc ht]
      rfl

end Text

/-! ### Paths -/

namespace Path

open Text

/-- Slashes at the end bring no name. -/
lemma names_append_slashes {u : Text} (hu : ∀ c ∈ u, c = .of '/') (s : Text) :
    names (s ++ u) = names s := by
  induction u generalizing s with
  | nil => rw [List.append_nil]
  | cons c u ih =>
    obtain rfl : c = .of '/' := hu c List.mem_cons_self
    have hrest := ih fun d hd => hu d (List.mem_cons_of_mem _ hd)
    have hnone : names u = [] := hrest []
    rw [names_append_slash, hnone, List.append_nil]

/-- A path without the slashes at its end has the same names. -/
lemma names_dropEndSlashes (t : Text) :
    names (dropEndWhile ([.of '/'] : Text).contains t) = names t := by
  have hsplit : dropEndWhile ([.of '/'] : Text).contains t ++
      List.rtakeWhile ([.of '/'] : Text).contains t = t := by
    rw [dropEndWhile_eq_rdropWhile]
    exact List.rdropWhile_append_rtakeWhile
  have hslashes : ∀ c ∈ List.rtakeWhile ([.of '/'] : Text).contains t, c = .of '/' := fun c hc => by
    simpa using List.mem_rtakeWhile_imp hc
  conv_rhs => rw [← hsplit]
  exact (names_append_slashes hslashes _).symm

variable (policy : CasePolicy)

/-- **The segments of what is compared.** -/
lemma segments_key (path : Text) :
    segments (policy.key path) = (segments path).map policy.key := by
  cases policy with
  | sensitive => exact (List.map_id _).symm
  | insensitive => exact splitOn_fold path

/-- A key is empty if the path is. -/
lemma key_eq_nil {path : Text} : policy.key path = [] ↔ path = [] := by
  cases policy with
  | sensitive => exact Iff.rfl
  | insensitive => exact fold_eq_nil

/-- **The names of what is compared.** -/
lemma names_key (path : Text) : names (policy.key path) = (names path).map policy.key := by
  rw [names, segments_key, List.filter_map, names]
  congr 1
  refine List.filter_congr fun s _ => ?_
  rw [Function.comp_apply, Bool.eq_iff_iff]
  simp [key_eq_nil]

/-- What is compared alike with dots is made of the same dots. -/
lemma eq_of_key_eq_dots {s dots : Text} (hdots : ∀ c ∈ dots, c = .of '.')
    (h : policy.key s = policy.key dots) : s = dots := by
  cases policy with
  | sensitive => exact h
  | insensitive =>
    change s.fold = dots.fold at h
    rw [fold_of_dots hdots] at h
    rw [← h, fold_of_dots (dots_of_fold (h ▸ hdots))]

/-- **What is compared alike with a name is one**, if it has no slash. -/
lemma isName_of_key_eq {s name : Text} (hs : .of '/' ∉ s) (hname : IsName name)
    (h : policy.key s = policy.key name) : IsName s := by
  have hne : ∀ {dots : Text}, (∀ c ∈ dots, c = .of '.') → name ≠ dots → s ≠ dots := by
    rintro dots hdots hne rfl
    exact hne (eq_of_key_eq_dots policy hdots h.symm)
  exact ⟨hne (by simp) hname.ne_nil, hs, hne (by simp) hname.ne_dot,
    hne (by simp) hname.ne_dots⟩

/-- **What lies behind the start of a path of names**, as far as paths are compared, is a path of
names. -/
lemma isPlain_of_key_eq {names : List Text} (hn : AreNames names) {start path : Text}
    (hpath : path ≠ [])
    (h : policy.key (.of '/' :: ofSegments names) = policy.key (start ++ .of '/' :: path)) :
    IsPlain path := by
  have hsegments := congrArg segments h
  rw [segments_key, segments_key, segments_append_slash, List.map_append] at hsegments
  have hreal : segments (.of '/' :: ofSegments names) = [] :: segments (ofSegments names) :=
    segments_append_slash [] (ofSegments names)
  obtain ⟨first, before, hstart⟩ := List.exists_cons_of_ne_nil (segments_ne_nil start)
  rw [hreal, hstart, List.map_cons, List.map_cons, List.cons_append] at hsegments
  have htail := (List.cons.inj hsegments).2
  by_cases hne : names = []
  · -- behind the root, the path would be one empty segment
    subst hne
    have hpieces : (segments path).map policy.key = [[]] := by
      have hsome : (segments path).map policy.key ≠ [] := by simpa using segments_ne_nil path
      have hone : (segments (ofSegments [])).map policy.key = [[]] := by
        simp [segments, splitOn, (key_eq_nil policy).2]
      rw [hone] at htail
      rcases List.append_eq_singleton_iff.1 htail.symm with ⟨-, hpieces⟩ | ⟨-, hnil⟩
      · exact hpieces
      · exact absurd hnil hsome
    obtain ⟨s, hs, hkey⟩ := List.map_eq_singleton_iff.1 hpieces
    refine absurd ?_ hpath
    rw [← ofSegments_segments path, hs, ofSegments_singleton, (key_eq_nil policy).1 hkey]
  · rw [segments_ofSegments hne hn] at htail
    intro s hs
    have hmem : policy.key s ∈ names.map policy.key := by
      rw [htail]
      exact List.mem_append_right _ (List.mem_map_of_mem hs)
    obtain ⟨name, hname, hkey⟩ := List.mem_map.1 hmem
    exact isName_of_key_eq policy (not_mem_of_mem_splitOn hs) (hn name hname) hkey.symm

end Path

end GlobPreset
