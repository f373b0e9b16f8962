import GlobPreset.Proofs.Text.Folding

/-!
# Paths by their keys

Paths are compared by their keys. A key is made of the keys of the segments, so one key begins
another one exactly if the segments do. It may be longer than the path; what lies behind a directory
can be cut off by the length of its key only where folding keeps lengths.

## Main definitions

* `CasePolicy.KeepsLength` — every character of a text is compared as one character.
* `CasePolicy.Discerns` — what leads a path and is compared alike with a directory is the directory.

## Main results

* `Path.key_ofSegments` — the key of a path, segment by segment.
* `Path.startsWith_key_iff` — one key begins another one exactly if the segments do.
* `Path.drop_key` — cutting by the length of a key.
* `CasePolicy.head?_key`, `CasePolicy.getLast?_key` — the ends of a key.
-/

set_option autoImplicit false

namespace GlobPreset

open GlobPreset.Path Text

namespace CasePolicy

variable (policy : CasePolicy)

/-! ### Characters of a key -/

/-- The key of the empty path is empty. -/
@[simp] lemma key_nil : policy.key [] = [] := by
  cases policy <;> rfl

/-- The key of two texts put together is that of one and of the other. -/
lemma key_append (s t : Text) : policy.key (s ++ t) = policy.key s ++ policy.key t := by
  cases policy with
  | sensitive => rfl
  | insensitive => exact fold_append s t

/-- Where letter case counts, paths are their own keys. -/
lemma map_key_sensitive (paths : List Text) : paths.map sensitive.key = paths :=
  List.map_id'' key_sensitive paths

/-- A text that folding leaves alone is its own key. -/
lemma key_of_fold {t : Text} (h : fold t = t) : policy.key t = t := by
  cases policy with
  | sensitive => rfl
  | insensitive => exact h

/-- The key of one character: the character itself, or letters and marks. -/
lemma key_singleton (c : CodePoint) : policy.key [c] ≠ [] ∧
    ∀ d ∈ policy.key [c], d = c ∨ isFoldImage d.toNat = true := by
  cases policy with
  | sensitive => exact ⟨List.cons_ne_nil _ _, fun d hd => .inl (List.mem_singleton.1 hd)⟩
  | insensitive =>
    have hone : key .insensitive [c] = foldChar c := List.append_nil _
    rw [hone]
    exact ⟨foldChar_ne_nil c, fun d hd => eq_or_of_mem_foldChar hd⟩

/-- The key of a text is that of its first character and of the rest. -/
lemma key_cons (c : CodePoint) (t : Text) : policy.key (c :: t) = policy.key [c] ++ policy.key t :=
  policy.key_append [c] t

/-- **A key starts with a sign** only if the text does. -/
lemma head?_key {t : Text} {c : CodePoint} (hc : isFoldImage c.toNat = false)
    (h : (policy.key t).head? = some c) : t.head? = some c := by
  cases t with
  | nil => simp at h
  | cons d t =>
    obtain ⟨hne, hmem⟩ := policy.key_singleton d
    rw [key_cons, List.head?_append_of_ne_nil _ hne] at h
    rcases hmem c (List.mem_of_head? h) with rfl | himage
    · rfl
    · rw [hc] at himage
      cases himage

/-- **A key ends with a sign** only if the text does. -/
lemma getLast?_key {t : Text} {c : CodePoint} (hc : isFoldImage c.toNat = false)
    (h : (policy.key t).getLast? = some c) : t.getLast? = some c := by
  induction t using List.reverseRecOn with
  | nil => simp at h
  | append_singleton t d =>
    obtain ⟨hne, hmem⟩ := policy.key_singleton d
    rw [key_append, List.getLast?_append_of_ne_nil _ hne] at h
    rw [List.getLast?_concat]
    rcases hmem c (List.mem_of_getLast? h) with rfl | himage
    · rfl
    · rw [hc] at himage
      cases himage

/-! ### Lengths -/

/-- Every character of the text is compared as one character. So it always is where case counts. -/
def KeepsLength : CasePolicy → Text → Prop
  | .sensitive, _ => True
  | .insensitive, t => ∀ c ∈ t, (foldChar c).length = 1

instance (policy : CasePolicy) (t : Text) : Decidable (policy.KeepsLength t) :=
  match policy with
  | .sensitive => inferInstanceAs (Decidable True)
  | .insensitive => List.decidableBAll (fun c => (foldChar c).length = 1) t

namespace KeepsLength

variable {policy : CasePolicy} {s t : Text}

/-- A part in front keeps its length in the key if the whole does. -/
lemma left (h : policy.KeepsLength (s ++ t)) : policy.KeepsLength s := by
  cases policy with
  | sensitive => trivial
  | insensitive => exact fun c hc => h c (List.mem_append_left _ hc)

/-- Two texts that keep their lengths in the key keep it together. -/
lemma append (hs : policy.KeepsLength s) (ht : policy.KeepsLength t) :
    policy.KeepsLength (s ++ t) := by
  cases policy with
  | sensitive => trivial
  | insensitive => exact List.forall_mem_append.2 ⟨hs, ht⟩

/-- A key has the length of its text where lengths are kept. -/
lemma length_key (h : policy.KeepsLength t) : (policy.key t).length = t.length := by
  cases policy with
  | sensitive => rfl
  | insensitive =>
    change (fold t).length = t.length
    induction t with
    | nil => rfl
    | cons c t ih =>
      have ht : (fold t).length = t.length := ih fun d hd => h d (List.mem_cons_of_mem _ hd)
      rw [fold_cons, List.length_append, h c List.mem_cons_self, ht, List.length_cons,
        Nat.add_comm]

/-- Folding keeps the length of a path if it keeps those of its segments. -/
lemma ofSegments {parts : List Text} (h : ∀ s ∈ parts, policy.KeepsLength s) :
    policy.KeepsLength (ofSegments parts) := by
  have hslash : policy.KeepsLength [.of '/'] := by
    cases policy with
    | sensitive => trivial
    | insensitive => exact List.forall_mem_singleton.2 rfl
  induction parts with
  | nil =>
    cases policy with
    | sensitive => trivial
    | insensitive => exact fun c hc => absurd hc List.not_mem_nil
  | cons s parts ih =>
    have hs := h s List.mem_cons_self
    by_cases hparts : parts = []
    · subst hparts
      exact hs
    · rw [ofSegments_cons s hparts]
      exact hs.append (hslash.append (ih fun r hr => h r (List.mem_cons_of_mem _ hr)))

end KeepsLength

end CasePolicy

/-! ### Segments -/

namespace Path

variable {policy : CasePolicy}

/-- **The key of a path, segment by segment.** -/
lemma key_ofSegments {parts : List Text} (hne : parts ≠ []) (h : ∀ s ∈ parts, .of '/' ∉ s) :
    policy.key (ofSegments parts) = ofSegments (parts.map policy.key) := by
  have hparts : segments (ofSegments parts) = parts := splitOn_joinWith (.of '/') hne h
  rw [← ofSegments_segments (policy.key (ofSegments parts)), segments_key, hparts]

/-- **One key begins another one** exactly if the segments do. -/
lemma startsWith_key_iff {target d : Text} :
    startsWith (policy.key target) (policy.key d ++ [.of '/']) = true ↔
      ∃ above below, segments target = above ++ below ∧ below ≠ [] ∧
        above.map policy.key = (segments d).map policy.key := by
  rw [startsWith_iff]
  constructor
  · rintro ⟨rest, hrest⟩
    have hsegs := congrArg segments hrest
    rw [List.append_assoc, List.singleton_append, segments_append_slash, segments_key,
      segments_key, eq_comm, List.map_eq_append_iff] at hsegs
    obtain ⟨above, below, hsplit, habove, hbelow⟩ := hsegs
    refine ⟨above, below, hsplit, ?_, habove⟩
    rintro rfl
    exact segments_ne_nil rest hbelow.symm
  · rintro ⟨above, below, hsplit, hbelow, habove⟩
    have hne : above.map policy.key ≠ [] := by
      rw [habove]
      simpa using segments_ne_nil d
    refine ⟨ofSegments (below.map policy.key), ?_⟩
    rw [← ofSegments_segments (policy.key target), segments_key, hsplit, List.map_append,
      ofSegments_append hne (by simpa using hbelow), habove, ← segments_key, ofSegments_segments]
    simp

/-- **Cutting by the length of a key**: what lies behind the segments that are compared alike with a
directory, if folding keeps the length of the path. -/
lemma drop_key {target d : Text} (hlength : policy.KeepsLength target) {above below : List Text}
    (hsplit : segments target = above ++ below) (hbelow : below ≠ [])
    (habove : above.map policy.key = (segments d).map policy.key) :
    target.drop ((policy.key d).length + 1) = ofSegments below := by
  have hne : above ≠ [] := by
    rintro rfl
    exact segments_ne_nil d (List.map_eq_nil_iff.1 habove.symm)
  have htarget : target = ofSegments above ++ .of '/' :: ofSegments below := by
    rw [← ofSegments_append hne hbelow, ← hsplit, ofSegments_segments]
  have hslash : ∀ s ∈ above, .of '/' ∉ s := fun s hs =>
    not_mem_of_mem_splitOn (show s ∈ segments target from hsplit ▸ List.mem_append_left _ hs)
  have hkey : policy.key d = policy.key (ofSegments above) := by
    rw [key_ofSegments hne hslash, habove, ← segments_key, ofSegments_segments]
  rw [htarget] at hlength
  rw [hkey, hlength.left.length_key, htarget, List.drop_length_add_append]
  rfl

/-- The key of a name is a name. -/
lemma IsName.key {s : Text} (h : IsName s) : IsName (policy.key s) := by
  cases policy with
  | sensitive => exact h
  | insensitive =>
    have hdots : ∀ {dots : Text}, (∀ c ∈ dots, c = .of '.') → s ≠ dots → fold s ≠ dots := by
      rintro dots hdots hne rfl
      exact hne (fold_of_dots (dots_of_fold hdots)).symm
    refine ⟨hdots (by simp) h.ne_nil, fun hmem => ?_, hdots (by simp) h.ne_dot,
      hdots (by simp) h.ne_dots⟩
    obtain ⟨c, hc, hslash⟩ := List.mem_flatMap.1 hmem
    exact h.noSlash (eq_of_mem_foldChar (by decide) hslash ▸ hc)

/-- The key of a plain path is plain. -/
lemma IsPlain.key {path : Text} (h : IsPlain path) : IsPlain (policy.key path) := by
  intro s hs
  rw [segments_key] at hs
  obtain ⟨name, hname, rfl⟩ := List.mem_map.1 hs
  exact (h name hname).key

end Path

/-! ### Discerning directories -/

/-- What leads the path and is compared alike with the directory is the directory, and folding keeps
the length of the path. -/
structure CasePolicy.Discerns (policy : CasePolicy) (d path : Text) : Prop where
  /-- Folding keeps the length of the path. -/
  keepsLength : policy.KeepsLength path
  /-- What is compared alike with the directory is the directory. -/
  eq_of_key_eq : ∀ {above below : List Text}, segments path = above ++ below →
    above.map policy.key = (segments d).map policy.key → above = segments d

/-- Where case counts, everything is discerned. -/
lemma CasePolicy.discerns_sensitive (d path : Text) : CasePolicy.sensitive.Discerns d path where
  keepsLength := trivial
  eq_of_key_eq _ habove := by
    have hid : ∀ l : List Text, l.map CasePolicy.sensitive.key = l := fun l => List.map_id l
    rwa [hid, hid] at habove

end GlobPreset
