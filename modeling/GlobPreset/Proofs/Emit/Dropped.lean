import GlobPreset.Proofs.Emit.Eliminate
import GlobPreset.Proofs.Pattern.DirectoryGlob

/-!
# What is left out without regard to case

A kept directory covers a path by what is compared: its key and a slash begin the key of the path.
What lies below it is cut off the path itself, by as many characters as the key of the directory and
a slash have. The cut is right as long as folding keeps the number of characters. Where it does not,
the names below the directory are not the ones that are asked for.

## Main definitions

* `IgnoreRules.IsReachedBelow` — a file lies below a directory, past no ignored name.

## Main results

* `Eliminate.exists_above_of_dropped` — **what is left out is reached below a kept directory**, if
  folding keeps the length of its path.
* `Eliminate.not_exists_above_of_dropped` — it may lie behind an ignored name, if it does not.
-/

set_option autoImplicit false

namespace GlobPreset

open GlobPreset.Path Text

/-! ### What is left out -/

/-- **The file lies below the directory, past no ignored name**: the segments of the directory are
compared alike with some that the path begins with, and none of the others is the name of an ignored
directory, or of an ignored file at the end. -/
def IgnoreRules.IsReachedBelow (ignore : IgnoreRules) (policy : CasePolicy) (d path : Text) :
    Prop :=
  ∃ above below, segments path = above ++ below ∧ below ≠ [] ∧
    above.map policy.key = (segments d).map policy.key ∧
    (∀ s ∈ below.dropLast, ignore.ignoresDirectory s = false) ∧
    (below ≠ [[]] → ∀ s ∈ below.getLast?, ignore.ignoresFile s = false)

/-- The names of a way that is not cut short: no directory on it is ignored, nor the file at its
end. -/
lemma IgnoreRules.names_of_crosses {ignore : IgnoreRules} {below : List Text} (hne : below ≠ [])
    (hslash : ∀ s ∈ below, .of '/' ∉ s) (h : ignore.crosses (ofSegments below) true = false) :
    (∀ s ∈ below.dropLast, ignore.ignoresDirectory s = false) ∧
      (below ≠ [[]] → ∀ s ∈ below.getLast?, ignore.ignoresFile s = false) := by
  have hparts : segments (ofSegments below) = below := splitOn_joinWith (.of '/') hne hslash
  by_cases hempty : ofSegments below = []
  · -- the only way without characters is the empty name
    have hbelow : below = [[]] := by rw [← hparts, hempty]; rfl
    subst hbelow
    simp
  · have hfull : (ofSegments below).isEmpty = false := by simpa using hempty
    simp only [crosses, hfull, hparts, Bool.false_eq_true, if_false, if_true, Bool.true_and,
      Bool.or_eq_false_iff, List.any_eq_false, Bool.not_eq_true] at h
    refine ⟨h.1, fun _ s hs => ?_⟩
    rw [Option.mem_def.1 hs] at h
    exact h.2

namespace Eliminate

variable {ignore : IgnoreRules} {policy : CasePolicy} {includes : List Text} {p : Text}

/-- A pattern without magic that is left out has its path covered. -/
lemma covers_of_dropped (hp : p ∈ includes) (hmagic : Pattern.hasMagic p = false)
    (hdrop : p ∉ eliminateRedundant ignore policy includes) :
    (keptDirectories ignore policy includes).1.covers (Pattern.unescape p) true = true := by
  have hwild : Pattern.hasWildcard p = false :=
    Pattern.hasUnescaped_mono (fun c hc => by simp_all [Pattern.isMagic]) hmagic
  have hrec : Pattern.recursiveDirectory? p = none := by
    rw [Option.eq_none_iff_forall_ne_some]
    intro d hd
    obtain ⟨head, rfl, -, -⟩ := Pattern.recursiveDirectory?_eq_some hd
    rw [Pattern.hasWildcard, Pattern.recursiveTail, Pattern.hasUnescaped_append_slash (by decide),
      Bool.or_eq_false_iff] at hwild
    exact absurd hwild.2 (by decide)
  have halone : Pattern.alternatives p = [p] := by
    refine Pattern.alternatives_of_noOpener (Pattern.hasUnescaped_mono (fun c hc => ?_) hmagic)
    rw [beq_eq_false_iff_ne]
    rintro rfl
    exact absurd hc (by decide)
  rw [mem_eliminateRedundant, and_iff_right hp, hrec] at hdrop
  simpa [Kept.coversPattern, Kept.coversAlternative, halone, hwild] using hdrop

/-- **What is left out is reached below a kept directory**, if folding keeps the length of its
path. -/
theorem exists_above_of_dropped (hp : p ∈ includes) (hmagic : Pattern.hasMagic p = false)
    (hdrop : p ∉ eliminateRedundant ignore policy includes)
    (hlength : policy.KeepsLength (Pattern.unescape p)) :
    ∃ x ∈ eliminateRedundant ignore policy includes, ∃ d,
      Pattern.recursiveDirectory? x = some d ∧
        ignore.IsReachedBelow policy d (Pattern.unescape p) := by
  obtain ⟨hpol, hign, -, -⟩ := keptDirectories_spec ignore policy includes
  obtain ⟨d, hd, above, below, hsplit, hbelow, habove, hcross⟩ :=
    Kept.covers_iff_segments.1 (covers_of_dropped hp hmagic hdrop)
  obtain ⟨x, hx, hrec⟩ := exists_pattern hd
  rw [hpol] at habove hcross
  rw [hign, drop_key hlength hsplit hbelow habove] at hcross
  refine ⟨x, hx, d, hrec, above, below, hsplit, hbelow, habove,
    IgnoreRules.names_of_crosses hbelow (fun s hs => ?_) hcross⟩
  exact not_mem_of_mem_splitOn
    (show s ∈ segments (Pattern.unescape p) from hsplit ▸ List.mem_append_right _ hs)

/-- Rules that leave out the directories of one name. -/
def modulesIgnored : IgnoreRules := ⟨["node_modules".toText], ⟨[]⟩⟩

/-- A directory whose key is longer than it, and a file below it behind an ignored name. -/
def longerIncludes : List Text := ["straße/**".toText, "straße/node_modules/x.ts".toText]

/-- **A cut past the slash**: the key of the directory has one character more than the directory, so
the ignored name is asked for without its first character, and the file is left out. -/
theorem not_exists_above_of_dropped :
    ¬ ∀ (ignore : IgnoreRules) (policy : CasePolicy) (includes : List Text) (p : Text),
      p ∈ includes → Pattern.hasMagic p = false → p ∉ eliminateRedundant ignore policy includes →
      ∃ x ∈ eliminateRedundant ignore policy includes, ∃ d,
        Pattern.recursiveDirectory? x = some d ∧
          ignore.IsReachedBelow policy d (Pattern.unescape p) := by
  intro hall
  have hleft : eliminateRedundant modulesIgnored .insensitive longerIncludes =
      ["straße/**".toText] := by decide +kernel
  obtain ⟨x, hx, d, hrec, above, below, hsplit, hbelow, habove, hnames, -⟩ :=
    hall modulesIgnored .insensitive longerIncludes "straße/node_modules/x.ts".toText
      (by decide +kernel) (by decide +kernel) (by rw [hleft]; decide +kernel)
  rw [hleft, List.mem_singleton] at hx
  subst hx
  obtain rfl : "straße".toText = d := Option.some.inj (Eq.trans (by decide +kernel) hrec)
  -- one segment stands above, so the ignored name is among the others
  have hone : above.length = 1 := by
    rw [← List.length_map (f := CasePolicy.insensitive.key), habove]
    decide +kernel
  obtain ⟨first, rfl⟩ := List.length_eq_one_iff.1 hone
  have hpath : segments (Pattern.unescape "straße/node_modules/x.ts".toText) =
      ["straße".toText, "node_modules".toText, "x.ts".toText] := by decide +kernel
  rw [hpath, List.singleton_append, List.cons.injEq] at hsplit
  obtain ⟨-, rfl⟩ := hsplit
  exact absurd (hnames "node_modules".toText (by decide +kernel)) (by decide +kernel)

end Eliminate

end GlobPreset
