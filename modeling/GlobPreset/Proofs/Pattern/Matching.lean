import GlobPreset.Pattern.Matcher
import GlobPreset.Proofs.Path.Names
import GlobPreset.Proofs.Wildmatch.Selecting

/-!
# Matching by any of several patterns

A matcher compares patterns and paths by their keys. Where no pattern starts with an exclusion mark,
it accepts a path if one of its patterns matches it. So a matcher is no more than its patterns, one
by one.

## Main definitions

* `Pattern.finds`, `Pattern.findsBy` — a plain pattern matches a path, as it stands or by its key.
* `Pattern.IsSelecting` — a plain pattern can be read, and does not start with an exclusion mark.

## Main results

* `Matcher.ofPatterns_eq_ok` — selecting patterns have a matcher, which accepts what one of them
  matches.
* `Matcher.accepts_of_ofPatterns` — so does every matcher of such patterns.
-/

set_option autoImplicit false

namespace GlobPreset

open Wildmatch

namespace Pattern

/-- A plain pattern matches a path. -/
def finds (pattern path : Text) : Bool := lineFinds (anchored pattern) (RuleSet.plainPath path)

/-- A plain pattern matches a path as far as a case policy tells. -/
def findsBy (policy : CasePolicy) (pattern path : Text) : Bool :=
  finds (policy.key pattern) (policy.key path)

/-- Where letter case counts, what is found is what the pattern itself finds. -/
@[simp] lemma findsBy_sensitive (pattern path : Text) :
    findsBy .sensitive pattern path = finds pattern path := rfl

/-- A plain pattern can be read, and does not start with an exclusion mark. -/
structure IsSelecting (pattern : Text) : Prop where
  /-- It does not start with an exclusion mark. -/
  unmarked : pattern.head? ≠ some (.of '!')
  /-- Its line can be read. -/
  readable : ∃ rule, readLine (anchored pattern) = .ok rule

/-- Anchoring a pattern makes no exclusion mark. -/
lemma head?_anchored {pattern : Text} (h : pattern.head? ≠ some (.of '!')) :
    (anchored pattern).head? ≠ some (.of '!') := by
  unfold anchored
  split
  · exact h
  · split
    · exact h
    · simp

/-- A plain path is matched as it stands. -/
lemma plainPath_of_isPlain {path : Text} (h : Path.IsPlain path) :
    RuleSet.plainPath path = path := by
  unfold RuleSet.plainPath
  split
  · rename_i rest
    have hcut : Path.segments (.of '/' :: rest) = [] :: Path.segments rest :=
      Text.splitOn_cons_sep rest
    have hnil : [] ∈ Path.segments (.of '/' :: rest) := hcut ▸ List.mem_cons_self
    exact absurd rfl (h [] hnil).ne_nil
  · rename_i rest
    have hcut : Path.segments (.of '.' :: .of '/' :: rest) = [.of '.'] :: Path.segments rest :=
      Path.segments_append_slash [.of '.'] rest
    have hdot : [.of '.'] ∈ Path.segments (.of '.' :: .of '/' :: rest) := hcut ▸ List.mem_cons_self
    exact absurd rfl (h [.of '.'] hdot).ne_dot
  · rfl

end Pattern

namespace Matcher

variable {policy : CasePolicy} {patterns : List Text}

/-- The lines of patterns that do not start with an exclusion mark. -/
lemma unmarked_lines (h : ∀ p ∈ patterns, (policy.key p).head? ≠ some (.of '!')) :
    ∀ l ∈ patterns.map (fun p => Pattern.anchored (policy.key p)), l.head? ≠ some (.of '!') := by
  intro l hl
  obtain ⟨p, hp, rfl⟩ := List.mem_map.1 hl
  exact Pattern.head?_anchored (h p hp)

/-- **Selecting patterns have a matcher**, which accepts what one of them matches. -/
lemma ofPatterns_eq_ok (h : ∀ p ∈ patterns, Pattern.IsSelecting (policy.key p)) :
    ∃ m, ofPatterns policy patterns = .ok m ∧
      ∀ path, m.accepts path = patterns.any (fun p => Pattern.findsBy policy p path) := by
  have hread : ∀ l ∈ patterns.map (fun p => Pattern.anchored (policy.key p)),
      ∃ r, readLine l = .ok r := by
    intro l hl
    obtain ⟨p, hp, rfl⟩ := List.mem_map.1 hl
    exact (h p hp).readable
  obtain ⟨set, hset, hsel⟩ :=
    RuleSet.ofLines_eq_ok hread (unmarked_lines fun p hp => (h p hp).unmarked)
  refine ⟨⟨patterns, policy, set⟩, by rw [ofPatterns, hset]; rfl, fun path => ?_⟩
  simp only [accepts, isInhabited, hsel, List.any_map]
  cases patterns with
  | nil => rfl
  | cons p rest => rfl

/-- The patterns of a matcher can be read. -/
lemma readable_of_ofPatterns {m : Matcher} (h : ofPatterns policy patterns = .ok m) {p : Text}
    (hp : p ∈ patterns) : ∃ rule, readLine (Pattern.anchored (policy.key p)) = .ok rule := by
  unfold ofPatterns at h
  cases hset : RuleSet.ofLines (patterns.map (fun p => Pattern.anchored (policy.key p))) with
  | error e =>
    rw [hset] at h
    cases h
  | ok set =>
    exact RuleSet.readable_of_ofLines hset (List.mem_map.2 ⟨p, hp, rfl⟩)

/-- **Every matcher of unmarked patterns** accepts what one of them matches. -/
lemma accepts_of_ofPatterns {m : Matcher} (h : ofPatterns policy patterns = .ok m)
    (hmark : ∀ p ∈ patterns, (policy.key p).head? ≠ some (.of '!')) :
    (∀ p ∈ patterns, Pattern.IsSelecting (policy.key p)) ∧
      ∀ path, m.accepts path = patterns.any (fun p => Pattern.findsBy policy p path) := by
  have hsel : ∀ p ∈ patterns, Pattern.IsSelecting (policy.key p) :=
    fun p hp => ⟨hmark p hp, readable_of_ofPatterns h hp⟩
  obtain ⟨m', hm', hacc⟩ := ofPatterns_eq_ok hsel
  rw [h] at hm'
  cases hm'
  exact ⟨hsel, hacc⟩

end Matcher

end GlobPreset
