import GlobPreset.Proofs.Expansion.Confinement
import GlobPreset.Proofs.Pattern.Stored

/-!
# Lines appended to a pattern list

A line at the end of a list has the last word on the paths that it matches. So a pattern that
selects can only add to what the patterns above it accept. A further included line therefore takes
no file away, and a further excluded line gives none back, under either case policy and whatever the
lines above are.

This asks of the new line that none of its plain patterns is read as one that takes paths back. A
pattern with an exclusion mark in front and a slash inside is not anchored, so that its line still
starts with the mark; an alternative of a brace group can be of this form, and so can what stands
behind `./` or behind another mark.

## Main definitions

* `Pattern.TakesBack` — the line of a plain pattern starts with an exclusion mark.

## Main results

* `Wildmatch.RuleSet.selects_append` — rules that select take nothing back.
* `Expand.subset_of_include`, `Expand.subset_of_exclude` — one pattern more.
* `Expand.expandText_append_line` — **one line more**.
* `Expand.not_subset_of_include`, `Expand.not_subset_of_exclude` — lines that take paths back.
-/

set_option autoImplicit false

namespace GlobPreset

open Wildmatch

/-! ### Rules behind others -/

namespace Wildmatch.RuleSet

/-- Holding that a path is selected is never worse than holding anything else. -/
lemma verdict_of_held {path : Text} {rules : List Rule} {held : Option Bool}
    (h : verdict path held rules = some true) : verdict path (some true) rules = some true := by
  induction rules generalizing held with
  | nil => rfl
  | cons r rest ih =>
    rw [verdict] at h ⊢
    cases hfind : r.shape.find path with
    | none =>
      rw [hfind] at h
      exact ih h
    | some marks =>
      rw [hfind] at h
      cases marks with
      | false => exact h
      | true => exact ih h

/-- Rules that select and are asked first leave a path selected. -/
lemma verdict_append {path : Text} {more rules : List Rule} (hmore : ∀ r ∈ more, r.selects = true)
    {held : Option Bool} (hheld : held = none ∨ held = some true)
    (h : verdict path none rules = some true) : verdict path held (more ++ rules) = some true := by
  induction more generalizing held with
  | nil =>
    rcases hheld with rfl | rfl
    · exact h
    · exact verdict_of_held h
  | cons r rest ih =>
    have hr : r.selects = true := hmore r List.mem_cons_self
    have hrest : ∀ r ∈ rest, r.selects = true := fun x hx => hmore x (List.mem_cons_of_mem _ hx)
    rw [List.cons_append, verdict, hr]
    cases r.shape.find path with
    | none => exact ih hrest hheld
    | some marks =>
      cases marks with
      | false => rfl
      | true => exact ih hrest (.inr (by rcases hheld with rfl | rfl <;> rfl))

/-- **Rules that select take nothing back** from the rules in front of them. -/
theorem selects_append {rules more : List Rule} (hmore : ∀ r ∈ more, r.selects = true)
    {path : Text} (h : (RuleSet.mk rules).selects path = true) :
    (RuleSet.mk (rules ++ more)).selects path = true := by
  simp only [selects, List.reverse_append, beq_iff_eq] at h ⊢
  exact verdict_append (fun r hr => hmore r (List.mem_reverse.1 hr)) (.inl rfl) h

/-- The rules of lines are those of the first and those of the others. -/
lemma ofLines_append {lines more : List Text} {set : RuleSet}
    (h : ofLines (lines ++ more) = .ok set) :
    ∃ front behind, ofLines lines = .ok front ∧ ofLines more = .ok behind ∧
      set = ⟨front.rules ++ behind.rules⟩ := by
  simp only [ofLines, List.filter_append, List.mapM_append, bind_eq_ok, pure_eq_ok] at h
  obtain ⟨_, ⟨front, hfront, behind, hbehind, rfl⟩, rfl⟩ := h
  refine ⟨⟨front.filterMap id⟩, ⟨behind.filterMap id⟩, ?_, ?_, ?_⟩
  · rw [ofLines, hfront]
    rfl
  · rw [ofLines, hbehind]
    rfl
  · rw [List.filterMap_append]

/-- Lines that do not start with an exclusion mark have rules that select. -/
lemma selects_of_ofLines {lines : List Text} {set : RuleSet} (h : ofLines lines = .ok set)
    (hmark : ∀ l ∈ lines, l.head? ≠ some (.of '!')) : ∀ r ∈ set.rules, r.selects = true := by
  simp only [ofLines, bind_eq_ok, pure_eq_ok] at h
  obtain ⟨rules, hrules, rfl⟩ := h
  intro r hr
  obtain ⟨o, ho, rfl⟩ := List.mem_filterMap.1 hr
  obtain ⟨l, hl, hline⟩ := (mem_of_mapM_eq_ok hrules).1 ho
  exact selects_of_readLine hline (hmark l (List.mem_of_mem_filter hl))

end Wildmatch.RuleSet

/-! ### Patterns behind others -/

/-- The line of a plain pattern starts with an exclusion mark, so that it takes paths back. -/
def Pattern.TakesBack (policy : CasePolicy) (pattern : Text) : Prop :=
  (anchored (policy.key pattern)).head? = some (.of '!')

instance (policy : CasePolicy) (pattern : Text) : Decidable (Pattern.TakesBack policy pattern) :=
  inferInstanceAs (Decidable ((Pattern.anchored (policy.key pattern)).head? = some (.of '!')))

/-- A plain pattern takes paths back if there is a mark in front and a slash before its end. -/
lemma Pattern.takesBack_iff {policy : CasePolicy} {pattern : Text} :
    TakesBack policy pattern ↔ (policy.key pattern).head? = some (.of '!') ∧
      .of '/' ∈ Path.dropEndSlashes (policy.key pattern) := by
  unfold TakesBack
  generalize policy.key pattern = p
  unfold anchored
  split
  · rename_i hlead
    have hhead : p.head? ≠ some (.of '!') := by
      rcases Bool.or_eq_true _ _ ▸ hlead with h | h
      all_goals
        obtain ⟨rest, rfl⟩ := Text.startsWith_iff.1 h
        simp
    simp [hhead]
  · split
    · rename_i hslash
      rw [and_iff_left (by simpa using hslash)]
    · rename_i hslash
      simpa using fun _ => by simpa using hslash

/-- **Patterns that take nothing back** leave a matcher accepting what it accepted. -/
lemma Matcher.accepts_append {policy : CasePolicy} {patterns more : List Text} {m m' : Matcher}
    (h : ofPatterns policy patterns = .ok m) (h' : ofPatterns policy (patterns ++ more) = .ok m')
    (hmore : ∀ p ∈ more, ¬ Pattern.TakesBack policy p) {path : Text}
    (hacc : m.accepts path = true) : m'.accepts path = true := by
  obtain ⟨set, hset, rfl⟩ := map_eq_ok.1 h
  obtain ⟨set', hset', rfl⟩ := map_eq_ok.1 h'
  rw [List.map_append] at hset'
  obtain ⟨front, behind, hfront, hbehind, rfl⟩ := RuleSet.ofLines_append hset'
  obtain rfl : front = set := Except.ok.inj (hfront.symm.trans hset)
  simp only [accepts, isInhabited, Bool.and_eq_true, Bool.not_eq_true',
    List.isEmpty_eq_false_iff] at hacc ⊢
  refine ⟨List.append_ne_nil_of_left_ne_nil hacc.1 more, RuleSet.selects_append ?_ hacc.2⟩
  refine RuleSet.selects_of_ofLines hbehind fun l hl => ?_
  obtain ⟨p, hp, rfl⟩ := List.mem_map.1 hl
  exact hmore p hp

namespace Expand

/-- A group of some patterns goes on in the group that more patterns have at its base. -/
lemma exists_group_append {patterns : List Text} {g : Group} (hg : g ∈ groups patterns)
    (more : List Text) :
    ∃ behind, (∀ a ∈ behind, ∃ p ∈ more, a ∈ Pattern.alternatives p) ∧
      (g.1, g.2 ++ behind) ∈ groups (patterns ++ more) := by
  obtain ⟨hvalues, hne⟩ := mem_groupPairs.1 hg
  refine ⟨valuesOf g.1 ((more.flatMap Pattern.alternatives).map
    (fun a => (Pattern.literalBase a, a))), fun a ha => ?_, mem_groupPairs.2 ⟨?_, ?_⟩⟩
  · obtain ⟨b, hb, heq⟩ := List.mem_map.1 (mem_valuesOf.1 ha)
    obtain ⟨-, rfl⟩ := Prod.mk.inj heq
    exact List.mem_flatMap.1 hb
  · rw [hvalues, List.flatMap_append, List.map_append]
    simp only [valuesOf, List.filter_append, List.map_append]
  · exact List.append_ne_nil_of_left_ne_nil hne _

/-! ### Lists -/

variable {fs : FileSystem} {root : Text} {context : Context}

/-- A file that the walk of one of the groups finds, and that the matcher of the group accepts. -/
def Finds (fs : FileSystem) (root : Text) (ignore : IgnoreRules) (policy : CasePolicy)
    (includes : List Text) (f : Text) : Prop :=
  ∃ g ∈ groups includes, ∃ matcher, Matcher.ofPatterns policy g.2 = .ok matcher ∧
    f ∈ Walk.files fs ignore root g.1 ∧ matcher.accepts f = true

/-- **What is given** are the files that a group finds and the excluded patterns do not accept; each
group has a matcher, and so have the excluded patterns. -/
theorem mem_of_outcome {list : PatternList} {files : List Text}
    (h : outcome fs root context list = .ok files) (hincludes : list.includes ≠ []) :
    ∃ ignore rejecting, context.ignoreRules = .ok ignore ∧
      (∀ g ∈ groups list.includes, ∃ matcher,
        Matcher.ofPatterns context.policy g.2 = .ok matcher) ∧
      Matcher.ofBracedList context.policy list.excludes = .ok rejecting ∧
      ∀ f, f ∈ files ↔
        Finds fs root ignore context.policy list.includes f ∧ rejecting.accepts f = false := by
  obtain ⟨hnil, -⟩ | ⟨ignore, found, kept, hignore, hfound, hkept, rfl⟩ := exists_kept_of_outcome h
  · exact absurd hnil hincludes
  have hgroups : ∀ g ∈ groups list.includes, ∃ matcher,
      Matcher.ofPatterns context.policy g.2 = .ok matcher := by
    intro g hg
    obtain ⟨files, hfiles⟩ := exists_of_mapM_eq_ok hfound hg
    simp only [groupFiles, bind_eq_ok, mapError_eq_ok] at hfiles
    exact hfiles.imp fun _ => And.left
  have hmem : ∀ f, f ∈ dedupe found.flatten ↔
      Finds fs root ignore context.policy list.includes f := by
    intro f
    rw [mem_dedupe, mem_of_mapM_groupFiles hfound, Finds]
  obtain ⟨hnil, rfl⟩ | ⟨rejecting, hrejecting, rfl⟩ := withoutExcluded_run hkept
  · -- nothing is excluded, and a matcher without patterns accepts nothing
    refine ⟨ignore, ⟨[], context.policy, ⟨[]⟩⟩, hignore, hgroups, by rw [hnil]; rfl, fun f => ?_⟩
    rw [Text.mem_sort, hmem]
    exact (and_iff_left rfl).symm
  · refine ⟨ignore, rejecting, hignore, hgroups, hrejecting, fun f => ?_⟩
    rw [Text.mem_sort, List.mem_filter, hmem, Bool.not_eq_true']

/-- **One included pattern more** takes no file away, unless it takes paths back. -/
theorem subset_of_include {includes excludes files files' : List Text} {p : Text}
    (hincludes : includes ≠ []) (h : outcome fs root context ⟨includes, excludes⟩ = .ok files)
    (h' : outcome fs root context ⟨includes ++ [p], excludes⟩ = .ok files')
    (hp : ∀ a ∈ Pattern.alternatives p, ¬ Pattern.TakesBack context.policy a) :
    files ⊆ files' := by
  intro f hf
  obtain ⟨ignore, rejecting, hignore, -, hrejecting, hmem⟩ := mem_of_outcome h hincludes
  obtain ⟨ignore', rejecting', hignore', hgroups', hrejecting', hmem'⟩ :=
    mem_of_outcome h' (List.append_ne_nil_of_left_ne_nil hincludes _)
  obtain rfl : ignore = ignore' := Except.ok.inj (hignore.symm.trans hignore')
  obtain rfl : rejecting = rejecting' := Except.ok.inj (hrejecting.symm.trans hrejecting')
  obtain ⟨⟨g, hg, matcher, hmatcher, hwalk, hacc⟩, hkeep⟩ := (hmem f).1 hf
  obtain ⟨behind, hbehind, hgroup⟩ := exists_group_append hg [p]
  obtain ⟨matcher', hmatcher'⟩ := hgroups' _ hgroup
  refine (hmem' f).2 ⟨⟨_, hgroup, matcher', hmatcher', hwalk, ?_⟩, hkeep⟩
  refine Matcher.accepts_append hmatcher hmatcher' (fun a ha => ?_) hacc
  obtain ⟨q, hq, haq⟩ := hbehind a ha
  rw [List.mem_singleton.1 hq] at haq
  exact hp a haq

/-- **One excluded pattern more** gives no file back, unless it takes paths back. -/
theorem subset_of_exclude {includes excludes files files' : List Text} {p : Text}
    (hincludes : includes ≠ []) (h : outcome fs root context ⟨includes, excludes⟩ = .ok files)
    (h' : outcome fs root context ⟨includes, excludes ++ [p]⟩ = .ok files')
    (hp : ∀ a ∈ Pattern.alternatives p, ¬ Pattern.TakesBack context.policy a) :
    files' ⊆ files := by
  intro f hf
  obtain ⟨ignore, rejecting, hignore, -, hrejecting, hmem⟩ := mem_of_outcome h hincludes
  obtain ⟨ignore', rejecting', hignore', -, hrejecting', hmem'⟩ := mem_of_outcome h' hincludes
  obtain rfl : ignore = ignore' := Except.ok.inj (hignore.symm.trans hignore')
  obtain ⟨hfinds, hkeep⟩ := (hmem' f).1 hf
  refine (hmem f).2 ⟨hfinds, Bool.eq_false_iff.2 fun hacc => ?_⟩
  rw [Matcher.ofBracedList, List.flatMap_append] at hrejecting'
  have hacc' := Matcher.accepts_append hrejecting hrejecting' (by simpa using hp) hacc
  rw [hkeep] at hacc'
  cases hacc'

/-! ### Texts -/

open PatternList Text

/-- **One line more.** Where something is included, a further included line takes no file away, and
a further excluded line gives none back, as long as both texts can be expanded and no plain pattern
of the new line takes paths back. -/
theorem expandText_append_line {text text' line : Text} {files files' : List Text}
    (hlines : lines text' = lines text ++ [line])
    (hincludes : ∃ l ∈ lines text, ∃ p, readLine? l = some (.selects p))
    (h : (expandText fs root context text).outcome = .ok files)
    (h' : (expandText fs root context text').outcome = .ok files') :
    (∀ p, readLine? line = some (.selects p) →
      (∀ a ∈ Pattern.alternatives p, ¬ Pattern.TakesBack context.policy a) → files ⊆ files') ∧
    (∀ p, readLine? line = some (.rejects p) →
      (∀ a ∈ Pattern.alternatives p, ¬ Pattern.TakesBack context.policy a) → files' ⊆ files) := by
  have hne : ((lines text).filterMap readLine?).filterMap Entry.selected? ≠ [] := by
    obtain ⟨l, hl, p, hp⟩ := hincludes
    exact List.ne_nil_of_mem (mem_selected.2 ⟨l, hl, hp⟩)
  have hne' : ((lines text').filterMap readLine?).filterMap Entry.selected? ≠ [] := by
    rw [hlines, List.filterMap_append, List.filterMap_append]
    exact List.append_ne_nil_of_left_ne_nil hne _
  change outcome fs root context (parse text) = .ok files at h
  change outcome fs root context (parse text') = .ok files' at h'
  rw [parse, ofEntries_eq (.inl hne)] at h
  rw [parse, ofEntries_eq (.inl hne'), hlines, List.filterMap_append, List.filterMap_append,
    List.filterMap_append] at h'
  refine ⟨fun p hp hback => ?_, fun p hp hback => ?_⟩
  · have hentry : [line].filterMap readLine? = [.selects p] := by simp [hp]
    rw [hentry, show [Entry.selects p].filterMap Entry.rejected? = [] from rfl,
      List.append_nil] at h'
    exact subset_of_include hne h h' hback
  · have hentry : [line].filterMap readLine? = [.rejects p] := by simp [hp]
    rw [hentry, show [Entry.rejects p].filterMap Entry.selected? = [] from rfl,
      List.append_nil] at h'
    exact subset_of_exclude hne h h' hback

/-- A tree with two files. -/
def twoFiles : MemoryTree := .build "/p".toText [.file "a.t".toText [], .file "x.t".toText []]

/-- **An included line may take a file away**: an alternative of its brace group starts with an
exclusion mark and has a slash inside. -/
theorem not_subset_of_include :
    ¬ ∀ (fs : FileSystem) (root : Text) (context : Context) (text text' line : Text)
      (files files' : List Text), lines text' = lines text ++ [line] →
      (∃ l ∈ lines text, ∃ p, readLine? l = some (.selects p)) →
      (expandText fs root context text).outcome = .ok files →
      (expandText fs root context text').outcome = .ok files' →
      (∃ p, readLine? line = some (.selects p)) → files ⊆ files' := by
  intro hall
  have hlines : lines "**/*.t\n\x7b!**/x.t,b\x7d".toText =
      lines "**/*.t".toText ++ ["\x7b!**/x.t,b\x7d".toText] := by
    decide +kernel
  have hincludes : ∃ l ∈ lines "**/*.t".toText, ∃ p, readLine? l = some (.selects p) :=
    ⟨"**/*.t".toText, by decide +kernel, "**/*.t".toText, by decide +kernel⟩
  have hbefore : (expandText twoFiles.fileSystem "/p".toText .standard "**/*.t".toText).outcome =
      .ok ["a.t".toText, "x.t".toText] := by
    decide +kernel
  have hbehind : (expandText twoFiles.fileSystem "/p".toText .standard
      "**/*.t\n\x7b!**/x.t,b\x7d".toText).outcome = .ok ["a.t".toText] := by
    decide +kernel
  have hline : readLine? "\x7b!**/x.t,b\x7d".toText =
      some (.selects "\x7b!**/x.t,b\x7d".toText) := by
    decide +kernel
  have hkept : "x.t".toText ∈ ["a.t".toText] :=
    hall _ _ _ _ _ _ _ _ hlines hincludes hbefore hbehind ⟨_, hline⟩ (by decide)
  exact absurd hkept (by decide)

/-- **An excluded line may give a file back**: a second exclusion mark stands behind the first, and
a slash inside. -/
theorem not_subset_of_exclude :
    ¬ ∀ (fs : FileSystem) (root : Text) (context : Context) (text text' line : Text)
      (files files' : List Text), lines text' = lines text ++ [line] →
      (∃ l ∈ lines text, ∃ p, readLine? l = some (.selects p)) →
      (expandText fs root context text).outcome = .ok files →
      (expandText fs root context text').outcome = .ok files' →
      (∃ p, readLine? line = some (.rejects p)) → files' ⊆ files := by
  intro hall
  have hlines : lines "**/*\n!**/*.t\n!!**/x.t".toText =
      lines "**/*\n!**/*.t".toText ++ ["!!**/x.t".toText] := by
    decide +kernel
  have hincludes : ∃ l ∈ lines "**/*\n!**/*.t".toText, ∃ p, readLine? l = some (.selects p) :=
    ⟨"**/*".toText, by decide +kernel, "**/*".toText, by decide +kernel⟩
  have hbefore : (expandText twoFiles.fileSystem "/p".toText .standard
      "**/*\n!**/*.t".toText).outcome = .ok [] := by
    decide +kernel
  have hbehind : (expandText twoFiles.fileSystem "/p".toText .standard
      "**/*\n!**/*.t\n!!**/x.t".toText).outcome = .ok ["x.t".toText] := by
    decide +kernel
  have hline : readLine? "!!**/x.t".toText = some (.rejects "!**/x.t".toText) := by
    decide +kernel
  have hgiven : "x.t".toText ∈ ([] : List Text) :=
    hall _ _ _ _ _ _ _ _ hlines hincludes hbefore hbehind ⟨_, hline⟩ (by decide)
  cases hgiven

end Expand

end GlobPreset
