import GlobPreset.Proofs.Wildmatch.Literal
import GlobPreset.Wildmatch.RuleSet

/-!
# Rule sets that only select

A line that does not start with an exclusion mark stands for a rule that selects. Among such rules
the order does not count, nor does which of them mark directories: a path is selected exactly if
some rule finds something in it.

## Main definitions

* `Wildmatch.lineFinds` — the rule of a line finds something in a path.

## Main results

* `Wildmatch.selects_of_readLine` — the sign of the rule of a line.
* `Wildmatch.RuleSet.selects_of_all` — the verdict of rules that all select.
* `Wildmatch.RuleSet.ofLines_eq_ok`, `Wildmatch.RuleSet.readable_of_ofLines` — when lines can be
  read, and the verdict of such lines.
-/

set_option autoImplicit false

namespace GlobPreset.Wildmatch

open Text

/-! ### Lines -/

/-- A trimmed line is a start of the line. -/
lemma trimLine_prefix (line : Text) : trimLine line <+: line := by
  unfold trimLine
  split
  · exact List.prefix_rfl
  · rw [stripEnd, dropEndWhile_eq_rdropWhile]
    exact List.rdropWhile_prefix _ line

/-- The line is blank, a comment or a lone slash once it is trimmed. -/
def isSkipped (trimmed : Text) : Bool :=
  trimmed.isEmpty || trimmed.head? = some (.of '#') || trimmed = [.of '/']

/-- The shape of the segments of a line, or why there is none. -/
def shapeOf (line : Text) (parts : List Text) : Except LineError (Option Shape) :=
  if (normalForm parts).isEmpty then .error (.invalid line)
  else
    match lineShape (parts.getLast? = some []) (normalForm parts) with
    | .error .danglingEscape => .error (.invalid line)
    | .error .openBracket => .ok none
    | .ok shape => if shape.isValid then .ok (some shape) else .error .backwardRange

/-- Reading a line without an exclusion mark. -/
lemma readLine_of_unmarked {line : Text} (hmark : (trimLine line).head? ≠ some (.of '!')) :
    readLine line =
      if isSkipped (trimLine line) = true then .ok none
      else (shapeOf line (splitOn (.of '/') (trimLine line))).map (Option.map (Rule.mk true)) := by
  unfold readLine isSkipped shapeOf
  simp only [hmark, ne_eq, not_false_eq_true, decide_true, if_true]
  split
  · rfl
  · split
    · rfl
    · generalize lineShape _ _ = result
      cases result with
      | error flaw => cases flaw <;> rfl
      | ok shape =>
        dsimp only
        split <;> rfl

/-- Trimming a line leaves its first character, unless nothing is left. -/
lemma head?_trimLine {line : Text} {c : CodePoint} (h : line.head? ≠ some c) :
    (trimLine line).head? ≠ some c := by
  obtain ⟨tail, htail⟩ := trimLine_prefix line
  rw [← htail] at h
  cases ht : trimLine line with
  | nil => simp
  | cons d t => simpa [ht] using h

/-- A line that does not start with an exclusion mark stands for a rule that selects. -/
lemma selects_of_readLine {line : Text} {rule : Rule} (h : readLine line = .ok (some rule))
    (hmark : line.head? ≠ some (.of '!')) : rule.selects = true := by
  rw [readLine_of_unmarked (head?_trimLine hmark)] at h
  split at h
  · simp at h
  · cases hs : shapeOf line (splitOn (.of '/') (trimLine line)) with
    | error e => simp [hs, Except.map] at h
    | ok shape =>
      cases shape with
      | none => simp [hs, Except.map] at h
      | some shape =>
        simp only [hs, Except.map, Option.map_some, Except.ok.injEq, Option.some.injEq] at h
        rw [← h]

/-- The rule of a line finds something in a path. A line without a rule finds nothing. -/
def lineFinds (line path : Text) : Bool :=
  match readLine line with
  | .ok (some rule) => (rule.shape.find path).isSome
  | _ => false

/-! ### Verdicts -/

namespace RuleSet

/-- Rules that all select give some path back only if one of them finds something in it. -/
lemma verdict_of_all (path : Text) {rules : List Rule} (h : ∀ r ∈ rules, r.selects = true)
    {held : Option Bool} (hheld : held = none ∨ held = some true) :
    verdict path held rules =
      if rules.any (fun r => (r.shape.find path).isSome) = true then some true else held := by
  induction rules generalizing held with
  | nil => simp [verdict]
  | cons r rest ih =>
    have hr : r.selects = true := h r List.mem_cons_self
    have hrest : ∀ r ∈ rest, r.selects = true := fun x hx => h x (List.mem_cons_of_mem _ hx)
    rw [verdict]
    cases hfind : r.shape.find path with
    | none => simp [ih hrest hheld, hfind]
    | some marks =>
      cases marks with
      | false => simp [hr, hfind]
      | true =>
        have hor : held.or (some r.selects) = some true := by
          rcases hheld with rfl | rfl <;> simp [hr]
        simp [hor, ih hrest (.inr rfl), hfind]

/-- **Rules that all select** select the paths in which one of them finds something. -/
lemma selects_of_all {set : RuleSet} (h : ∀ r ∈ set.rules, r.selects = true) (path : Text) :
    set.selects path = set.rules.any (fun r => (r.shape.find (plainPath path)).isSome) := by
  have hrev : ∀ r ∈ set.rules.reverse, r.selects = true :=
    fun r hr => h r (List.mem_reverse.1 hr)
  rw [selects, verdict_of_all (plainPath path) hrev (.inl rfl), List.any_reverse]
  cases set.rules.any (fun r => (r.shape.find (plainPath path)).isSome) <;> rfl

/-! ### Reading lines -/

/-- Reading lines one after another gives their rules if each can be read. -/
lemma mapM_readLine {lines : List Text} (h : ∀ l ∈ lines, ∃ r, readLine l = .ok r) :
    ∃ rules, lines.mapM readLine = .ok rules ∧
      ∀ r, r ∈ rules ↔ ∃ l ∈ lines, readLine l = .ok r := by
  induction lines with
  | nil => exact ⟨[], rfl, by simp⟩
  | cons l rest ih =>
    obtain ⟨r, hr⟩ := h l List.mem_cons_self
    obtain ⟨rules, hrules, hmem⟩ := ih (fun x hx => h x (List.mem_cons_of_mem _ hx))
    refine ⟨r :: rules, ?_, fun x => ?_⟩
    · rw [List.mapM_cons, hr, hrules]
      rfl
    · simp only [List.mem_cons, hmem, exists_eq_or_imp, hr, Except.ok.injEq]
      tauto

/-- Lines that can all be read, and that stand for rules that select, make a rule set whose verdict
is that of any of the lines. -/
lemma ofLines_eq_ok {lines : List Text} (hread : ∀ l ∈ lines, ∃ r, readLine l = .ok r)
    (hmark : ∀ l ∈ lines, l.head? ≠ some (.of '!')) :
    ∃ set, ofLines lines = .ok set ∧
      ∀ path, set.selects path = lines.any (fun l => lineFinds l (plainPath path)) := by
  have hread' : ∀ l ∈ lines.filter (fun l => !l.isEmpty), ∃ r, readLine l = .ok r :=
    fun l hl => hread l (List.mem_filter.1 hl).1
  obtain ⟨rules, hrules, hmem⟩ := mapM_readLine hread'
  refine ⟨⟨rules.filterMap id⟩, by rw [ofLines, hrules]; rfl, fun path => ?_⟩
  have hall : ∀ r ∈ rules.filterMap id, r.selects = true := by
    intro r hr
    rw [List.mem_filterMap] at hr
    obtain ⟨o, ho, hor⟩ := hr
    obtain ⟨l, hl, hlr⟩ := (hmem o).1 ho
    exact selects_of_readLine (hlr.trans (by rw [← hor]; rfl)) (hmark l (List.mem_filter.1 hl).1)
  rw [@selects_of_all ⟨rules.filterMap id⟩ hall path]
  rw [Bool.eq_iff_iff, List.any_eq_true, List.any_eq_true]
  constructor
  · rintro ⟨r, hr, hfind⟩
    rw [List.mem_filterMap] at hr
    obtain ⟨o, ho, hor⟩ := hr
    obtain ⟨l, hl, hlr⟩ := (hmem o).1 ho
    have hsome : readLine l = .ok (some r) := hlr.trans (by rw [← hor]; rfl)
    exact ⟨l, (List.mem_filter.1 hl).1, by simpa [lineFinds, hsome] using hfind⟩
  · rintro ⟨l, hl, hfind⟩
    unfold lineFinds at hfind
    split at hfind
    · rename_i rule hsome
      have hne : l ≠ [] := by
        rintro rfl
        simp [readLine, trimLine, endsWith, stripEnd, dropEndWhile] at hsome
      refine ⟨rule, List.mem_filterMap.2 ⟨some rule, (hmem _).2 ⟨l, ?_, hsome⟩, rfl⟩, hfind⟩
      exact List.mem_filter.2 ⟨hl, by simpa using hne⟩
    · simp at hfind

/-- Each line of a rule set could be read. -/
lemma readable_of_ofLines {lines : List Text} {set : RuleSet} (h : ofLines lines = .ok set)
    {l : Text} (hl : l ∈ lines) : ∃ r, readLine l = .ok r := by
  by_cases hne : l = []
  · subst hne
    exact ⟨none, by simp [readLine, trimLine, endsWith, stripEnd, dropEndWhile]⟩
  · have hmem : l ∈ lines.filter (fun l => !l.isEmpty) :=
      List.mem_filter.2 ⟨hl, by simpa using hne⟩
    unfold ofLines at h
    generalize lines.filter (fun l => !l.isEmpty) = kept at h hmem
    cases hm : kept.mapM readLine with
    | error e =>
      rw [hm] at h
      exact absurd h (by simp [bind, Except.bind])
    | ok rules =>
      clear h
      induction kept generalizing rules with
      | nil => simp at hmem
      | cons k rest ih =>
        rw [List.mapM_cons] at hm
        cases hk : readLine k with
        | error e => simp [hk, bind, Except.bind] at hm
        | ok r =>
          cases hr : rest.mapM readLine with
          | error e => simp [hk, hr, bind, Except.bind] at hm
          | ok rs =>
            rcases List.mem_cons.1 hmem with rfl | hmem
            · exact ⟨r, hk⟩
            · exact ih hmem rs hr

end RuleSet

end GlobPreset.Wildmatch
