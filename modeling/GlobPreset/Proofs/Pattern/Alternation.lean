import GlobPreset.Proofs.Pattern.Groups
import GlobPreset.Proofs.Text.Order

/-!
# Alternatives of patterns put together

What a pattern put together from two stands for. The reader of groups goes over the spliced pattern
anew after every splice, so it has to be shown that a group of one part stays the same group with
the other part around it. That holds if no brace of the first part is left open: otherwise the
second part can close it, and bring its comma along.

## Main definitions

* `Pattern.braceDepth?` — how many braces are open behind a text.
* `Pattern.IsBalanced` — no brace is left open by a text, and nothing is escaped by its end.
* `Pattern.IsBody` — what stands within the braces of a group, with its alternatives.

## Main results

* `Pattern.closeGroup?_eq_some` — a group is read up to the brace that closes it.
* `Pattern.groupBehind?_balanced_append` — a group of one part is a group of the whole, and the
  first group of the whole is one of a part.
* `Pattern.alternatives_of_group` — the alternatives by the first group, with no bound on splices.
* `Pattern.alternatives_append` — **the alternatives of two parts are put together in all ways**.
* `Pattern.alternatives_of_mem` — an alternative stands for itself alone.

## Design

Statements about `alternatives` are proved by `splice_induction`: what holds of a pattern as soon as
it holds of the pattern with each alternative of its first group holds of all patterns.
-/

set_option autoImplicit false

namespace GlobPreset.Pattern

open Text

/-! ### Open braces -/

/-- How many braces are open behind a text if `depth` are open in front of it; none if the text ends
in a backslash that escapes nothing. A closing brace that closes nothing is a plain character. -/
def braceDepth? (depth : Nat) : Text → Option Nat
  | [] => some depth
  | .of '\\' :: [] => none
  | .of '\\' :: _ :: rest => braceDepth? depth rest
  | .of '{' :: rest => braceDepth? (depth + 1) rest
  | .of '}' :: rest => braceDepth? (depth - 1) rest
  | _ :: rest => braceDepth? depth rest

/-- No brace is left open by the text, and nothing is escaped by its end. -/
def IsBalanced (s : Text) : Prop := braceDepth? 0 s = some 0

instance (s : Text) : Decidable (IsBalanced s) := inferInstanceAs (Decidable (_ = _))

/-- What does not escape and is no brace leaves the depth as it is. -/
lemma braceDepth?_cons {c : CodePoint} (hback : c ≠ .of '\\') (hopen : c ≠ .of '{')
    (hclose : c ≠ .of '}') (depth : Nat) (rest : Text) :
    braceDepth? depth (c :: rest) = braceDepth? depth rest := by
  rw [braceDepth?] <;> simp_all

/-- Behind two texts as many braces are open as behind the second, read at the depth where the first
ends. -/
lemma braceDepth?_append {depth e : Nat} {s : Text} (h : braceDepth? depth s = some e) (t : Text) :
    braceDepth? depth (s ++ t) = braceDepth? e t := by
  fun_induction braceDepth? depth s with
  | case1 depth => cases h; rfl
  | case2 => cases h
  | case3 depth c rest ih => simpa [braceDepth?] using ih h
  | case4 depth rest ih => simpa [braceDepth?] using ih h
  | case5 depth rest ih => simpa [braceDepth?] using ih h
  | case6 depth c rest hlast hescape hopen hclose ih =>
    rw [List.cons_append, braceDepth?_cons (ne_backslash hlast hescape) hopen hclose, ih h]

/-- Balanced texts put together are balanced. -/
lemma IsBalanced.append {s t : Text} (hs : IsBalanced s) (ht : IsBalanced t) :
    IsBalanced (s ++ t) :=
  (braceDepth?_append hs t).trans ht

/-! ### Within a group -/

/-- What stands within the braces of a group, `depth` further ones being open at its beginning, with
the alternatives of the group. -/
inductive IsBody : Nat → Text → List Text → Prop
  | nil : IsBody 0 [] [[]]
  | escape {depth : Nat} {s first : Text} {others : List Text} (c : CodePoint)
      (h : IsBody depth s (first :: others)) :
      IsBody depth (.of '\\' :: c :: s) ((.of '\\' :: c :: first) :: others)
  | opener {depth : Nat} {s first : Text} {others : List Text}
      (h : IsBody (depth + 1) s (first :: others)) :
      IsBody depth (.of '{' :: s) ((.of '{' :: first) :: others)
  | closer {depth : Nat} {s first : Text} {others : List Text}
      (h : IsBody depth s (first :: others)) :
      IsBody (depth + 1) (.of '}' :: s) ((.of '}' :: first) :: others)
  | comma {s : Text} {options : List Text} (h : IsBody 0 s options) :
      IsBody 0 (.of ',' :: s) ([] :: options)
  | innerComma {depth : Nat} {s first : Text} {others : List Text}
      (h : IsBody (depth + 1) s (first :: others)) :
      IsBody (depth + 1) (.of ',' :: s) ((.of ',' :: first) :: others)
  | plain {depth : Nat} {s first : Text} {others : List Text} {c : CodePoint}
      (hc : Merge.isGroupMark c = false) (h : IsBody depth s (first :: others)) :
      IsBody depth (c :: s) ((c :: first) :: others)

namespace IsBody

variable {depth : Nat} {body : Text} {options : List Text}

/-- A group has an alternative. -/
lemma exists_cons (h : IsBody depth body options) :
    ∃ first others, options = first :: others := by
  cases h <;> exact ⟨_, _, rfl⟩

/-- The alternatives are what the commas of the group separate. -/
lemma joinWith_eq (h : IsBody depth body options) : joinWith [.of ','] options = body := by
  induction h with
  | nil => rfl
  | comma h ih =>
    obtain ⟨first, others, rfl⟩ := h.exists_cons
    simpa [joinWith] using ih
  | escape c _ ih => exact (joinWith_append_cons _ [.of '\\', c] _ _).trans (congrArg _ ih)
  | opener _ ih | closer _ ih | innerComma _ ih | plain _ _ ih =>
    exact (joinWith_append_cons _ [_] _ _).trans (congrArg _ ih)

/-- No alternative is longer than the group. -/
lemma length_le (h : IsBody depth body options) {o : Text} (ho : o ∈ options) :
    o.length ≤ body.length := by
  induction h generalizing o with
  | nil => simp_all
  | comma h ih =>
    rcases List.mem_cons.1 ho with rfl | ho
    · exact Nat.zero_le _
    · exact (ih ho).trans (Nat.le_succ _)
  | escape _ _ ih | opener _ ih | closer _ ih | innerComma _ ih | plain _ _ ih =>
    rcases List.mem_cons.1 ho with rfl | ho
    · simpa using ih List.mem_cons_self
    · exact (ih (List.mem_cons_of_mem _ ho)).trans (by simp +arith)

/-- Within the braces of a group, no brace is left open but that of the group. -/
lemma braceDepth?_eq (h : IsBody depth body options) : braceDepth? (depth + 1) body = some 1 := by
  induction h with
  | nil => rfl
  | escape _ _ ih | opener _ ih | closer _ ih => simpa [braceDepth?] using ih
  | comma _ ih | innerComma _ ih =>
    exact (braceDepth?_cons (by decide) (by decide) (by decide) _ _).trans ih
  | plain hc _ ih =>
    obtain ⟨hopen, hclose, -, hback⟩ := isGroupMark_eq_false.1 hc
    exact (braceDepth?_cons hback hopen hclose _ _).trans ih

/-- The first alternative closes the braces that are open at the beginning, and no other one. -/
lemma braceDepth?_head (h : IsBody depth body options) :
    braceDepth? depth (options.headD []) = some 0 := by
  induction h with
  | nil | comma => rfl
  | escape _ _ ih | opener _ ih | closer _ ih => simpa [braceDepth?] using ih
  | innerComma _ ih => exact (braceDepth?_cons (by decide) (by decide) (by decide) _ _).trans ih
  | plain hc _ ih =>
    obtain ⟨hopen, hclose, -, hback⟩ := isGroupMark_eq_false.1 hc
    exact (braceDepth?_cons hback hopen hclose _ _).trans ih

/-- The other alternatives are balanced. -/
lemma isBalanced_of_mem_tail (h : IsBody depth body options) {o : Text} (ho : o ∈ options.tail) :
    IsBalanced o := by
  induction h with
  | nil => cases ho
  | comma h ih =>
    obtain ⟨first, others, rfl⟩ := h.exists_cons
    rcases List.mem_cons.1 ho with rfl | ho
    · exact h.braceDepth?_head
    · exact ih ho
  | escape _ _ ih | opener _ ih | closer _ ih | innerComma _ ih | plain _ _ ih => exact ih ho

/-- The alternatives of a group are balanced. -/
lemma isBalanced_of_mem (h : IsBody 0 body options) {o : Text} (ho : o ∈ options) :
    IsBalanced o := by
  obtain ⟨first, others, rfl⟩ := h.exists_cons
  rcases List.mem_cons.1 ho with rfl | ho
  · exact h.braceDepth?_head
  · exact h.isBalanced_of_mem_tail ho

/-- A group is read up to the brace that closes it, whatever stands behind that. -/
lemma closeGroup?_eq (h : IsBody depth body options) (behind : Text) :
    closeGroup? depth (body ++ .of '}' :: behind) = some (options, behind) := by
  induction h with
  | nil => rfl
  | escape _ _ ih | opener _ ih | closer _ ih | comma _ ih | innerComma _ ih =>
    simp [closeGroup?, ih, consOption]
  | plain hc _ ih =>
    obtain ⟨hopen, hclose, hcomma, hback⟩ := isGroupMark_eq_false.1 hc
    rw [List.cons_append, closeGroup?, ih]
    · rfl
    all_goals simp_all

end IsBody

/-- Characters in front of a group that was read are in front of its first alternative. -/
lemma exists_isBody_of_map {depth : Nat} {rest : Text} {r? : Option (List Text × Text)}
    {options : List Text} {behind : Text}
    (ih : ∀ {options : List Text}, r? = some (options, behind) →
      ∃ body, IsBody depth body options ∧ rest = body ++ .of '}' :: behind) {cs : Text}
    (h : r?.map (consOption cs) = some (options, behind)) :
    ∃ body first others, IsBody depth body (first :: others) ∧ rest = body ++ .of '}' :: behind ∧
      options = (cs ++ first) :: others := by
  obtain ⟨⟨inner, behind'⟩, hr, hcons⟩ := Option.map_eq_some_iff.1 h
  obtain rfl : behind' = behind := by
    cases inner <;> exact congrArg Prod.snd hcons
  obtain ⟨body, hbody, hrest⟩ := ih hr
  obtain ⟨first, others, rfl⟩ := hbody.exists_cons
  exact ⟨body, first, others, hbody, hrest, (congrArg Prod.fst hcons).symm⟩

/-- **A group is read up to the brace that closes it.** -/
theorem closeGroup?_eq_some {depth : Nat} {s : Text} {options : List Text} {behind : Text} :
    closeGroup? depth s = some (options, behind) ↔
      ∃ body, IsBody depth body options ∧ s = body ++ .of '}' :: behind := by
  constructor
  · intro h
    fun_induction closeGroup? depth s generalizing options with
    | case1 | case2 => cases h
    | case3 depth c rest ih =>
      obtain ⟨body, first, others, hbody, rfl, rfl⟩ := exists_isBody_of_map ih h
      exact ⟨_, hbody.escape c, rfl⟩
    | case4 depth rest ih =>
      obtain ⟨body, first, others, hbody, rfl, rfl⟩ := exists_isBody_of_map ih h
      exact ⟨_, hbody.opener, rfl⟩
    | case5 rest =>
      cases h
      exact ⟨[], .nil, rfl⟩
    | case6 rest depth ih =>
      obtain ⟨body, first, others, hbody, rfl, rfl⟩ := exists_isBody_of_map ih h
      exact ⟨_, hbody.closer, rfl⟩
    | case7 rest ih =>
      obtain ⟨⟨inner, behind'⟩, hr, hcons⟩ := Option.map_eq_some_iff.1 h
      cases hcons
      obtain ⟨body, hbody, rfl⟩ := ih hr
      exact ⟨_, hbody.comma, rfl⟩
    | case8 rest depth ih =>
      obtain ⟨body, first, others, hbody, rfl, rfl⟩ := exists_isBody_of_map ih h
      exact ⟨_, hbody.innerComma, rfl⟩
    | case9 depth c rest hlast hescape hopen hclose hcomma ih =>
      obtain ⟨body, first, others, hbody, rfl, rfl⟩ := exists_isBody_of_map ih h
      have hc : Merge.isGroupMark c = false :=
        isGroupMark_eq_false.2 ⟨hopen, hclose, hcomma, ne_backslash hlast hescape⟩
      exact ⟨_, hbody.plain hc, rfl⟩
  · rintro ⟨body, hbody, rfl⟩
    exact hbody.closeGroup?_eq behind

/-- A group is closed if no brace is left open. -/
lemma exists_closeGroup? {depth : Nat} {s : Text} (h : braceDepth? (depth + 1) s = some 0) :
    ∃ options behind, closeGroup? depth s = some (options, behind) := by
  suffices h : (closeGroup? depth s).isSome = true by
    obtain ⟨⟨options, behind⟩, h⟩ := Option.isSome_iff_exists.1 h
    exact ⟨options, behind, h⟩
  fun_induction closeGroup? depth s with
  | case1 depth => exact absurd h (by simp [braceDepth?])
  | case2 => cases h
  | case3 depth c rest ih => simpa using ih h
  | case4 depth rest ih => simpa using ih h
  | case5 rest => rfl
  | case6 rest depth ih => simpa using ih h
  | case7 rest ih | case8 rest depth ih =>
    rw [braceDepth?_cons (by decide) (by decide) (by decide)] at h
    simpa using ih h
  | case9 depth c rest hlast hescape hopen hclose hcomma ih =>
    rw [braceDepth?_cons (ne_backslash hlast hescape) hopen hclose] at h
    simpa using ih h

/-- A group in braces is balanced, and what stands behind it decides. -/
lemma IsBody.isBalanced_cons {body : Text} {options : List Text} (h : IsBody 0 body options)
    (behind : Text) : IsBalanced (.of '{' :: (body ++ .of '}' :: behind)) ↔ IsBalanced behind := by
  rw [IsBalanced, braceDepth?, braceDepth?_append h.braceDepth?_eq, braceDepth?]
  rfl

/-- A group without a comma has its body for an alternative. -/
lemma closeGroup?_eq_singleton {s body behind : Text}
    (h : closeGroup? 0 s = some ([body], behind)) :
    IsBody 0 body [body] ∧ s = body ++ .of '}' :: behind := by
  obtain ⟨inner, hinner, rfl⟩ := closeGroup?_eq_some.1 h
  obtain rfl : body = inner := hinner.joinWith_eq
  exact ⟨hinner, rfl⟩

/-! ### The first group -/

/-- What a group looks like in its pattern, the first `skip` characters of which are taken as they
are: its lead is balanced behind them, and it has two alternatives at least. -/
structure BraceGroup.IsAt (g : BraceGroup) (skip : Nat) (pattern : Text) : Prop where
  /-- The group stands behind its lead and in front of the rest. -/
  exists_body : ∃ body, IsBody 0 body g.options ∧
    pattern = g.lead ++ .of '{' :: (body ++ .of '}' :: g.behind)
  two_le : 2 ≤ g.options.length
  skip_le : skip ≤ g.lead.length
  isBalanced_lead : IsBalanced (g.lead.drop skip)

/-- The group that is read is in the pattern. -/
lemma isAt_of_groupBehind? {skip : Nat} {pattern : Text} {g : BraceGroup}
    (h : groupBehind? skip pattern = some g) : g.IsAt skip pattern := by
  fun_induction groupBehind? skip pattern generalizing g with
  | case1 => cases h
  | case2 c rest skip ih =>
    obtain ⟨g, hg, rfl⟩ := Option.map_eq_some_iff.1 h
    obtain ⟨⟨body, hbody, rfl⟩, htwo, hskip, hlead⟩ := ih hg
    exact ⟨⟨body, hbody, rfl⟩, htwo, Nat.succ_le_succ hskip, hlead⟩
  | case3 rest ih =>
    obtain ⟨g, hg, rfl⟩ := Option.map_eq_some_iff.1 h
    obtain ⟨⟨body, hbody, rfl⟩, htwo, hskip, hlead⟩ := ih hg
    refine ⟨⟨body, hbody, rfl⟩, htwo, Nat.zero_le _, ?_⟩
    obtain ⟨c, lead, hc⟩ := List.exists_cons_of_length_pos (Nat.lt_of_succ_le hskip)
    rw [hc] at hlead
    simpa [BraceGroup.consLead, hc, IsBalanced, braceDepth?] using hlead
  | case4 => cases h
  | case5 rest body behind hclose _ ih =>
    obtain ⟨g, hg, rfl⟩ := Option.map_eq_some_iff.1 h
    obtain ⟨hbody, rfl⟩ := closeGroup?_eq_singleton hclose
    obtain ⟨⟨body', hbody', hrest⟩, htwo, hskip, hlead⟩ := ih hg
    refine ⟨⟨body', hbody', congrArg _ hrest⟩, htwo, Nat.zero_le _, ?_⟩
    -- the lead begins with the group that has no comma
    have htake : g.lead.take (body.length + 1) = body ++ [.of '}'] := by
      have h := congrArg (List.take (body.length + 1)) hrest
      rw [List.take_append_of_le_length hskip] at h
      simpa [List.take_append, List.take_of_length_le] using h.symm
    have hsplit : g.lead = body ++ .of '}' :: g.lead.drop (body.length + 1) := by
      rw [← List.singleton_append, ← List.append_assoc, ← htake, List.take_append_drop]
    show IsBalanced (.of '{' :: g.lead)
    rw [hsplit]
    exact (hbody.isBalanced_cons _).2 hlead
  | case6 rest options behind hone hclose _ =>
    cases h
    obtain ⟨body, hbody, rfl⟩ := closeGroup?_eq_some.1 hclose
    refine ⟨⟨body, hbody, rfl⟩, ?_, Nat.zero_le _, rfl⟩
    obtain ⟨first, _ | ⟨second, others⟩, rfl⟩ := hbody.exists_cons
    · exact absurd rfl (hone first)
    · simp
  | case7 c rest hback hopen ih =>
    obtain ⟨g, hg, rfl⟩ := Option.map_eq_some_iff.1 h
    obtain ⟨⟨body, hbody, rfl⟩, htwo, _, hlead⟩ := ih hg
    refine ⟨⟨body, hbody, rfl⟩, htwo, Nat.zero_le _, ?_⟩
    by_cases hclose : c = .of '}'
    · subst hclose
      exact hlead
    · exact (braceDepth?_cons hback hopen hclose _ _).trans hlead

/-- The group in the pattern with a text behind. -/
def BraceGroup.appendBehind (t : Text) (g : BraceGroup) : BraceGroup :=
  { g with behind := g.behind ++ t }

/-- The group in the pattern with a text in front. -/
def BraceGroup.appendLead (s : Text) (g : BraceGroup) : BraceGroup := { g with lead := s ++ g.lead }

/-- A character in front of the pattern is in front of the group, wherever that was found. -/
lemma map_consLead_or (c : CodePoint) (s t : Text) (g? h? : Option BraceGroup) :
    ((g?.map (BraceGroup.appendBehind t)).or (h?.map (BraceGroup.appendLead s))).map
        (BraceGroup.consLead c) =
      ((g?.map (BraceGroup.consLead c)).map (BraceGroup.appendBehind t)).or
        (h?.map (BraceGroup.appendLead (c :: s))) := by
  rw [Option.map_or, Option.map_map, Option.map_map, Option.map_map]
  rfl

/-- **The first group of a balanced text and another one.** It is the first group of the balanced
text, if there is one, and else the first group of the other. -/
theorem groupBehind?_balanced_append {skip : Nat} {s : Text} (hskip : skip ≤ s.length)
    (hs : IsBalanced (s.drop skip)) (t : Text) :
    groupBehind? skip (s ++ t) =
      ((groupBehind? skip s).map (BraceGroup.appendBehind t)).or
        ((groupBehind? 0 t).map (BraceGroup.appendLead s)) := by
  fun_induction groupBehind? skip s with
  | case1 skip =>
    obtain rfl : skip = 0 := Nat.le_zero.1 hskip
    exact Option.map_id_apply.symm
  | case2 c rest skip ih =>
    rw [List.cons_append, groupBehind?, ih (Nat.le_of_succ_le_succ hskip) hs, map_consLead_or]
  | case3 rest ih =>
    have hrest : 1 ≤ rest.length ∧ IsBalanced (rest.drop 1) := by
      cases rest with
      | nil => cases hs
      | cons c rest => exact ⟨Nat.le_add_left _ _, hs⟩
    rw [← map_consLead_or, ← ih hrest.1 hrest.2]
    rfl
  | case4 rest hclose _ =>
    obtain ⟨options, behind, h⟩ := @exists_closeGroup? 0 _ hs
    cases hclose.symm.trans h
  | case5 rest body behind hclose _ ih =>
    obtain ⟨hbody, rfl⟩ := closeGroup?_eq_singleton hclose
    have hclose' : closeGroup? 0 (body ++ .of '}' :: behind ++ t) = some ([body], behind ++ t) := by
      rw [List.append_assoc]
      exact hbody.closeGroup?_eq _
    have hbehind : IsBalanced ((body ++ .of '}' :: behind).drop (body.length + 1)) := by
      have h := (hbody.isBalanced_cons behind).1 hs
      simpa [List.drop_append, List.drop_of_length_le] using h
    rw [← map_consLead_or, ← ih (by simp +arith) hbehind, List.cons_append, groupBehind?]
    simp only [hclose', if_true]
    exact if_neg (by decide)
  | case6 rest options behind hone hclose _ =>
    obtain ⟨body, hbody, rfl⟩ := closeGroup?_eq_some.1 hclose
    have hclose' : closeGroup? 0 (body ++ .of '}' :: behind ++ t) =
      some (options, behind ++ t) := by
      rw [List.append_assoc]
      exact hbody.closeGroup?_eq _
    rw [List.cons_append, groupBehind?, hclose']
    obtain ⟨first, _ | ⟨second, others⟩, rfl⟩ := hbody.exists_cons
    · exact absurd rfl (hone first)
    · rfl
  | case7 c rest hback hopen ih =>
    have hrest : IsBalanced rest := by
      by_cases hclose : c = .of '}'
      · subst hclose
        exact hs
      · exact (braceDepth?_cons hback hopen hclose _ _).symm.trans hs
    rw [List.cons_append, groupBehind?, if_neg hback, if_neg hopen, ih (Nat.zero_le _) hrest,
      map_consLead_or]

/-! ### Alternatives by the first group -/

/-- The pattern with an alternative in place of the group. -/
def BraceGroup.splice (g : BraceGroup) (option : Text) : Text := g.lead ++ option ++ g.behind

/-- A splice makes the pattern shorter. -/
lemma length_splice_lt {pattern : Text} {g : BraceGroup} (h : firstGroup? pattern = some g)
    {o : Text} (ho : o ∈ g.options) : (g.splice o).length < pattern.length := by
  obtain ⟨⟨body, hbody, rfl⟩, -, -, -⟩ := isAt_of_groupBehind? h
  have hle := hbody.length_le ho
  simp only [BraceGroup.splice, List.length_append, List.length_cons]
  omega

/-- What holds of a pattern as soon as it holds of the pattern with each alternative of its first
group holds of all patterns. -/
theorem splice_induction {motive : Text → Prop}
    (step : ∀ pattern, (∀ g, firstGroup? pattern = some g →
      ∀ o ∈ g.options, motive (g.splice o)) → motive pattern) (pattern : Text) :
    motive pattern :=
  step pattern fun g hg o ho =>
    have := length_splice_lt hg ho
    splice_induction step (g.splice o)
termination_by pattern.length

/-- A pattern with a group has characters. -/
lemma exists_length_eq {pattern : Text} {g : BraceGroup} (h : firstGroup? pattern = some g) :
    ∃ n, pattern.length = n + 1 := by
  obtain ⟨⟨body, _, rfl⟩, -, -, -⟩ := isAt_of_groupBehind? h
  exact Nat.exists_eq_succ_of_ne_zero (by simp)

/-- More splices than there are characters change nothing. -/
lemma alternativesWithin_eq {fuel fuel' : Nat} {pattern : Text} (h : pattern.length ≤ fuel)
    (h' : pattern.length ≤ fuel') :
    alternativesWithin fuel pattern = alternativesWithin fuel' pattern := by
  induction pattern using splice_induction generalizing fuel fuel' with
  | step pattern ih =>
    cases hg : firstGroup? pattern with
    | none => rw [alternativesWithin_of_noGroup hg, alternativesWithin_of_noGroup hg]
    | some g =>
      obtain ⟨n, hn⟩ := exists_length_eq hg
      obtain ⟨fuel, rfl⟩ : ∃ k, fuel = k + 1 := ⟨fuel - 1, by omega⟩
      obtain ⟨fuel', rfl⟩ : ∃ k, fuel' = k + 1 := ⟨fuel' - 1, by omega⟩
      simp only [alternativesWithin, hg]
      refine congrArg dedupe (List.flatMap_congr fun o ho => ?_)
      have hlt := length_splice_lt hg ho
      exact ih g hg o ho (by omega) (by omega)

/-- **The alternatives by the first group**: those of the pattern with each alternative of the group
in its place. -/
theorem alternatives_of_group {pattern : Text} {g : BraceGroup} (h : firstGroup? pattern = some g) :
    alternatives pattern = dedupe (g.options.flatMap fun o => alternatives (g.splice o)) := by
  obtain ⟨n, hn⟩ := exists_length_eq h
  rw [alternatives, hn, alternativesWithin, h]
  refine congrArg dedupe (List.flatMap_congr fun o ho => ?_)
  have hlt := length_splice_lt h ho
  exact alternativesWithin_eq (Nat.le_of_lt_succ (hlt.trans_eq hn)) le_rfl

/-- A pattern has an alternative. -/
lemma alternatives_ne_nil (pattern : Text) : alternatives pattern ≠ [] := by
  induction pattern using splice_induction with
  | step pattern ih =>
    cases hg : firstGroup? pattern with
    | none => simp [alternatives_of_noGroup hg]
    | some g =>
      obtain ⟨⟨body, hbody, -⟩, -, -, -⟩ := isAt_of_groupBehind? hg
      obtain ⟨first, others, hoptions⟩ := hbody.exists_cons
      obtain ⟨s, hs⟩ := List.exists_mem_of_ne_nil _ (ih g hg first (by simp [hoptions]))
      rw [alternatives_of_group hg]
      refine List.ne_nil_of_mem (a := s) (mem_dedupe.2 (List.mem_flatMap.2 ⟨first, ?_, hs⟩))
      simp [hoptions]

/-- The alternatives of a pattern are different. -/
lemma nodup_alternatives (pattern : Text) : (alternatives pattern).Nodup := by
  cases hg : firstGroup? pattern with
  | none => simp [alternatives_of_noGroup hg]
  | some g =>
    rw [alternatives_of_group hg]
    exact nodup_dedupe _

/-- **An alternative stands for itself alone.** -/
theorem alternatives_of_mem {pattern s : Text} (hs : s ∈ alternatives pattern) :
    alternatives s = [s] := by
  induction pattern using splice_induction with
  | step pattern ih =>
    cases hg : firstGroup? pattern with
    | none =>
      rw [alternatives_of_noGroup hg, List.mem_singleton] at hs
      rw [hs, alternatives_of_noGroup hg]
    | some g =>
      rw [alternatives_of_group hg, mem_dedupe, List.mem_flatMap] at hs
      obtain ⟨o, ho, hs⟩ := hs
      exact ih g hg o ho hs

/-! ### Patterns put together -/

/-- A balanced pattern stays balanced with an alternative in place of its first group. -/
lemma IsBalanced.splice {pattern : Text} (hp : IsBalanced pattern) {g : BraceGroup}
    (h : firstGroup? pattern = some g) {o : Text} (ho : o ∈ g.options) :
    IsBalanced (g.splice o) := by
  obtain ⟨⟨body, hbody, rfl⟩, -, -, hlead⟩ := isAt_of_groupBehind? h
  have hgroup : IsBalanced (.of '{' :: (body ++ .of '}' :: g.behind)) :=
    (braceDepth?_append hlead _).symm.trans hp
  exact (IsBalanced.append hlead (hbody.isBalanced_of_mem ho)).append
    ((hbody.isBalanced_cons _).1 hgroup)

/-- The alternatives of a pattern without groups and another one. -/
lemma alternatives_noGroup_append {p : Text} (hp : IsBalanced p) (hnone : firstGroup? p = none)
    (q : Text) : alternatives (p ++ q) = (alternatives q).map (p ++ ·) := by
  have hfirst : ∀ q, firstGroup? (p ++ q) = (firstGroup? q).map (BraceGroup.appendLead p) := by
    intro q
    rw [firstGroup?, groupBehind?_balanced_append (Nat.zero_le _) hp, ← firstGroup?, hnone]
    rfl
  induction q using splice_induction with
  | step q ih =>
    cases hg : firstGroup? q with
    | none =>
      rw [alternatives_of_noGroup hg, alternatives_of_noGroup (by rw [hfirst, hg]; rfl)]
      rfl
    | some g =>
      have hsplice : ∀ o, (g.appendLead p).splice o = p ++ g.splice o := fun o => by
        simp [BraceGroup.splice, BraceGroup.appendLead]
      have hinner : (g.appendLead p).options.flatMap
            (fun o => alternatives ((g.appendLead p).splice o)) =
          (g.options.flatMap fun o => alternatives (g.splice o)).map (p ++ ·) := by
        rw [List.map_flatMap]
        refine List.flatMap_congr fun o ho => ?_
        rw [hsplice, ih g hg o ho]
      rw [alternatives_of_group hg, alternatives_of_group (by rw [hfirst, hg]; rfl), hinner,
        dedupe_map (List.append_right_injective p)]

/-- **The alternatives of two patterns put together**: each one of the first with each one of the
second, in this order, without those that came before. The first pattern leaves no brace open; what
the second one does with its braces does not count. -/
theorem alternatives_append {p : Text} (hp : IsBalanced p) (q : Text) :
    alternatives (p ++ q) =
      dedupe ((alternatives p).flatMap fun x => (alternatives q).map (x ++ ·)) := by
  induction p using splice_induction with
  | step p ih =>
    cases hg : firstGroup? p with
    | none =>
      rw [alternatives_noGroup_append hp hg, alternatives_of_noGroup hg, List.flatMap_singleton,
        dedupe_map (List.append_right_injective p), dedupe_eq_self (nodup_alternatives q)]
    | some g =>
      have hfirst : firstGroup? (p ++ q) = some (g.appendBehind q) := by
        rw [firstGroup?, groupBehind?_balanced_append (Nat.zero_le _) hp, ← firstGroup?, hg]
        rfl
      have hsplice : ∀ o ∈ g.options, alternatives ((g.appendBehind q).splice o) =
          dedupe ((alternatives (g.splice o)).flatMap fun x => (alternatives q).map (x ++ ·)) := by
        intro o ho
        rw [← ih g hg o ho (hp.splice hg ho)]
        simp [BraceGroup.splice, BraceGroup.appendBehind]
      rw [alternatives_of_group hfirst, alternatives_of_group hg, dedupe_dedupe_flatMap,
        List.flatMap_assoc, ← dedupe_flatMap_dedupe g.options]
      congr 1
      exact List.flatMap_congr hsplice

/-- A brace that is left open takes the comma of the other pattern. -/
example : alternatives ("\x7ba".toText ++ ",b\x7d".toText) = ["a".toText, "b".toText] := by
  decide +kernel

/-- **Alternatives are a homomorphism with stable results.** The alternatives of a pattern that
leaves no brace open and any other one are those of the parts, put together in nested order without
later duplicates. Every pattern has alternatives, all of them different, and each stands for itself
alone. -/
theorem alternatives_homomorphism :
    (∀ p q : Text, IsBalanced p →
      alternatives (p ++ q) =
        dedupe ((alternatives p).flatMap fun x => (alternatives q).map fun y => x ++ y)) ∧
    ∀ r : Text, alternatives r ≠ [] ∧ (alternatives r).Nodup ∧
      ∀ s ∈ alternatives r, alternatives s = [s] :=
  ⟨fun _ q hp => alternatives_append hp q,
    fun r => ⟨alternatives_ne_nil r, nodup_alternatives r, fun _ => alternatives_of_mem⟩⟩

/-- A nested group with an escaped comma and a stray brace behind it, in front of a pattern that
leaves a brace open; and one of its alternatives. -/
theorem alternatives_homomorphism_nested :
    IsBalanced "\x7ba,\x7bb,c\\,d\x7d\x7d\x7d".toText ∧
    alternatives ("\x7ba,\x7bb,c\\,d\x7d\x7d\x7d".toText ++ "\x7bx,y\x7d.\x7b".toText) =
      dedupe ((alternatives "\x7ba,\x7bb,c\\,d\x7d\x7d\x7d".toText).flatMap fun x =>
        (alternatives "\x7bx,y\x7d.\x7b".toText).map fun y => x ++ y) ∧
    alternatives "c\\,d\x7d".toText = ["c\\,d\x7d".toText] :=
  ⟨by decide +kernel, alternatives_homomorphism.1 _ _ (by decide +kernel),
    (alternatives_homomorphism.2 "\x7ba,\x7bb,c\\,d\x7d\x7d\x7d".toText).2.2 _ (by decide +kernel)⟩

end GlobPreset.Pattern
