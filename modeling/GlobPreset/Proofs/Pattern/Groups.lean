import GlobPreset.Emit.Merge
import GlobPreset.Pattern.Brace
import GlobPreset.Proofs.Text.Cutting
import GlobPreset.Proofs.Wildmatch.Literal

/-!
# Groups in braces

What a pattern with one group stands for. The reader of groups goes over the part in front of a
group character by character, so that part only has to be free of opening braces and of a backslash
that would escape the group.

## Main definitions

* `Pattern.IsClosed` — no group begins in the text, and none is escaped by its end.

## Main results

* `Pattern.alternatives_of_noGroup` — a pattern without a group stands for itself.
* `Pattern.mem_alternatives_braced` — a pattern with one group stands for the patterns with a member
  in place of the group.
-/

set_option autoImplicit false

namespace GlobPreset.Pattern

open Text Wildmatch

/-! ### In front of a group -/

/-- No group begins in the text, and none is escaped by its end. -/
structure IsClosed (s : Text) : Prop where
  /-- There is no opening brace, unless it is escaped. -/
  noOpener : hasUnescaped (· == .of '{') s = false
  /-- Every backslash escapes something. -/
  dangles_eq : dangles s = false

/-- A text without braces and backslashes is closed. -/
lemma isClosed_of_not_mem {s : Text} (hbrace : .of '{' ∉ s) (hback : .of '\\' ∉ s) :
    IsClosed s := by
  induction s with
  | nil => exact ⟨rfl, rfl⟩
  | cons c s ih =>
    have hc : c ≠ .of '\\' ∧ c ≠ .of '{' :=
      ⟨fun e => hback (e ▸ List.mem_cons_self), fun e => hbrace (e ▸ List.mem_cons_self)⟩
    obtain ⟨hopener, hdangles⟩ := ih (fun h => hbrace (List.mem_cons_of_mem _ h))
      fun h => hback (List.mem_cons_of_mem _ h)
    refine ⟨?_, ?_⟩
    · rw [hasUnescaped_cons hc.1, hopener, Bool.or_false, beq_eq_false_iff_ne]
      exact hc.2
    · rw [dangles_cons hc.1, hdangles]

/-- The first group behind a closed text is looked for behind that text. -/
lemma groupBehind?_append {s : Text} (h : IsClosed s) (r : Text) :
    groupBehind? 0 (s ++ r) =
      (groupBehind? 0 r).map (fun g => { g with lead := s ++ g.lead }) := by
  obtain ⟨hopener, hdangles⟩ := h
  induction s using dangles.induct with
  | case1 => simp
  | case2 => cases hdangles
  | case3 c s ih =>
    rw [List.cons_append, List.cons_append, groupBehind?]
    simp only [if_true, groupBehind?, ih hopener hdangles, Option.map_map]
    rfl
  | case4 c s hlast hback ih =>
    have hc : c ≠ .of '\\' := ne_backslash hlast hback
    rw [hasUnescaped_cons hc, Bool.or_eq_false_iff, beq_eq_false_iff_ne] at hopener
    rw [dangles_cons hc] at hdangles
    rw [List.cons_append, groupBehind?]
    simp only [hc, hopener.1, if_false, ih hopener.2 hdangles, Option.map_map]
    rfl

/-- No group begins without an opening brace. -/
lemma groupBehind?_eq_none {r : Text} (h : .of '{' ∉ r) : ∀ skip, groupBehind? skip r = none := by
  induction r with
  | nil => exact fun _ => rfl
  | cons c r ih =>
    have hc : c ≠ .of '{' := fun e => h (e ▸ List.mem_cons_self)
    have hr := ih fun hmem => h (List.mem_cons_of_mem _ hmem)
    intro skip
    cases skip with
    | zero => simp [groupBehind?, hc, hr]
    | succ skip => simp [groupBehind?, hr]

/-- There is no group in a closed text with no opening brace behind it. -/
lemma firstGroup?_append {s r : Text} (h : IsClosed s) (hr : .of '{' ∉ r) :
    firstGroup? (s ++ r) = none := by
  rw [firstGroup?, groupBehind?_append h, groupBehind?_eq_none hr 0]
  rfl

/-- A pattern without a group is its only alternative. -/
lemma alternativesWithin_of_noGroup {pattern : Text} (h : firstGroup? pattern = none) (fuel : Nat) :
    alternativesWithin fuel pattern = [pattern] := by
  cases fuel with
  | zero => rfl
  | succ n => rw [alternativesWithin, h]

/-- A pattern without a group stands for itself. -/
lemma alternatives_of_noGroup {pattern : Text} (h : firstGroup? pattern = none) :
    alternatives pattern = [pattern] :=
  alternativesWithin_of_noGroup h _

/-! ### Within a group -/

/-- What marks no group is neither a brace nor a comma nor a backslash. -/
lemma isGroupMark_eq_false {c : CodePoint} :
    Merge.isGroupMark c = false ↔ c ≠ .of '{' ∧ c ≠ .of '}' ∧ c ≠ .of ',' ∧ c ≠ .of '\\' := by
  simp [Merge.isGroupMark, and_assoc]

/-- Characters without a meaning in a group go to its first alternative. -/
lemma closeGroup?_append {m : Text} (h : ∀ c ∈ m, Merge.isGroupMark c = false) {rest o : Text}
    {others : List Text} {behind : Text}
    (hrest : closeGroup? 0 rest = some (o :: others, behind)) :
    closeGroup? 0 (m ++ rest) = some ((m ++ o) :: others, behind) := by
  induction m with
  | nil => exact hrest
  | cons c m ih =>
    have hc := isGroupMark_eq_false.1 (h c List.mem_cons_self)
    have ih := ih fun d hd => h d (List.mem_cons_of_mem _ hd)
    rw [List.cons_append, closeGroup?, ih]
    · rfl
    all_goals simp_all

/-- The members of a group are its alternatives. -/
lemma closeGroup?_joinWith {members : List Text} (hne : members ≠ [])
    (h : ∀ m ∈ members, ∀ c ∈ m, Merge.isGroupMark c = false) (behind : Text) :
    closeGroup? 0 (joinWith [.of ','] members ++ .of '}' :: behind) = some (members, behind) := by
  induction members with
  | nil => exact absurd rfl hne
  | cons m members ih =>
    have hm := h m List.mem_cons_self
    cases members with
    | nil => simpa [joinWith] using closeGroup?_append hm (o := []) (by rw [closeGroup?])
    | cons next members =>
      have ih := ih (List.cons_ne_nil _ _) fun m' hm' => h m' (List.mem_cons_of_mem _ hm')
      have hcomma :
          closeGroup? 0 (.of ',' :: (joinWith [.of ','] (next :: members) ++ .of '}' :: behind)) =
            some ([] :: next :: members, behind) := by
        rw [closeGroup?, ih]
        rfl
      simpa [joinWith] using closeGroup?_append hm hcomma

/-- The first group of a pattern with one group, behind a closed text. -/
lemma firstGroup?_braced {lead behind : Text} (hlead : IsClosed lead) {members : List Text}
    (hlen : 2 ≤ members.length) (h : ∀ m ∈ members, ∀ c ∈ m, Merge.isGroupMark c = false) :
    firstGroup? (lead ++ (Merge.braced members ++ behind)) = some ⟨lead, members, behind⟩ := by
  obtain _ | ⟨m, _ | ⟨next, others⟩⟩ := members
  · exact absurd hlen (Nat.not_succ_le_zero 1)
  · exact absurd hlen (Nat.lt_irrefl 1)
  · have hclose := closeGroup?_joinWith (List.cons_ne_nil m (next :: others)) h behind
    have hgroup : groupBehind? 0 (Merge.braced (m :: next :: others) ++ behind) =
        some ⟨[], m :: next :: others, behind⟩ := by
      rw [Merge.braced, List.cons_append, List.append_assoc, List.singleton_append, groupBehind?]
      simp only [if_true, hclose]
      rfl
    rw [firstGroup?, groupBehind?_append hlead, hgroup]
    simp

/-- **A pattern with one group stands for the patterns with a member in place of the group.** -/
theorem mem_alternatives_braced {lead behind : Text} (hlead : IsClosed lead)
    (hbehind : .of '{' ∉ behind) {members : List Text} (hlen : 2 ≤ members.length)
    (h : ∀ m ∈ members, ∀ c ∈ m, Merge.isGroupMark c = false) {a : Text} :
    a ∈ alternatives (lead ++ (Merge.braced members ++ behind)) ↔
      ∃ m ∈ members, a = lead ++ (m ++ behind) := by
  -- there is fuel for one splice at least, and a spliced pattern has no group
  obtain ⟨fuel, hfuel⟩ : ∃ fuel, (lead ++ (Merge.braced members ++ behind)).length = fuel + 1 :=
    Nat.exists_eq_succ_of_ne_zero (by simp [Merge.braced])
  have hspliced : ∀ m ∈ members,
      alternativesWithin fuel (lead ++ m ++ behind) = [lead ++ (m ++ behind)] := by
    intro m hm
    have hopener : .of '{' ∉ m ++ behind := by
      intro hmem
      rcases List.mem_append.1 hmem with hmem | hmem
      · exact absurd (h m hm _ hmem) (by decide)
      · exact hbehind hmem
    rw [List.append_assoc, alternativesWithin_of_noGroup (firstGroup?_append hlead hopener)]
  rw [alternatives, hfuel, alternativesWithin, firstGroup?_braced hlead hlen h]
  simp only [mem_dedupe, List.mem_flatMap]
  constructor
  · rintro ⟨m, hm, ha⟩
    rw [hspliced m hm, List.mem_singleton] at ha
    exact ⟨m, hm, ha⟩
  · rintro ⟨m, hm, rfl⟩
    exact ⟨m, hm, by rw [hspliced m hm]; exact List.mem_singleton_self _⟩

end GlobPreset.Pattern
