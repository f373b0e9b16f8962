import GlobPreset.Proofs.Emit.Rearranged

/-!
# The outermost directories are kept

Directory patterns are gone through from the top of the tree to its bottom, and one is left out if a
directory that is kept already covers it. What comes of it can be said without the order: the
directories that are kept are those that no directory among the patterns leads to. So the stored
list of directory patterns and literal patterns is known in closed form.

## Main definitions

* `IgnoreRules.LeadsTo` — a directory lies below another one, past no ignored name.
* `Eliminate.IsSparse` — the state between two directory patterns.

## Main results

* `Eliminate.IsSparse.keepGlob` — what one directory pattern keeps of the state.
* `Eliminate.mem_keptDirectories_iff` — **the kept directories are the outermost ones**.
* `emit_eq_outermost` — **the stored list** of directory patterns and literal patterns.

## Design

A directory that is left out may itself lead to others. That does no harm, for leading is
transitive: what leads to it leads to them as well. An ignored name cuts the way, so neither the
nearest directory above nor the one at the top decides alone.
-/

set_option autoImplicit false

namespace GlobPreset

open GlobPreset.Path Text

/-- A path gets deeper as it goes on. -/
lemma Path.depth_lt_depth_append (d rest : Text) : depth d < depth (d ++ .of '/' :: rest) := by
  have hpos := List.length_pos_of_ne_nil (segments_ne_nil rest)
  have hlong : depth (d ++ .of '/' :: rest) = (segments d).length + (segments rest).length := by
    simp [depth, segments_append_slash]
  have hshort : depth d ≤ (segments d).length := by
    unfold depth
    split
    · exact Nat.zero_le _
    · exact le_rfl
  omega

/-! ### Ways between directories -/

/-- The directory lies below another one, and no name on the way is that of an ignored directory. -/
def IgnoreRules.LeadsTo (ignore : IgnoreRules) (above d : Text) : Prop :=
  ∃ part, d = above ++ .of '/' :: part ∧ ∀ name ∈ segments part,
    ignore.ignoresDirectory name = false

namespace IgnoreRules.LeadsTo

variable {ignore : IgnoreRules} {a b c : Text}

/-- Leading on is transitive. -/
lemma trans (h : ignore.LeadsTo a b) (h' : ignore.LeadsTo b c) : ignore.LeadsTo a c := by
  obtain ⟨part, rfl, hpart⟩ := h
  obtain ⟨more, rfl, hmore⟩ := h'
  refine ⟨part ++ .of '/' :: more, by simp, fun name hname => ?_⟩
  rw [segments_append_slash, List.mem_append] at hname
  exact hname.elim (hpart name) (hmore name)

/-- A directory is less deep than what it leads to. -/
lemma depth_lt (h : ignore.LeadsTo a b) : depth a < depth b := by
  obtain ⟨part, rfl, -⟩ := h
  exact depth_lt_depth_append a part

end IgnoreRules.LeadsTo

namespace Eliminate

variable {ignore : IgnoreRules} {patterns : List Text}

/-- A kept directory covers those that it leads to. -/
lemma Kept.covers_iff_leadsTo {k : Kept} (hk : k.policy = .sensitive) {d : Text} (hd : IsPlain d) :
    k.covers d false = true ↔ ∃ a ∈ k.directories, k.ignore.LeadsTo a d := by
  rw [covers_iff (discerns_of_sensitive hk d)]
  refine exists_congr fun a => and_congr_right fun _ => exists_congr fun part =>
    and_congr_right fun hpart => ?_
  have hne : part ≠ [] := by
    rintro rfl
    have hnil : [] ∈ segments d := by
      rw [hpart, segments_append_slash]
      exact List.mem_append_right _ List.mem_cons_self
    exact absurd rfl (hd [] hnil).ne_nil
  rw [IgnoreRules.crosses_of_directory _ hne, List.any_eq_false]
  simp

/-! ### Going through the patterns -/

/-- No directory is kept twice or leads to another one that is kept, and the kept patterns are those
of kept directories. -/
structure IsSparse (acc : Kept × List Text) : Prop where
  /-- No directory is kept twice. -/
  nodup : acc.1.directories.Nodup
  /-- No kept directory leads to another one. -/
  apart : ∀ a ∈ acc.1.directories, ∀ d ∈ acc.1.directories, ¬ acc.1.ignore.LeadsTo a d
  /-- A kept pattern is that of a kept directory. -/
  pattern : ∀ p ∈ acc.2, ∃ d ∈ acc.1.directories, Pattern.recursiveDirectory? p = some d

/-- **One directory pattern keeps the state sparse**, if no kept directory is deeper. -/
lemma IsSparse.keepGlob {acc : Kept × List Text} (h : IsSparse acc)
    (hpol : acc.1.policy = .sensitive) {g : DirectoryGlob} (hplain : IsPlain g.1)
    (hrec : Pattern.recursiveDirectory? g.2 = some g.1)
    (hdepth : ∀ a ∈ acc.1.directories, depth a ≤ depth g.1) : IsSparse (keepGlob acc g) := by
  unfold Eliminate.keepGlob
  split
  · exact h
  · rename_i hnew
    rw [Bool.or_eq_true, not_or, Kept.covers_iff_leadsTo hpol hplain,
      Kept.holds_iff (Kept.discerns_of_sensitive hpol _)] at hnew
    obtain ⟨hreached, hheld⟩ := hnew
    constructor
    · exact List.nodup_append_comm.1 (List.nodup_cons.2 ⟨hheld, h.nodup⟩)
    · intro a ha d hd hleads
      rcases List.mem_append.1 hd with hd | hd
      · rcases List.mem_append.1 ha with ha | ha
        · exact h.apart a ha d hd hleads
        · -- the new directory is no less deep than those that are kept already
          obtain rfl := List.mem_singleton.1 ha
          exact absurd hleads.depth_lt (Nat.not_lt.2 (hdepth d hd))
      · obtain rfl := List.mem_singleton.1 hd
        rcases List.mem_append.1 ha with ha | ha
        · exact hreached ⟨a, ha, hleads⟩
        · obtain rfl := List.mem_singleton.1 ha
          exact absurd hleads.depth_lt (lt_irrefl _)
    · intro p hp
      rcases List.mem_append.1 hp with hp | hp
      · obtain ⟨d, hd, hpd⟩ := h.pattern p hp
        exact ⟨d, List.mem_append_left _ hd, hpd⟩
      · obtain rfl := List.mem_singleton.1 hp
        exact ⟨g.1, List.mem_append_right _ (List.mem_singleton_self _), hrec⟩

/-- The state stays sparse from the shallowest directory pattern to the deepest. -/
lemma isSparse_foldl_keepGlob {globs : List DirectoryGlob}
    (hglobs : ∀ g ∈ globs, IsPlain g.1 ∧ Pattern.recursiveDirectory? g.2 = some g.1)
    (hsorted : globs.Pairwise fun g h => depth g.1 ≤ depth h.1) :
    ∀ {acc : Kept × List Text}, acc.1.policy = .sensitive → IsSparse acc →
      (∀ a ∈ acc.1.directories, ∀ g ∈ globs, depth a ≤ depth g.1) →
      IsSparse (globs.foldl keepGlob acc) := by
  induction globs with
  | nil => exact fun _ h _ => h
  | cons g globs ih =>
    intro acc hpol h hdepth
    obtain ⟨hfirst, hrest⟩ := List.pairwise_cons.1 hsorted
    obtain ⟨hplain, hrec⟩ := hglobs g List.mem_cons_self
    have hpol' : (keepGlob acc g).1.policy = .sensitive := by
      unfold keepGlob
      split <;> exact hpol
    refine ih (fun g' hg' => hglobs g' (List.mem_cons_of_mem _ hg')) hrest hpol'
      (h.keepGlob hpol hplain hrec fun a ha => hdepth a ha g List.mem_cons_self) ?_
    intro a ha g' hg'
    unfold keepGlob at ha
    split at ha
    · exact hdepth a ha g' (List.mem_cons_of_mem _ hg')
    · rcases List.mem_append.1 ha with ha | ha
      · exact hdepth a ha g' (List.mem_cons_of_mem _ hg')
      · obtain rfl := List.mem_singleton.1 ha
        exact hfirst g' hg'

/-! ### Kept directories -/

/-- The directories of the directory patterns are plain paths. -/
def HavePlainDirectories (patterns : List Text) : Prop :=
  ∀ p ∈ patterns, ∀ d, Pattern.recursiveDirectory? p = some d → IsPlain d

/-- What is kept is sparse. -/
lemma isSparse_keptDirectories (hplain : HavePlainDirectories patterns) :
    IsSparse (keptDirectories ignore .sensitive patterns) := by
  refine isSparse_foldl_keepGlob (fun g hg => ?_) ?_ rfl
    ⟨List.nodup_nil, by simp, by simp⟩ (by simp)
  · obtain ⟨hp, hrec⟩ := mem_directoryGlobs.1 hg
    exact ⟨hplain _ hp _ hrec, hrec⟩
  · have hlinear := isLinear_shallowerFirst
    exact (sortBy_pairwise (fun a b => hlinear.total a.1 b.1)
      (fun a b c => hlinear.trans a.1 b.1 c.1) _).imp depth_le_of_shallowerFirst

/-- **The kept directories are the outermost ones**: those of directory patterns that the directory
of no directory pattern leads to.

**Proof sketch.** Every directory of a pattern is kept, or a kept one leads to it. So if some
directory of a pattern leads to a kept one, then a kept one does; but none of them leads to
another. -/
theorem mem_keptDirectories_iff (hplain : HavePlainDirectories patterns) {d : Text} :
    d ∈ (keptDirectories ignore .sensitive patterns).1.directories ↔
      (∃ p ∈ patterns, Pattern.recursiveDirectory? p = some d) ∧
        ∀ p ∈ patterns, ∀ a, Pattern.recursiveDirectory? p = some a → ¬ ignore.LeadsTo a d := by
  obtain ⟨hpol, hign, hkept, hall⟩ := keptDirectories_spec ignore .sensitive patterns
  have hsparse : IsSparse (keptDirectories ignore .sensitive patterns) :=
    isSparse_keptDirectories hplain
  generalize keptDirectories ignore .sensitive patterns = kept at *
  have hreached : ∀ p ∈ patterns, ∀ a, Pattern.recursiveDirectory? p = some a →
      a ∈ kept.1.directories ∨ ∃ b ∈ kept.1.directories, ignore.LeadsTo b a := by
    intro p hp a hrec
    have hcovered := hall p hp a hrec
    rw [Bool.or_eq_true, Kept.covers_iff_leadsTo hpol (hplain p hp a hrec),
      Kept.holds_iff (Kept.discerns_of_sensitive hpol a), hign] at hcovered
    exact hcovered.symm
  have hapart := hsparse.apart
  rw [hign] at hapart
  constructor
  · intro hd
    obtain ⟨p, -, hp, hrec⟩ := hkept d hd
    refine ⟨⟨p, hp, hrec⟩, fun q hq a hrec' hleads => ?_⟩
    rcases hreached q hq a hrec' with ha | ⟨b, hb, hleads'⟩
    · exact hapart a ha d hd hleads
    · exact hapart b hb d hd (hleads'.trans hleads)
  · rintro ⟨⟨p, hp, hrec⟩, hnone⟩
    rcases hreached p hp d hrec with hd | ⟨b, hb, hleads⟩
    · exact hd
    · obtain ⟨q, -, hq, hrec'⟩ := hkept b hb
      exact absurd hleads (hnone q hq b hrec')

/-- A directory pattern is kept together with its directory, if no other pattern has that
directory. -/
lemma mem_keptPatterns_iff (hplain : HavePlainDirectories patterns) (hapart : IsApart patterns)
    {p d : Text} (hp : p ∈ patterns) (hrec : Pattern.recursiveDirectory? p = some d) :
    p ∈ (keptDirectories ignore .sensitive patterns).2 ↔
      d ∈ (keptDirectories ignore .sensitive patterns).1.directories := by
  constructor
  · intro hkept
    obtain ⟨d', hd', hrec'⟩ := (isSparse_keptDirectories hplain).pattern p hkept
    rw [hrec, Option.some_inj] at hrec'
    exact hrec' ▸ hd'
  · intro hd
    obtain ⟨q, hq, hqp, hrec'⟩ := (keptDirectories_spec ignore .sensitive patterns).2.2.1 d hd
    exact hapart q hqp p hp d hrec' hrec ▸ hq

end Eliminate

/-! ### Groups -/

namespace Emit

/-- Directory patterns stand in the first group. -/
lemma groupOf_tree {d : Text} (hd : IsTame d) : groupOf (Glob.tree d).text = 0 := by
  have hproper : (Glob.tree d).IsProper := hd
  have hend : endsWith (Glob.tree d).text Pattern.recursiveTail = true :=
    endsWith_iff.2 (List.suffix_append _ _)
  simp [groupOf, hproper.isExcluded_text, hend]

/-- Literal patterns stand in the third group. -/
lemma groupOf_file {f : Text} (hf : IsOrdinary f) : groupOf (Glob.file f).text = 2 := by
  have hproper : (Glob.file f).IsProper := hf
  have hmagic : Pattern.hasMagic (Glob.file f).text = false := by
    rw [Glob.text_file, (Pattern.spells_escapeLiteral f).hasMagic_eq]
  simp [groupOf, hproper.isExcluded_text, Glob.endsWith_text_file, hmagic]

/-- Within one group, patterns are in order of code points. -/
lemma pairwise_precedes_sort {patterns : List Text} {n : Nat}
    (h : ∀ p ∈ patterns, groupOf p = n) :
    (sort patterns).Pairwise fun p q => precedes p q = true := by
  refine (sort_pairwise patterns).imp_of_mem fun {p q} hp hq hle => ?_
  simp [precedes, h p (mem_sort.1 hp), h q (mem_sort.1 hq), hle]

/-- **Patterns of two groups** are stored group by group. -/
lemma order_eq_append {patterns first second : List Text} (h : patterns.Perm (first ++ second))
    {m n : Nat} (hmn : m < n) (hfirst : ∀ p ∈ first, groupOf p = m)
    (hsecond : ∀ p ∈ second, groupOf p = n) : order patterns = sort first ++ sort second := by
  refine List.Perm.eq_of_pairwise (fun p q _ _ => isLinear_precedes.antisymm p q)
    (isLinear_precedes.pairwise patterns) ?_ ((sortBy_perm precedes patterns).trans ?_)
  · refine List.pairwise_append.2 ⟨pairwise_precedes_sort hfirst, pairwise_precedes_sort hsecond,
      fun p hp q hq => ?_⟩
    simp [precedes, hfirst p (mem_sort.1 hp), hsecond q (mem_sort.1 hq), hmn]
  · exact h.trans ((sortBy_perm le first).symm.append (sortBy_perm le second).symm)

end Emit

/-! ### Directories and files -/

section Emitting

variable {ignore : IgnoreRules} {files patterns : List Text} {isDirectory : Text → Prop}

/-- The patterns are those of some directories and files. -/
structure Emit.IsListing (patterns : List Text) (isDirectory : Text → Prop) (files : List Text) :
    Prop where
  /-- Every pattern is that of a directory or of a file, and each has its pattern. -/
  mem_iff : ∀ p, p ∈ patterns ↔
    (∃ d, isDirectory d ∧ p = (Glob.tree d).text) ∨ ∃ f ∈ files, p = (Glob.file f).text
  /-- The directories are tame. -/
  tame : ∀ d, isDirectory d → IsTame d
  /-- The files are ordinary. -/
  ordinary : ∀ f ∈ files, IsOrdinary f

namespace Emit.IsListing

/-- Every pattern of a listing is proper. -/
lemma exists_glob (h : IsListing patterns isDirectory files) {p : Text} (hp : p ∈ patterns) :
    ∃ g : Glob, g.IsProper ∧ p = g.text := by
  rcases (h.mem_iff p).1 hp with ⟨d, hd, rfl⟩ | ⟨f, hf, rfl⟩
  · exact ⟨.tree d, h.tame d hd, rfl⟩
  · exact ⟨.file f, h.ordinary f hf, rfl⟩

/-- The directory patterns of a listing are those of its directories. -/
lemma recursiveDirectory?_iff (h : IsListing patterns isDirectory files) {p d : Text} :
    p ∈ patterns ∧ Pattern.recursiveDirectory? p = some d ↔
      isDirectory d ∧ p = (Glob.tree d).text := by
  constructor
  · rintro ⟨hp, hrec⟩
    rcases (h.mem_iff p).1 hp with ⟨d', hd', rfl⟩ | ⟨f, hf, rfl⟩
    · have hproper : (Glob.tree d').IsProper := h.tame d' hd'
      rw [hproper.recursiveDirectory?_text] at hrec
      cases hrec
      exact ⟨hd', rfl⟩
    · have hproper : (Glob.file f).IsProper := h.ordinary f hf
      rw [hproper.recursiveDirectory?_text] at hrec
      cases hrec
  · rintro ⟨hd, rfl⟩
    have hproper : (Glob.tree d).IsProper := h.tame d hd
    exact ⟨(h.mem_iff _).2 (.inl ⟨d, hd, rfl⟩), hproper.recursiveDirectory?_text⟩

/-- The directories of a listing have plain paths. -/
lemma havePlainDirectories (h : IsListing patterns isDirectory files) :
    Eliminate.HavePlainDirectories patterns := fun _ hp d hrec =>
  (h.tame d (h.recursiveDirectory?_iff.1 ⟨hp, hrec⟩).1).areNames

/-- The files and directories of a listing are apart. -/
lemma isApart (h : IsListing patterns isDirectory files) : Eliminate.IsApart patterns := by
  intro p hp q hq d hpd hqd
  rw [(h.recursiveDirectory?_iff.1 ⟨hp, hpd⟩).2, (h.recursiveDirectory?_iff.1 ⟨hq, hqd⟩).2]

/-- The directories of a listing that are kept. -/
lemma mem_keptDirectories_iff (h : IsListing patterns isDirectory files) {d : Text} :
    d ∈ (Eliminate.keptDirectories ignore .sensitive patterns).1.directories ↔
      isDirectory d ∧ ∀ a, isDirectory a → ¬ ignore.LeadsTo a d := by
  rw [Eliminate.mem_keptDirectories_iff h.havePlainDirectories]
  refine and_congr ⟨fun ⟨p, hp, hrec⟩ => (h.recursiveDirectory?_iff.1 ⟨hp, hrec⟩).1, fun hd =>
    ⟨_, h.recursiveDirectory?_iff.2 ⟨hd, rfl⟩⟩⟩ ⟨fun hnone a ha => ?_, fun hnone p hp a hrec => ?_⟩
  · obtain ⟨hp, hrec⟩ := h.recursiveDirectory?_iff.2 ⟨ha, rfl⟩
    exact hnone _ hp a hrec
  · exact hnone a (h.recursiveDirectory?_iff.1 ⟨hp, hrec⟩).1

/-- The pattern of a file is left out if the file lies below a kept directory, past no ignored
name. -/
lemma coversPattern_file {k : Eliminate.Kept} (hk : k.policy = .sensitive) {f : Text}
    (hf : IsOrdinary f) : k.coversPattern (Glob.file f).text = true ↔
      ∃ d ∈ k.directories, ∃ part, f = d ++ .of '/' :: part ∧
        k.ignore.crosses part true = false := by
  have hproper : (Glob.file f).IsProper := hf
  have htext : Pattern.unescape (Glob.file f).text = f := by
    rw [Glob.text_file, (Pattern.spells_escapeLiteral f).unescape_eq]
  rw [Eliminate.Kept.coversPattern, hproper.alternatives_text, List.all_cons, List.all_nil,
    Bool.and_true, Eliminate.Kept.coversAlternative, Glob.hasWildcard_text, Glob.isFile, htext]
  exact Eliminate.Kept.covers_iff (Eliminate.Kept.discerns_of_sensitive hk f)

/-- **What is left of a listing** without redundant patterns: the patterns of the directories that
are kept and those of all files, if no directory reaches one of the files. -/
lemma mem_eliminateRedundant_iff (h : IsListing patterns isDirectory files)
    (hfree : ∀ d, isDirectory d → ∀ f ∈ files, ∀ part, f = d ++ .of '/' :: part →
      ignore.crosses part true = true) {p : Text} :
    p ∈ eliminateRedundant ignore .sensitive patterns ↔
      (∃ d ∈ (Eliminate.keptDirectories ignore .sensitive patterns).1.directories,
        p = (Glob.tree d).text) ∨ ∃ f ∈ files, p = (Glob.file f).text := by
  obtain ⟨hpol, hign, -, -⟩ := Eliminate.keptDirectories_spec ignore .sensitive patterns
  have hkeeps : ∀ {d}, isDirectory d →
      ((Glob.tree d).text ∈ (Eliminate.keptDirectories ignore .sensitive patterns).2 ↔
        d ∈ (Eliminate.keptDirectories ignore .sensitive patterns).1.directories) := by
    intro d hd
    obtain ⟨hp, hrec⟩ := h.recursiveDirectory?_iff.2 ⟨hd, rfl⟩
    exact Eliminate.mem_keptPatterns_iff h.havePlainDirectories h.isApart hp hrec
  rw [mem_eliminateRedundant]
  constructor
  · rintro ⟨hp, hleft⟩
    refine ((h.mem_iff p).1 hp).imp_left fun ⟨d, hd, hpd⟩ => ⟨d, (hkeeps hd).1 ?_, hpd⟩
    have hrec := (h.recursiveDirectory?_iff.2 ⟨hd, rfl⟩).2
    rw [hpd, hrec] at hleft
    simpa using hleft
  · rintro (⟨d, hd, rfl⟩ | ⟨f, hf, rfl⟩)
    · have hdir := (h.mem_keptDirectories_iff.1 hd).1
      obtain ⟨hp, hrec⟩ := h.recursiveDirectory?_iff.2 ⟨hdir, rfl⟩
      refine ⟨hp, ?_⟩
      rw [hrec]
      simpa using (hkeeps hdir).2 hd
    · have hproper : (Glob.file f).IsProper := h.ordinary f hf
      have hrec : Pattern.recursiveDirectory? (Glob.file f).text = none :=
        hproper.recursiveDirectory?_text
      refine ⟨(h.mem_iff _).2 (.inr ⟨f, hf, rfl⟩), ?_⟩
      rw [hrec, Option.isSome_none, if_neg Bool.false_ne_true, Bool.not_eq_true', Bool.eq_false_iff,
        ne_eq, coversPattern_file hpol (h.ordinary f hf), hign]
      rintro ⟨d, hd, part, hpart, hcross⟩
      have hblocked := hfree d (h.mem_keptDirectories_iff.1 hd).1 f hf part hpart
      rw [hcross] at hblocked
      cases hblocked

/-- The patterns of different directories and files are different. -/
lemma nodup_texts (hfiles : ∀ f ∈ files, IsOrdinary f) (hnodup : files.Nodup) {dirs : List Text}
    (htame : ∀ d ∈ dirs, IsTame d) (hdirs : dirs.Nodup) :
    (dirs.map (fun d => (Glob.tree d).text) ++ files.map fun f => (Glob.file f).text).Nodup := by
  have htree : ∀ d ∈ dirs, Pattern.recursiveDirectory? (Glob.tree d).text = some d := fun d hd =>
    Glob.IsProper.recursiveDirectory?_text (g := .tree d) (htame d hd)
  have hfile : ∀ f ∈ files, Pattern.recursiveDirectory? (Glob.file f).text = none := fun f hf =>
    Glob.IsProper.recursiveDirectory?_text (g := .file f) (hfiles f hf)
  refine List.Nodup.append (hdirs.map_on fun d hd d' hd' heq => ?_)
    (hnodup.map_on fun f hf f' hf' heq => ?_) fun p hp hp' => ?_
  · have hsome := htree d hd
    rw [heq, htree d' hd'] at hsome
    exact (Option.some.inj hsome).symm
  · rw [Glob.text_file, Glob.text_file] at heq
    rw [← (Pattern.spells_escapeLiteral f).unescape_eq, heq,
      (Pattern.spells_escapeLiteral f').unescape_eq]
  · obtain ⟨d, hd, rfl⟩ := List.mem_map.1 hp
    obtain ⟨f, hf, heq⟩ := List.mem_map.1 hp'
    have hsome := htree d hd
    rw [← heq, hfile f hf] at hsome
    cases hsome

end Emit.IsListing

/-- **The stored list** of directory patterns and literal patterns: the patterns of the outermost
directories in order, and then those of the files in order, if no directory reaches one of the
files.

**Proof sketch.** No pattern is an exclusion, and nothing is merged. What is left without redundant
patterns are the patterns of the kept directories and of the files, each once; they stand in two
groups. -/
theorem emit_eq_outermost (h : Emit.IsListing patterns isDirectory files) (hnodup : files.Nodup)
    (hfree : ∀ d, isDirectory d → ∀ f ∈ files, ∀ part, f = d ++ .of '/' :: part →
      ignore.crosses part true = true) :
    ∃ dirs : List Text, dirs.Nodup ∧
      (∀ d, d ∈ dirs ↔ isDirectory d ∧ ∀ a, isDirectory a → ¬ ignore.LeadsTo a d) ∧
      (emit false ignore .sensitive patterns).patterns =
        sort (dirs.map fun d => (Glob.tree d).text) ++
          sort (files.map fun f => (Glob.file f).text) := by
  have hunmarked : ∀ p ∈ dedupe patterns, isExcluded p = false := by
    intro p hp
    obtain ⟨g, hg, rfl⟩ := h.exists_glob (mem_dedupe.1 hp)
    exact hg.isExcluded_text
  have hincludes : (dedupe patterns).filter (fun p => !isExcluded p) = dedupe patterns :=
    List.filter_eq_self.2 fun p hp => by simp [hunmarked p hp]
  have hexcludes : (dedupe patterns).filter isExcluded = [] :=
    List.filter_eq_nil_iff.2 fun p hp => by simp [hunmarked p hp]
  have hunique : Emit.IsListing (dedupe patterns) isDirectory files :=
    ⟨fun p => mem_dedupe.trans (h.mem_iff p), h.tame, h.ordinary⟩
  have hplain := hunique.havePlainDirectories
  have htame : ∀ d ∈ (Eliminate.keptDirectories ignore .sensitive (dedupe patterns)).1.directories,
      IsTame d := fun d hd => h.tame d (hunique.mem_keptDirectories_iff.1 hd).1
  have hsparse : Eliminate.IsSparse
      (Eliminate.keptDirectories ignore .sensitive (dedupe patterns)) :=
    Eliminate.isSparse_keptDirectories hplain
  refine ⟨_, hsparse.nodup, fun d => hunique.mem_keptDirectories_iff, ?_⟩
  show Emit.order (eliminateRedundant ignore .sensitive
    ((dedupe patterns).filter fun p => !isExcluded p) ++ (dedupe patterns).filter isExcluded) = _
  rw [hincludes, hexcludes, List.append_nil]
  refine Emit.order_eq_append ?_ (show 0 < 2 by decide) ?_ ?_
  · refine (List.perm_ext_iff_of_nodup ((nodup_dedupe patterns).filter _)
      (Emit.IsListing.nodup_texts h.ordinary hnodup htame hsparse.nodup)).2 fun p => ?_
    rw [show p ∈ List.filter _ _ ↔ _ from hunique.mem_eliminateRedundant_iff hfree]
    simp only [List.mem_append, List.mem_map, eq_comm]
  · intro p hp
    obtain ⟨d, hd, rfl⟩ := List.mem_map.1 hp
    exact Emit.groupOf_tree (htame d hd)
  · intro p hp
    obtain ⟨f, hf, rfl⟩ := List.mem_map.1 hp
    exact Emit.groupOf_file (h.ordinary f hf)

end Emitting

end GlobPreset
