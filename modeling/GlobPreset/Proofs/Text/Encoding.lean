import Mathlib.Data.List.TakeWhile
import GlobPreset.Text.Encoding

/-!
# Texts that UTF-8 has a form for

A text without surrogates can be written as UTF-8 and read back, and no other one can. Where some
surrogates pass, those that do not are in the way. Where bytes pass as surrogates, a text that
spells a scalar value by its bytes is never handed over, for these bytes are read as that value.

## Main definitions

* `Text.IsEncodable` — every code point is a scalar value.
* `Text.isHandedOver` — no scalar value is spelled by its bytes.
* `Text.strayByte` — what stands for the byte E9, for samples.

## Main results

* `Text.IsEncodable.isHandedOver` — a text without surrogates is handed over.
* `Text.encodingError?_eq_none` — a text can be written if all its surrogates pass.
* `Text.encodingError?_strict_eq_none`, `Text.decodingError?_eq_none` — **the texts without
  surrogates are those that can be written, and those that can be read**.
-/

set_option autoImplicit false

namespace GlobPreset.Text

variable {s t : Text}

/-- A text without surrogates. -/
def IsEncodable (t : Text) : Prop := ∀ c ∈ t, c.isSurrogate = false

instance (t : Text) : Decidable t.IsEncodable :=
  inferInstanceAs (Decidable (∀ c ∈ t, c.isSurrogate = false))

/-- No surrogates stand for the bytes of a scalar value. Only such texts are handed over by the
system, which takes any other one for the text with that value. -/
def isHandedOver : Text → Bool
  | [] => true
  | c :: rest =>
    (c.byte?.bind followers?).all (fun ranges =>
      decide ((followed ranges rest).1 < ranges.length)) &&
      isHandedOver rest

/-! ### Parts -/

/-- No character is a surrogate. -/
@[simp] lemma isSurrogate_of (c : Char) : (CodePoint.of c).isSurrogate = false := rfl

/-- The empty text has no surrogates. -/
@[simp] lemma isEncodable_nil : IsEncodable [] := by simp [IsEncodable]

/-- A text has no surrogates if neither its first code point is one nor any other. -/
@[simp] lemma isEncodable_cons {c : CodePoint} :
    IsEncodable (c :: t) ↔ c.isSurrogate = false ∧ IsEncodable t := by
  simp [IsEncodable]

/-- Two texts put together have no surrogates if neither has. -/
@[simp] lemma isEncodable_append : IsEncodable (s ++ t) ↔ IsEncodable s ∧ IsEncodable t := by
  simp [IsEncodable, or_imp, forall_and]

/-- Characters are no surrogates. -/
@[simp] lemma isEncodable_map_of (cs : List Char) : IsEncodable (cs.map .of) := by
  simp [IsEncodable]

/-- A string has no surrogates. -/
lemma isEncodable_toText (s : String) : IsEncodable s.toText := isEncodable_map_of _

/-- Glued pieces have no surrogates if none of them has. -/
lemma isEncodable_joinWith {sep : Text} (hsep : IsEncodable sep) {pieces : List Text} :
    IsEncodable (joinWith sep pieces) ↔ ∀ p ∈ pieces, IsEncodable p := by
  induction pieces using joinWith.induct with
  | case1 => simp [joinWith]
  | case2 piece => simp [joinWith]
  | case3 piece next pieces ih => simp [joinWith, hsep, ih]

/-- A text without surrogates is handed over. -/
lemma IsEncodable.isHandedOver (h : IsEncodable t) : isHandedOver t = true := by
  induction t with
  | nil => rfl
  | cons c t ih =>
    obtain ⟨hc, ht⟩ := isEncodable_cons.1 h
    have hbyte : c.byte? = none := by
      cases c with
      | of c => rfl
      | surrogate place => cases hc
    rw [Text.isHandedOver, hbyte, ih ht]
    rfl

/-- What stands for the byte E9 where no other byte follows it; no text with it is UTF-8. -/
def strayByte : CodePoint := .surrogate ⟨0x4E9, by decide⟩

/-- The bytes C3 A9 are a letter, and the byte A9 alone is none. -/
example : isHandedOver [.surrogate 0x4C3, .surrogate 0x4A9] = false ∧
    isHandedOver [.surrogate 0x4A9] = true := by
  decide

/-! ### Numbers -/

/-- A number has no surrogates. -/
@[simp] lemma isEncodable_ofNat (n : Nat) : IsEncodable (ofNat n) := isEncodable_map_of _

/-- An integer has no surrogates. -/
@[simp] lemma isEncodable_ofInt (n : Int) : IsEncodable (ofInt n) := by
  cases n with
  | ofNat n => exact isEncodable_ofNat n
  | negSucc n => exact isEncodable_cons.2 ⟨rfl, isEncodable_ofNat _⟩

/-- A number with zeros in front has no surrogates. -/
@[simp] lemma isEncodable_paddedNat (width n : Nat) : IsEncodable (paddedNat width n) := by
  refine isEncodable_append.2 ⟨fun c hc => ?_, isEncodable_ofNat n⟩
  rw [List.eq_of_mem_replicate hc]
  rfl

/-! ### Writing and reading -/

/-- **A text can be written** if all its surrogates pass. -/
theorem encodingError?_eq_none {passes : CodePoint → Bool} :
    encodingError? passes t = none ↔ ∀ c ∈ t, c.isSurrogate = true → passes c = true := by
  have hall : (∀ c ∈ t, c.isSurrogate = true → passes c = true) ↔
      t.dropWhile (fun c => !c.isSurrogate || passes c) = [] := by
    simp only [List.dropWhile_eq_nil_iff, Bool.or_eq_true, Bool.not_eq_true', ← Bool.not_eq_true,
      imp_iff_not_or]
  rw [hall, encodingError?]
  split
  · exact iff_of_true rfl ‹_›
  · exact iff_of_false (by simp) ‹_›

/-- **What can be written as UTF-8** is a text without surrogates. -/
theorem encodingError?_strict_eq_none :
    encodingError? (fun _ => false) t = none ↔ IsEncodable t := by
  simp [encodingError?_eq_none, IsEncodable]

/-- **What can be read as UTF-8** is a text without surrogates. -/
theorem decodingError?_eq_none : decodingError? t = none ↔ IsEncodable t := by
  have hall : IsEncodable t ↔ t.dropWhile (fun c => !c.isSurrogate) = [] := by
    simp [IsEncodable, List.dropWhile_eq_nil_iff]
  rw [hall, decodingError?]
  split
  · exact iff_of_true rfl ‹_›
  · rename_i hrest
    refine iff_of_false ?_ (by simp [hrest])
    dsimp only
    split <;> simp

end GlobPreset.Text
