/-!
# Code points

The characters of a text: the Unicode scalar values, and the surrogates that stand alone. A text
may hold the latter although no encoding has a form for them. Above all, a name or a content that
is not UTF-8 is handed over with each of its odd bytes as a surrogate, from U+DC80 for the byte 80
to U+DCFF for the byte FF.

## Main definitions

* `CodePoint` — a scalar value, or a surrogate by its place among the surrogates.
* `CodePoint.toNat` — the number of a code point; code points are ordered by it.
* `CodePoint.isByte` — the surrogate stands for a byte.

## Main results

* `CodePoint.toNat_injective` — a code point is determined by its number.
-/

set_option autoImplicit false

namespace GlobPreset

/-- A character of a text. -/
inductive CodePoint where
  /-- A Unicode scalar value. -/
  | of (c : Char)
  /-- A surrogate that stands alone: U+D800 and so many further. -/
  | surrogate (place : Fin 0x800)
deriving DecidableEq, Repr

namespace CodePoint

/-! ### Numbers -/

/-- The number of a code point. -/
def toNat : CodePoint → Nat
  | of c => c.toNat
  | surrogate place => 0xD800 + place

/-- The scalar value of a number. -/
def ofNat (n : Nat) : CodePoint := of (Char.ofNat n)

/-- The number of a scalar value. -/
@[simp] theorem toNat_of (c : Char) : (of c).toNat = c.toNat := rfl

/-- Scalar values have other numbers than surrogates. -/
theorem toNat_of_ne_surrogate (c : Char) (place : Fin 0x800) :
    c.toNat ≠ 0xD800 + place := by
  have hvalid : c.toNat < 0xD800 ∨ 0xDFFF < c.toNat ∧ c.toNat < 0x110000 := c.valid
  omega

/-- A code point is determined by its number. -/
theorem toNat_injective {c d : CodePoint} (h : c.toNat = d.toNat) : c = d := by
  cases c with
  | of c =>
    cases d with
    | of d => exact congrArg of (Char.ext (UInt32.toNat.inj h))
    | surrogate place => exact absurd h (toNat_of_ne_surrogate c place)
  | surrogate place =>
    cases d with
    | of d => exact absurd h.symm (toNat_of_ne_surrogate d place)
    | surrogate place' => exact congrArg surrogate (Fin.ext (Nat.add_left_cancel h))

/-! ### Order -/

instance : LT CodePoint := ⟨fun c d => c.toNat < d.toNat⟩

instance : LE CodePoint := ⟨fun c d => c.toNat ≤ d.toNat⟩

instance (c d : CodePoint) : Decidable (c < d) := inferInstanceAs (Decidable (c.toNat < d.toNat))

instance (c d : CodePoint) : Decidable (c ≤ d) := inferInstanceAs (Decidable (c.toNat ≤ d.toNat))

/-- Scalar values are ordered as characters are. -/
@[simp] theorem of_le_of (c d : Char) : of c ≤ of d ↔ c ≤ d := .rfl

/-- No code point is before itself. -/
@[simp] theorem lt_irrefl (c : CodePoint) : ¬ c < c := Nat.lt_irrefl c.toNat

/-- Any two code points compare. -/
theorem lt_trichotomy (c d : CodePoint) : c < d ∨ c = d ∨ d < c :=
  (Nat.lt_trichotomy c.toNat d.toNat).imp_right (Or.imp_left toNat_injective)

/-! ### Classes -/

/-- A letter or a digit of ASCII. -/
def isAlphanum : CodePoint → Bool
  | of c => c.isAlphanum
  | surrogate _ => false

/-- A surrogate that stands alone. -/
def isSurrogate : CodePoint → Bool
  | of _ => false
  | surrogate _ => true

/-- A surrogate that stands for a byte. -/
def isByte : CodePoint → Bool
  | of _ => false
  | surrogate place => 0x480 ≤ place.val && place.val < 0x500

/-- The byte that a surrogate stands for. -/
def byte? : CodePoint → Option Nat
  | of _ => none
  | surrogate place => some (place - 0x400)

/-- The number of bytes of a code point in UTF-8; a surrogate can only stand for one byte. -/
def byteCount : CodePoint → Nat
  | of c => c.utf8Size
  | surrogate _ => 1

end CodePoint

end GlobPreset

/-- The text of a string. -/
@[simp] def String.toText (s : String) : List GlobPreset.CodePoint := s.toList.map .of
