import GlobPreset.Text.Basic
import GlobPreset.Text.Visible

/-!
# Quoted texts

How a path or a pattern is shown inside a message: between quotes, with every character that has
no visible form written as an escape.

## Main definitions

* `Text.quote` — the quoted form. Single quotes are used unless the text holds one and holds no
  double quote.
* `Text.quoteList` — several quoted texts between brackets.
-/

set_option autoImplicit false

namespace GlobPreset.Text

/-- The last `width` hexadecimal digits of a number, in lower case. -/
def hexDigits (width n : Nat) : Text :=
  let digits : Text := (Nat.toDigits 16 n).map .of
  List.replicate (width - digits.length) (.of '0') ++ digits

/-- One character of a quoted text. -/
def quoteChar (mark c : CodePoint) : Text :=
  if c = mark || c = .of '\\' then [.of '\\', c]
  else if c = .of '\n' then [.of '\\', .of 'n']
  else if c = .of '\r' then [.of '\\', .of 'r']
  else if c = .of '\t' then [.of '\\', .of 't']
  else if isVisible c then [c]
  else if c.toNat < 0x100 then .of '\\' :: .of 'x' :: hexDigits 2 c.toNat
  else if c.toNat < 0x10000 then .of '\\' :: .of 'u' :: hexDigits 4 c.toNat
  else .of '\\' :: .of 'U' :: hexDigits 8 c.toNat

/-- The quotation mark of a text. -/
def quoteMark (t : Text) : CodePoint :=
  if t.contains (.of '\'') && !t.contains (.of '"') then .of '"' else .of '\''

/-- A text between quotation marks. -/
def quote (t : Text) : Text :=
  quoteMark t :: (t.flatMap (quoteChar (quoteMark t)) ++ [quoteMark t])

/-- Quoted texts between brackets, separated by a comma and a space. -/
def quoteList (ts : List Text) : Text :=
  .of '[' :: (joinWith [.of ',', .of ' '] (ts.map quote) ++ [.of ']'])

end GlobPreset.Text
