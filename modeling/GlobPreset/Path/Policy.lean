import GlobPreset.Text.Fold

/-!
# Case policy

Whether two paths that differ in letter case alone are one path.

## Main definitions

* `CasePolicy` — case counts, or it does not.
* `CasePolicy.key` — what is compared in place of a path.
-/

set_option autoImplicit false

namespace GlobPreset

/-- Whether letter case distinguishes paths. -/
inductive CasePolicy where
  | sensitive
  | insensitive
deriving DecidableEq, Repr

namespace CasePolicy

/-- The policy under which case counts exactly if the flag is set. -/
def ofFlag (caseCounts : Bool) : CasePolicy := if caseCounts then sensitive else insensitive

/-- The text that stands for a path in comparisons. -/
def key : CasePolicy → Text → Text
  | sensitive, path => path
  | insensitive, path => path.fold

/-- Where letter case counts, a path is its own key. -/
@[simp] theorem key_sensitive (path : Text) : sensitive.key path = path := rfl

end CasePolicy

end GlobPreset
