import Worksheet.Key
/-! The names of one reading of a worksheet, each with the key of the last declaration of it. -/
namespace Worksheet

abbrev Scope := SortedMap String Key

namespace Scope

/-- Binds a name, if there is one; a later binding hides an earlier one. -/
def bind (s : Scope) (name : Option String) (key : Key) : Scope :=
  match name with
  | some x => s.insert x key
  | none => s

/-- The keys that names stand for. A name without a declaration is left out. -/
def resolve (s : Scope) (names : List String) : KeySet := KeySet.ofList (names.filterMap s.get?)

end Scope

end Worksheet
