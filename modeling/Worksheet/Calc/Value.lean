import Worksheet.SortedMap
import Worksheet.Text.Shown
/-! Values of the calc language, and environments. -/
namespace Worksheet.Calc

inductive Value
  | int (value : Int64)
  | text (value : String)
  deriving DecidableEq, Repr

namespace Value

/-- The plain form, used where texts are put together. -/
def display : Value → String
  | int n => toString n.toInt
  | text s => s

/-- The form in which a result is shown: texts are quoted. -/
def render : Value → String
  | int n => toString n.toInt
  | text s => String.ofList (Text.shown s.toList)

def kind : Value → String
  | int _ => "int"
  | text _ => "string"

end Value

abbrev Env := SortedMap String Value

end Worksheet.Calc
