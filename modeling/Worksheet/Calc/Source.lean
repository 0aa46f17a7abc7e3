import Worksheet.Calc.Parser
import Worksheet.Text.Blank
/-! The items of a file. An item starts on a line without leading white space and goes on over the
indented and the blank lines after it; a line whose first visible character is `#` is a comment.
An indented line with no item before it starts one too. -/
namespace Worksheet.Calc

def isComment (line : List Char) : Bool := (Text.trimStart line).head? = some '#'

def isBlankLine (line : List Char) : Bool := line.all Text.isBlank

def isIndented (line : List Char) : Bool := (line.head?.map Text.isBlank).getD false

def continues (line : List Char) : Bool := isBlankLine line || isIndented line

/-- Groups lines into blocks. Each block is its first line with the lines that go on with it. -/
def blocks : List (List Char) → List (List (List Char))
  | [] => []
  | line :: rest =>
    (line :: rest.takeWhile continues) :: blocks (rest.dropWhile continues)
termination_by lines => lines.length
decreasing_by
  have := (List.dropWhile_sublist continues (l := rest)).length_le
  simp only [List.length_cons]
  omega

/-- The lines of a text that belong to items: no comments, and no blank lines before the first
other line. -/
def itemLines (text : List Char) : List (List Char) :=
  ((Text.lines text).filter fun line => !isComment line).dropWhile isBlankLine

def splitItems (text : List Char) : List (List Char) :=
  (blocks (itemLines text)).map fun block => Text.trimEnd (Text.join ['\n'] block)

structure Decl where
  source : String
  item : Item
  deriving Repr

namespace Decl

def free (d : Decl) : List String := d.item.expr.freeVars

def bound (d : Decl) : Option String := d.item.name

end Decl

/-- One item of a file: a declaration, or a text that cannot be read as one. -/
inductive Section
  | decl (decl : Decl)
  | broken (source : String) (error : ParseError)
  deriving Repr

namespace Section

def source : Section → String
  | decl d => d.source
  | broken source _ => source

def ofSource (source : String) : Section :=
  match Item.parse source with
  | .ok item => .decl ⟨source, item⟩
  | .error e => .broken source e

end Section

def parse (text : String) : List Section :=
  (splitItems text.toList).map fun source => Section.ofSource (String.ofList source)

end Worksheet.Calc
