import Worksheet.Json.Quoted
/-! JSON values, and their two written forms. -/
namespace Worksheet.Json

inductive Tree
  | null
  | whole (value : Nat)
  | string (value : String)
  | array (elements : List Tree)
  | object (members : List (String × Tree))
  deriving Repr

/-- How a value is laid out: on one line without any white space, or with a line for each element
and each member, two spaces further in than the line that opens their array or object. -/
inductive Layout
  | compact
  | pretty
  deriving DecidableEq, Repr

namespace Layout

/-- What stands before an element at the given depth, and before a closing mark. -/
def gap (depth : Nat) : Layout → List Char
  | compact => []
  | pretty => '\n' :: List.replicate (2 * depth) ' '

def colon : Layout → List Char
  | compact => [':']
  | pretty => [':', ' ']

end Layout

namespace Tree

mutual

def write (layout : Layout) (depth : Nat) : Tree → List Char
  | null => ['n', 'u', 'l', 'l']
  | whole n => Nat.toDigits 10 n
  | string s => quote s.toList
  | array [] => ['[', ']']
  | array (t :: more) =>
    '[' :: layout.gap (depth + 1) ++ write layout (depth + 1) t ++
      writeElements layout (depth + 1) more ++ layout.gap depth ++ [']']
  | object [] => ['{', '}']
  | object ((name, t) :: more) =>
    '{' :: layout.gap (depth + 1) ++ quote name.toList ++ layout.colon ++
      write layout (depth + 1) t ++ writeMembers layout (depth + 1) more ++ layout.gap depth ++ ['}']

def writeElements (layout : Layout) (depth : Nat) : List Tree → List Char
  | [] => []
  | t :: more => ',' :: layout.gap depth ++ write layout depth t ++ writeElements layout depth more

def writeMembers (layout : Layout) (depth : Nat) : List (String × Tree) → List Char
  | [] => []
  | (name, t) :: more =>
    ',' :: layout.gap depth ++ quote name.toList ++ layout.colon ++ write layout depth t ++
      writeMembers layout depth more

end

def text (layout : Layout) (t : Tree) : String := String.ofList (t.write layout 0)

theorem write_null (layout : Layout) (depth : Nat) :
    write layout depth null = ['n', 'u', 'l', 'l'] := by
  rw [write]

end Tree

end Worksheet.Json
