import Worksheet.Json.Quoted
/-! Expressions of the calc language, and the items of a file. -/
namespace Worksheet.Calc

inductive Op
  | add
  | sub
  | mul
  | div
  | rem
  deriving DecidableEq, Repr

def Op.symbol : Op → String
  | add => "+"
  | sub => "-"
  | mul => "*"
  | div => "/"
  | rem => "%"

inductive Expr
  | int (value : Int64)
  | text (value : String)
  | var (name : String)
  | neg (inner : Expr)
  | bin (op : Op) (left right : Expr)
  /-- The name of a call is not a variable. -/
  | call (name : String) (args : List Expr)
  deriving Repr

namespace Expr

def addName (names : List String) (name : String) : List String :=
  if name ∈ names then names else names ++ [name]

mutual

def collectVars (found : List String) : Expr → List String
  | int _ => found
  | text _ => found
  | var x => addName found x
  | neg e => collectVars found e
  | bin _ l r => collectVars (collectVars found l) r
  | call _ args => collectVarsOfAll found args

def collectVarsOfAll (found : List String) : List Expr → List String
  | [] => found
  | e :: more => collectVarsOfAll (collectVars found e) more

end

/-- The names that an expression reads, each once, in the order of their first occurrence. -/
def freeVars (e : Expr) : List String := collectVars [] e

mutual

/-- The tree of an expression, each node in parentheses with its operator in front. -/
def outline : Expr → String
  | int n => toString n.toInt
  | text s => String.ofList (Json.quote s.toList)
  | var x => x
  | neg e => "(neg " ++ outline e ++ ")"
  | bin op l r => "(" ++ op.symbol ++ " " ++ outline l ++ " " ++ outline r ++ ")"
  | call f args => "(call " ++ f ++ outlineAll args ++ ")"

def outlineAll : List Expr → String
  | [] => ""
  | e :: more => " " ++ outline e ++ outlineAll more

end

end Expr

/-- A declaration as written: a binding if it has a name, else an expression alone. -/
structure Item where
  name : Option String
  expr : Expr
  deriving Repr

end Worksheet.Calc
