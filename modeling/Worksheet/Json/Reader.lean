import Worksheet.Taken
/-! Reading JSON from the front of a text. A reader either takes a value off the front or reports
the first problem it meets. -/
namespace Worksheet.Json

/-- What is wrong with a text, by its first problem in reading order. -/
inductive Fault
  | truncated
  /-- The text is no JSON, or holds a number beyond all bounds. -/
  | malformed
  /-- The text is JSON so far, but a value of another kind or range was needed. -/
  | mismatched
  deriving DecidableEq, Repr

abbrev Reader (α : Type) := (text : List Char) → Except Fault (Taken α text)

def Reader.map (f : α → β) (read : Reader α) : Reader β := fun text => do
  return (← read text).map f

def isSpace (c : Char) : Bool := c = ' ' || c = '\n' || c = '\t' || c = '\r'

def skipSpace (text : List Char) : Later text := .dropWhile isSpace text

def ahead : (text : List Char) → Option (Taken Char text)
  | [] => none
  | c :: rest => if isSpace c then (ahead rest).map (Taken.behind c) else some (.first c rest)

def readWord : List Char → (text : List Char) → Except Fault (Later text)
  | [], text => .ok (.all text)
  | _ :: _, [] => .error .truncated
  | w :: word, c :: text =>
    if c = w then do return (← readWord word text).behind c else .error .malformed

end Worksheet.Json
