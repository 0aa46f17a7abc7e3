import Worksheet.Report
import Worksheet.Text.Lines
/-! A report as a text for people: one tagged line for each key of the order, and indented lines
below it for what takes more than one. -/
namespace Worksheet.Report

def margin : List Char := [' ', ' ', ' ', ' ', ' ', ' ']

/-- A text behind a tag: its later lines are indented. -/
def indent (text : String) : List Char := Text.join ('\n' :: margin) (Text.lines text.toList)

def tagComplete : List Char := ['[', 'o', 'k', ']', ' ', ' ']
def tagFailed : List Char := ['[', 'e', 'r', 'r', ']', ' ']
def tagPending : List Char := ['[', '.', '.', ']', ' ', ' ']
def tagUnknown : List Char := ['[', '?', '?', ']', ' ', ' ']

/-- An evaluation without output shows its source. -/
def listEntry (entry : Entry) : List Char :=
  let source := entry.source.getD ""
  match entry.status with
  | some .complete =>
    tagComplete ++ indent (if entry.output.isEmpty then source else entry.output) ++ ['\n']
  | some (.failed message) =>
    tagFailed ++ indent source ++ ['\n'] ++ margin ++ indent message ++ ['\n']
  | none => tagPending ++ indent source ++ ['\n']

def listKey : Key × Option Entry → List Char
  | (_, some entry) => listEntry entry
  | (key, none) => tagUnknown ++ ("<no result for key " ++ key.text ++ ">\n").toList

def listing (r : Report) : String := String.ofList (r.ordered.flatMap listKey)

end Worksheet.Report
