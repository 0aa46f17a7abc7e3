import Worksheet.Text.Blank
import Worksheet.Text.Decimal
/-! Log filters. A filter is a level, or a target with an optional span, whose fields stand in
braces, and an optional level behind an equals sign. Only whether it can be read matters here. -/
namespace Worksheet.LogFilter

inductive Fault
  | directive
  | level
  deriving DecidableEq, Repr

def Fault.message : Fault → String
  | directive => "invalid filter directive"
  | level => "error parsing level filter: expected one of \"off\", \"error\", \"warn\", \"info\", " ++
      "\"debug\", \"trace\", or a number 0-5"

/-- A level is a number up to five or a name in any case; an empty one is the default. -/
def isLevel (text : List Char) : Bool :=
  let lower := String.ofList (text.map Char.toLower)
  lower ∈ ["", "off", "error", "warn", "info", "debug", "trace"] ||
    (Text.below? 6 text).isSome

inductive State
  | start
  | word
  | span
  /-- The inside of braces, with whether the field begun there is still empty. -/
  | field (empty : Bool)
  | fields
  | target
  /-- A level that begins behind so many characters. -/
  | level (start : Nat)
  | complete
  deriving DecidableEq, Repr

/-- A filter begins with a letter, a digit, a hyphen, a colon, an underscore or a span. -/
def isStart (c : Char) : Bool := c.isAlphanum || c = '-' || c = ':' || c = '_' || 0x80 ≤ c.toNat

/-- Reads one character of `text`, the one behind `index` others. -/
def step (text : List Char) (index : Nat) (c : Char) : State → Except Fault State
  | .start => if c = '[' then .ok .span else if isStart c then .ok .word else .error .directive
  | .word =>
    if c = '=' then .ok (.level (index + 1))
    else if c = '[' then .ok .span
    else if c = ',' then .ok .complete
    else .ok .word
  | .span => .ok (if c = ']' then .target else if c = '{' then .field true else .span)
  | .field empty =>
    if c = '}' then if empty then .error .directive else .ok .fields
    else if c = ',' then if empty then .error .directive else .ok (.field true)
    else .ok (.field false)
  | .fields => if c = ']' then .ok .target else .error .directive
  | .target => if c = '=' then .ok (.level (index + 1)) else .error .directive
  | .level start =>
    if c = ',' then
      if isLevel ((text.take index).drop start) then .ok .complete else .error .level
    else .ok (.level start)
  | .complete => .error .directive

def readFrom (text : List Char) (state : State) (index : Nat) : List Char → Except Fault State
  | [] => .ok state
  | c :: rest => do readFrom text (← step text index c state) (index + 1) rest

/-- White space around a filter is skipped, but a level lasts to the very end. -/
def check (text : String) : Except Fault Unit := do
  let cs := text.toList
  match ← readFrom cs .start 0 (Text.trimEnd (Text.trimStart cs)) with
  | .word => .ok ()
  | .target => .ok ()
  | .complete => .ok ()
  | .level start => if isLevel (cs.drop start) then .ok () else .error .level
  | _ => .error .directive

end Worksheet.LogFilter
