import Worksheet.Json.Number
import Worksheet.Json.Skip
/-! Readers for values of a known kind. A value of another kind is a mismatch, once enough of it has
been read to tell its kind. -/
namespace Worksheet.Json

/-- The fault of a value that is not of the kind that was needed. Words, numbers and strings are
read to their end first, so a fault inside them counts before the mismatch. -/
def wrongKind (text : List Char) : Fault :=
  let after {α : Type} : Except Fault α → Fault
    | .error e => e
    | .ok _ => .mismatched
  match text with
  | [] => .truncated
  | 'n' :: rest => after (readWord ['u', 'l', 'l'] rest)
  | 't' :: rest => after (readWord ['r', 'u', 'e'] rest)
  | 'f' :: rest => after (readWord ['a', 'l', 's', 'e'] rest)
  | '"' :: rest => after (readLetters rest)
  | '[' :: _ => .mismatched
  | '{' :: _ => .mismatched
  | c :: rest => if c = '-' || c.isDigit then after (readNumber (c :: rest)) else .malformed

def spaced (read : Reader α) : Reader α := fun text => do
  return (skipSpace text).next (← read (skipSpace text).rest)

def readWhole : Reader UInt64 := spaced fun text =>
  match text with
  | [] => .error .truncated
  | c :: rest =>
    if c = '-' || c.isDigit then do
      let t ← readNumber (c :: rest)
      match t.value with
      | .whole n => .ok (t.as n)
      | .other => .error .mismatched
    else .error (wrongKind (c :: rest))

def readString : Reader String := spaced fun text =>
  match text with
  | '"' :: rest => do return ((← readLetters rest).map String.ofList).behind '"'
  | text => .error (wrongKind text)

def readNull : Reader Unit := spaced fun text =>
  match text with
  | 'n' :: rest => do
    return ((Taken.first 'n' rest).upTo (← readWord ['u', 'l', 'l'] rest)).as ()
  | text => .error (wrongKind text)

def readOption (read : Reader α) : Reader (Option α) := spaced fun text =>
  match text with
  | [] => .error .truncated
  | 'n' :: rest => do
    return ((Taken.first 'n' rest).upTo (← readWord ['u', 'l', 'l'] rest)).as none
  | text => do return (← read text).map some

/-- Takes one character behind white space; a text that goes on otherwise has the given fault. -/
def readMark (mark : Char) (otherwise : List Char → Fault) : Reader Unit := spaced fun text =>
  match text with
  | [] => .error .truncated
  | c :: rest =>
    if c = mark then .ok ((Taken.first c rest).as ()) else .error (otherwise (c :: rest))

def malformed : List Char → Fault := fun _ => .malformed

/-- Looks for the next element of an array. None is left before the closing bracket, which stays. -/
def elementAhead (first : Bool) (text : List Char) : Except Fault (Option (Later text)) :=
  match ahead text with
  | none => .error .truncated
  | some t =>
    if t.value = ']' then .ok none
    else if first then .ok (some (.all text))
    else if t.value = ',' then
      match ahead t.rest with
      | none => .error .truncated
      | some u => if u.value = ']' then .error .malformed else .ok (some t.later)
    else .error .malformed

def readElement (first : Bool) (read : Reader α) : Reader α := fun text => do
  match ← elementAhead first text with
  | none => .error .mismatched
  | some r => return r.next (← read r.rest)

def closeArray : Reader Unit := readMark ']' malformed

def readElements (read : Reader α) (first : Bool) (text : List Char) :
    Except Fault (Taken (List α) text) := do
  match ← elementAhead first text with
  | none => return (← closeArray text).as []
  | some r =>
    let t := r.next (← read r.rest)
    return (t.next (← readElements read false t.rest)).map (t.value :: ·)
termination_by text.length
decreasing_by exact t.shorter

def readArray (read : Reader α) : Reader (List α) := fun text => do
  let t ← readMark '[' wrongKind text
  return t.next (← readElements read true t.rest)

/-- Looks for the next member of an object. None is left before the closing brace, which stays. -/
def memberAhead (first : Bool) (text : List Char) : Except Fault (Option (Later text)) :=
  match ahead text with
  | none => .error .truncated
  | some t =>
    if t.value = '}' then .ok none
    else if first then if t.value = '"' then .ok (some (.all text)) else .error .malformed
    else if t.value = ',' then
      match ahead t.rest with
      | none => .error .truncated
      | some u => if u.value = '"' then .ok (some t.later) else .error .malformed
    else .error .malformed

def readColon : Reader Unit := readMark ':' malformed

/-- What the members of an object do to a value that is built up from them: the name of a member
chooses how its value is read. -/
abbrev Members (σ : Type) := σ → String → Except Fault (Reader σ)

def readMembers (members : Members σ) (s : σ) (first : Bool) (text : List Char) :
    Except Fault (Taken σ text) := do
  match ← memberAhead first text with
  | none => return (← readMark '}' malformed text).as s
  | some r =>
    let name := r.next (← readString r.rest)
    let read ← members s name.value
    let colon := name.next (← readColon name.rest)
    let t := colon.next (← read colon.rest)
    return t.next (← readMembers members t.value false t.rest)
termination_by text.length
decreasing_by exact t.shorter

def skipMemberValue (s : σ) : Reader σ := fun text => do return (← skipValue text).as s

/-- Takes a record: an object, whose members may come in any order, or the array of its fields. -/
def readRecord (members : Members σ) (s : σ) (finish : σ → Except Fault α) (fields : Reader α) :
    Reader α := spaced fun text =>
  match text with
  | '{' :: rest => do
    let t ← readMembers members s true rest
    return (t.as (← finish t.value)).behind '{'
  | '[' :: rest => do
    let t ← fields rest
    return ((t.next (← closeArray t.rest)).as t.value).behind '['
  | text => .error (wrongKind text)

def readAll (read : Reader α) (text : List Char) : Except Fault α := do
  let t ← read text
  match ahead t.rest with
  | none => return t.value
  | some _ => .error .malformed

end Worksheet.Json
