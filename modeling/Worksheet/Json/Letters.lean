import Worksheet.Json.Reader
import Worksheet.Text.Lines
/-! The inside of a string: characters up to the closing quote, with their escapes. -/
namespace Worksheet.Json

def hexValue? (c : Char) : Option Nat :=
  if c.isDigit then some (c.toNat - 48)
  else if 'a' ≤ c && c ≤ 'f' then some (c.toNat - 87)
  else if 'A' ≤ c && c ≤ 'F' then some (c.toNat - 55)
  else none

def hexDigits? (a b c d : Char) : Option Nat := do
  return 4096 * (← hexValue? a) + 256 * (← hexValue? b) + 16 * (← hexValue? c) + (← hexValue? d)

/-- Takes four hexadecimal digits. Fewer than four bytes before the end of the text count as a text
that ends too early. -/
def readUnit (text : List Char) : Except Fault (Taken Nat text) :=
  match text with
  | a :: b :: c :: d :: rest =>
    match hexDigits? a b c d with
    | some n => .ok (((((Taken.first d rest).behind c).behind b).behind a).as n)
    | none => .error .malformed
  | text => .error (if Text.byteLength text < 4 then .truncated else .malformed)

def isHighSurrogate (n : Nat) : Bool := 0xD800 ≤ n && n ≤ 0xDBFF

def isLowSurrogate (n : Nat) : Bool := 0xDC00 ≤ n && n ≤ 0xDFFF

def readLowSurrogate (text : List Char) : Except Fault (Taken Nat text) :=
  match text with
  | [] => .error .truncated
  | ['\\'] => .error .truncated
  | '\\' :: 'u' :: rest => do
    let t ← readUnit rest
    if isLowSurrogate t.value then .ok ((t.behind 'u').behind '\\') else .error .malformed
  | _ => .error .malformed

def letter? : Char → Option Char
  | '"' => some '"'
  | '\\' => some '\\'
  | '/' => some '/'
  | 'b' => some '\x08'
  | 'f' => some '\x0c'
  | 'n' => some '\n'
  | 'r' => some '\r'
  | 't' => some '\t'
  | _ => none

def joinSurrogates (high low : Nat) : Char :=
  Char.ofNat (0x10000 + 1024 * (high - 0xD800) + (low - 0xDC00))

def readEscape (text : List Char) : Except Fault (Taken Char text) :=
  match text with
  | [] => .error .truncated
  | 'u' :: rest => do
    let t ← readUnit rest
    if isLowSurrogate t.value then .error .malformed
    else if isHighSurrogate t.value then do
      let u ← readLowSurrogate t.rest
      return ((t.next u).as (joinSurrogates t.value u.value)).behind 'u'
    else return (t.map Char.ofNat).behind 'u'
  | c :: rest =>
    match letter? c with
    | some d => .ok ((Taken.first c rest).as d)
    | none => .error .malformed

def readLetters (text : List Char) : Except Fault (Taken (List Char) text) :=
  match text with
  | [] => .error .truncated
  | '"' :: rest => .ok ((Taken.first '"' rest).as [])
  | '\\' :: rest => do
    let t ← readEscape rest
    let more ← readLetters t.rest
    return ((t.next more).map (t.value :: ·)).behind '\\'
  | c :: rest =>
    if c.toNat < 0x20 then .error .malformed
    else do return ((← readLetters rest).map (c :: ·)).behind c
termination_by text.length
decreasing_by
  · exact Nat.lt_succ_of_lt t.shorter
  · exact Nat.lt_succ_self _

/-- Passes over an escape behind its backslash; the two halves of a surrogate pair need not match. -/
def skipEscape (text : List Char) : Except Fault (Taken Unit text) :=
  match text with
  | [] => .error .truncated
  | 'u' :: rest => do return ((← readUnit rest).as ()).behind 'u'
  | c :: rest =>
    if (letter? c).isSome then .ok ((Taken.first c rest).as ()) else .error .malformed

def skipLetters (text : List Char) : Except Fault (Taken Unit text) :=
  match text with
  | [] => .error .truncated
  | '"' :: rest => .ok ((Taken.first '"' rest).as ())
  | '\\' :: rest => do
    let t ← skipEscape rest
    return (t.next (← skipLetters t.rest)).behind '\\'
  | c :: rest =>
    if c.toNat < 0x20 then .error .malformed else do return (← skipLetters rest).behind c
termination_by text.length
decreasing_by
  · exact Nat.lt_succ_of_lt t.shorter
  · exact Nat.lt_succ_self _

end Worksheet.Json
