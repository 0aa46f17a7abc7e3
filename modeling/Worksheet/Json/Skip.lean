import Worksheet.Json.Letters
/-! Passing over a value of any kind. Only its form is looked at: a number may have any size, and it
counts as malformed, not as truncated, when it ends before a digit it needs. -/
namespace Worksheet.Json

def skipDigits (text : List Char) : Except Fault (Taken Unit text) :=
  match text with
  | [] => .error .malformed
  | d :: rest =>
    if d.isDigit then .ok (((Taken.first d rest).upTo (.dropWhile Char.isDigit rest)).as ())
    else .error .malformed

def skipSign : (text : List Char) → Later text
  | '-' :: rest => (Later.all rest).behind '-'
  | '+' :: rest => (Later.all rest).behind '+'
  | text => .all text

def skipExponent (text : List Char) : Except Fault (Later text) :=
  match text with
  | [] => .ok (.all [])
  | c :: rest =>
    if c = 'e' || c = 'E' then do
      let r := skipSign rest
      return (r.next (← skipDigits r.rest)).later.behind c
    else .ok (.all (c :: rest))

def skipFraction (text : List Char) : Except Fault (Later text) :=
  match text with
  | '.' :: rest => do return (← skipDigits rest).later.behind '.'
  | text => .ok (.all text)

def skipUnsigned (text : List Char) : Except Fault (Taken Unit text) := do
  let whole ← skipDigits text
  if text.head? = some '0' && (text.drop 1).head?.any Char.isDigit then .error .malformed
  else do
    let t := whole.upTo (← skipFraction whole.rest)
    return t.upTo (← skipExponent t.rest)

mutual

def skipValue (text : List Char) : Except Fault (Taken Unit text) :=
  match ahead text with
  | none => .error .truncated
  | some t =>
    match t.value with
    | 'n' => do return (t.upTo (← readWord ['u', 'l', 'l'] t.rest)).as ()
    | 't' => do return (t.upTo (← readWord ['r', 'u', 'e'] t.rest)).as ()
    | 'f' => do return (t.upTo (← readWord ['a', 'l', 's', 'e'] t.rest)).as ()
    | '"' => do return t.next (← skipLetters t.rest)
    | '-' => do return t.next (← skipUnsigned t.rest)
    | '[' => do return t.next (← skipElements true t.rest)
    | '{' => do return t.next (← skipMembers true t.rest)
    | c =>
      if c.isDigit then do return (skipSpace text).next (← skipUnsigned (skipSpace text).rest)
      else .error .malformed
termination_by (text.length, 0)
decreasing_by all_goals exact Prod.Lex.left _ _ t.shorter

def skipElements (first : Bool) (text : List Char) : Except Fault (Taken Unit text) :=
  match ahead text with
  | none => .error .truncated
  | some t =>
    if t.value = ']' then .ok (t.as ())
    else if first then do
      let u ← skipValue text
      return u.next (← skipElements false u.rest)
    else if t.value = ',' then do
      let u ← skipValue t.rest
      return (t.next u).next (← skipElements false u.rest)
    else .error .malformed
termination_by (text.length, 1)
decreasing_by
  · exact Prod.Lex.right _ (by decide)
  · exact Prod.Lex.left _ _ u.shorter
  · exact Prod.Lex.left _ _ t.shorter
  · exact Prod.Lex.left _ _ (Nat.lt_trans u.shorter t.shorter)

def skipMembers (first : Bool) (text : List Char) : Except Fault (Taken Unit text) :=
  match ahead text with
  | none => .error .truncated
  | some t =>
    if t.value = '}' then .ok (t.as ())
    else if first then do
      let u ← skipMember text
      return u.next (← skipMembers false u.rest)
    else if t.value = ',' then do
      let u ← skipMember t.rest
      return (t.next u).next (← skipMembers false u.rest)
    else .error .malformed
termination_by (text.length, 1)
decreasing_by
  · exact Prod.Lex.right _ (by decide)
  · exact Prod.Lex.left _ _ u.shorter
  · exact Prod.Lex.left _ _ t.shorter
  · exact Prod.Lex.left _ _ (Nat.lt_trans u.shorter t.shorter)

def skipMember (text : List Char) : Except Fault (Taken Unit text) :=
  match ahead text with
  | none => .error .truncated
  | some t =>
    if t.value = '"' then do
      let name := t.next (← skipLetters t.rest)
      match ahead name.rest with
      | none => .error .truncated
      | some colon =>
        if colon.value = ':' then do
          return (name.next colon).next (← skipValue colon.rest)
        else .error .malformed
    else .error .malformed
termination_by (text.length, 0)
decreasing_by exact Prod.Lex.left _ _ (name.next colon).shorter

end

end Worksheet.Json
