import Worksheet.Json.Reader
import Worksheet.Text.Decimal
/-! Numbers. Only whole numbers below `2 ^ 64` are of use; every other number is read to its end and
told apart, and one too large for a binary floating-point number of 64 bits is refused. -/
namespace Worksheet.Json

inductive Number
  /-- A number without sign, fraction and exponent that is below `2 ^ 64`. -/
  | whole (value : UInt64)
  | other
  deriving DecidableEq, Repr

/-- The nearest number with 53 significant binary digits, the even one of two. -/
def round53 (n : Nat) : Nat :=
  let unit := 1 <<< (n.log2 - 52)
  let q := n / unit
  let r := n % unit
  if unit < 2 * r ∨ (unit = 2 * r ∧ q % 2 = 1) then (q + 1) * unit else q * unit

/-- Half a unit above the largest finite number: what is this large is rounded to infinity. -/
def infinite : Nat := 1 <<< 1024 - 1 <<< 970

/-- Whether `significand * 10 ^ exponent`, each factor rounded, is beyond the finite range. -/
def exceeds (significand : Nat) (exponent : Int) : Bool :=
  if significand = 0 ∨ exponent < 0 then false
  else if 308 < exponent then true
  else infinite ≤ round53 significand * round53 (Nat.pow 10 exponent.toNat)

/-- Appends digits to a number as long as it stays below `2 ^ 64`, and counts them. -/
def absorb (n : Nat) : List Char → Nat × Nat
  | [] => (n, 0)
  | d :: digits =>
    let m := 10 * n + (d.toNat - 48)
    if m < UInt64.size then
      let (k, count) := absorb m digits
      (k, count + 1)
    else (n, 0)

def someDigits (text : List Char) : Except Fault (Taken (List Char) text) :=
  match text with
  | [] => .error .truncated
  | d :: rest =>
    if d.isDigit then
      .ok (((Taken.first d rest).upTo (.dropWhile Char.isDigit rest)).as
        (d :: rest.takeWhile Char.isDigit))
    else .error .malformed

/-- The digits of the whole part: a single zero, or digits that do not start with one. -/
def wholeDigits (text : List Char) : Except Fault (Taken (List Char) text) := do
  let t ← someDigits text
  match t.value with
  | '0' :: _ :: _ => .error .malformed
  | _ => .ok t

def isExponentMark (c : Char) : Bool := c = 'e' || c = 'E'

def exponentSign : (text : List Char) → Bool × Later text
  | '-' :: rest => (true, (Later.all rest).behind '-')
  | '+' :: rest => (false, (Later.all rest).behind '+')
  | text => (false, .all text)

structure Tail where
  fraction : Option (List Char)
  exponent : Option (Bool × List Char)

def readExponent (text : List Char) : Except Fault (Option (Bool × List Char) × Later text) :=
  match text with
  | [] => .ok (none, .all [])
  | c :: rest =>
    if isExponentMark c then do
      let sign := exponentSign rest
      let t ← someDigits sign.2.rest
      return (some (sign.1, t.value), (sign.2.next t).later.behind c)
    else .ok (none, .all (c :: rest))

def readTail (text : List Char) : Except Fault (Tail × Later text) :=
  match text with
  | '.' :: rest => do
    let t ← someDigits rest
    let (exponent, r) ← readExponent t.rest
    return (⟨some t.value, exponent⟩, (t.upTo r).later.behind '.')
  | text => do
    let (exponent, r) ← readExponent text
    return (⟨none, exponent⟩, r)

/-- The number that a sign, a whole part and a tail make. Digits that would take the significand to
`2 ^ 64` are left off; those of the whole part count in the exponent. -/
def Number.make (negative : Bool) (digits : List Char) (tail : Tail) : Except Fault Number :=
  let (n, count) := absorb 0 digits
  if tail.fraction.isNone && tail.exponent.isNone && count = digits.length then
    .ok (if negative then .other else .whole (UInt64.ofNat n))
  else
    let (m, more) := absorb n (tail.fraction.getD [])
    let scale : Int := ((digits.length - count : Nat) : Int) - (more : Int)
    let written : Int :=
      match tail.exponent with
      | none => 0
      | some (minus, ds) => if minus then -(Text.decimal ds : Int) else Text.decimal ds
    if exceeds m (scale + written) then .error .malformed else .ok .other

def readUnsigned (negative : Bool) : Reader Number := fun text => do
  let t ← wholeDigits text
  let (tail, r) ← readTail t.rest
  return (t.upTo r).as (← Number.make negative t.value tail)

def readNumber : Reader Number := fun text =>
  match text with
  | '-' :: rest => do return (← readUnsigned true rest).behind '-'
  | text => readUnsigned false text

end Worksheet.Json
