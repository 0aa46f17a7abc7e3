import Mathlib
import Worksheet.Proofs.Nodes
/-! Evaluation against one that counts with all integers and stops at the first node that fails. Main
statement: both come to the same value or to the same message, so no value ever wraps around. -/
namespace Worksheet.Calc

inductive Exact
  | int (n : Int)
  | text (s : String)
  deriving DecidableEq

def Value.exact : Value → Exact
  | .int n => .int n.toInt
  | .text s => .text s

/-- The integers that have 64 bits. -/
def Fits (n : Int) : Prop := -2 ^ 63 ≤ n ∧ n ≤ 2 ^ 63 - 1

instance (n : Int) : Decidable (Fits n) := inferInstanceAs (Decidable (_ ∧ _))

/-- Division goes toward zero, and a remainder has the sign of the dividend. -/
def Op.exact : Op → Int → Int → Int
  | .add, a, b => a + b
  | .sub, a, b => a - b
  | .mul, a, b => a * b
  | .div, a, b => a.tdiv b
  | .rem, a, b => a.tmod b

namespace Exact

def display : Exact → String
  | int n => toString n
  | text s => s

def kind : Exact → String
  | int _ => "int"
  | text _ => "string"

def notInt (place : String) (found : Exact) : String := place ++ " expects an int, got " ++ found.kind

def checked (n : Int) : Except String Exact :=
  if Fits n then .ok (.int n) else .error "integer overflow"

def negate : Exact → Except String Exact
  | int n => checked (-n)
  | text s => .error (notInt "negation" (.text s))

def operate (op : Op) : Exact → Exact → Except String Exact
  | int a, int b =>
    if (op = .div ∨ op = .rem) ∧ b = 0 then .error "division by zero"
    else if op = .rem ∧ a = -2 ^ 63 ∧ b = -1 then .error "integer overflow"
    else checked (op.exact a b)
  | text s, v =>
    if op = .add then .ok (.text (s ++ v.display))
    else .error (notInt ("operator '" ++ op.symbol ++ "'") (.text s))
  | int a, text s =>
    if op = .add then .ok (.text (toString a ++ s))
    else .error (notInt ("operator '" ++ op.symbol ++ "'") (.text s))

/-- The number of characters. A text in memory has fewer than `2 ^ 63` bytes, and no more characters
than bytes; past that, the count is what 64 bits make of it. -/
def count (s : String) : Int :=
  if s.length < 2 ^ 63 then s.length else (Int64.ofNat s.length).toInt

def builtin : Builtin → Exact → Except String Exact
  | .sleep, int n =>
    if n < 0 then .error "sleep() expects a non-negative duration" else .ok (.int n)
  | .sleep, text s => .error (notInt "sleep()" (.text s))
  | .fail, v => .error v.display
  | .len, text s => .ok (.int (count s))
  | .len, int n => .error ("len() expects a string, got " ++ (int n).kind)
  | .str, v => .ok (.text v.display)

/-- The arguments are there, so the name is looked at and then the number of arguments. -/
def call (f : String) (args : List Exact) : Except String Exact :=
  match Builtin.ofName? f, args with
  | none, _ => .error ("unknown function '" ++ f ++ "'")
  | some b, [v] => builtin b v
  | some _, args => .error (f ++ "() takes 1 argument(s), got " ++ toString args.length)

end Exact

/-- The meaning of nodes over all integers. -/
def Env.exact (env : Env) : Meaning String Exact where
  int n := .int n.toInt
  text := .text
  var x :=
    match env.get? x with
    | some v => .ok v.exact
    | none => .error ("unbound variable '" ++ x ++ "'")
  neg := Exact.negate
  op := Exact.operate
  call := Exact.call

/-- What comes of a node, as it is seen from outside. -/
def outcome : Except EvalError Value → Except String Exact
  | .ok v => .ok v.exact
  | .error e => .error e.message

theorem eq_minValue_iff (a : Int64) : a = Int64.minValue ↔ a.toInt = -2 ^ 63 := by
  rw [← Int64.toInt_inj]
  rfl

/-- What comes of a visit, as it is seen from outside. -/
def report : Except (Halt EvalError) (List Value) → Except (Halt String) (List Exact)
  | .ok stack => .ok (stack.map Value.exact)
  | .error .missing => .error .missing
  | .error (.failed e) => .error (.failed e.message)

end Worksheet.Calc
