import Worksheet.Calc.Arith
import Worksheet.Calc.Source
import Worksheet.Calc.Value
/-! Evaluation. Operands come before their operator and arguments before their call, from left to
right, and the first failure is the result. -/
namespace Worksheet.Calc

inductive IntPlace
  | negation
  | operator (op : Op)
  | sleep
  deriving DecidableEq, Repr

def IntPlace.text : IntPlace → String
  | negation => "negation"
  | operator op => "operator '" ++ op.symbol ++ "'"
  | sleep => "sleep()"

inductive EvalError
  | unbound (name : String)
  | overflow
  | divisionByZero
  | notInt (place : IntPlace) (found : Value)
  | negativeSleep
  | notText (found : Value)
  | arity (name : String) (given : Nat)
  | unknownFunction (name : String)
  | raised (message : String)
  deriving DecidableEq, Repr

namespace EvalError

/-- The pieces of the message. -/
def pieces : EvalError → List String
  | unbound x => ["unbound variable '", x, "'"]
  | overflow => ["integer overflow"]
  | divisionByZero => ["division by zero"]
  | notInt place v => [place.text, " expects an int, got ", v.kind]
  | negativeSleep => ["sleep() expects a non-negative duration"]
  | notText v => ["len() expects a string, got ", v.kind]
  | arity f n => [f, "() takes 1 argument(s), got ", toString n]
  | unknownFunction f => ["unknown function '", f, "'"]
  | raised m => [m]

def message (e : EvalError) : String := String.join e.pieces

end EvalError

def Value.asInt (place : IntPlace) : Value → Except EvalError Int64
  | .int n => .ok n
  | v => .error (.notInt place v)

def fits : Option Int64 → Except EvalError Value
  | some n => .ok (.int n)
  | none => .error .overflow

def applyInts (op : Op) (a b : Int64) : Except EvalError Value :=
  match op with
  | .add => fits (Arith.add? a b)
  | .sub => fits (Arith.sub? a b)
  | .mul => fits (Arith.mul? a b)
  | .div => if b = 0 then .error .divisionByZero else fits (Arith.div? a b)
  | .rem => if b = 0 then .error .divisionByZero else fits (Arith.rem? a b)

/-- With a text on either side, `+` puts the plain forms together. -/
def applyOp (op : Op) (a b : Value) : Except EvalError Value :=
  match op, a, b with
  | .add, .text s, v => .ok (.text (s ++ v.display))
  | .add, v, .text s => .ok (.text (v.display ++ s))
  | op, a, b => do
    let m ← a.asInt (.operator op)
    let n ← b.asInt (.operator op)
    applyInts op m n

def negate (v : Value) : Except EvalError Value := do
  fits (Arith.neg? (← v.asInt .negation))

inductive Builtin
  | sleep
  | fail
  | len
  | str
  deriving DecidableEq, Repr

def Builtin.ofName? : String → Option Builtin
  | "sleep" => some .sleep
  | "fail" => some .fail
  | "len" => some .len
  | "str" => some .str
  | _ => none

def Builtin.apply (b : Builtin) (v : Value) : Except EvalError Value :=
  match b with
  | .sleep => do
    let n ← v.asInt .sleep
    if n < 0 then .error .negativeSleep else .ok (.int n)
  | .fail => .error (.raised v.display)
  | .len =>
    match v with
    | .text s => .ok (.int (Int64.ofNat s.length))
    | v => .error (.notText v)
  | .str => .ok (.text v.display)

/-- A call, once its arguments have values. Every function takes one argument. -/
def applyCall (name : String) (args : List Value) : Except EvalError Value :=
  match Builtin.ofName? name, args with
  | none, _ => .error (.unknownFunction name)
  | some b, [v] => b.apply v
  | some _, args => .error (.arity name args.length)

mutual

def eval (env : Env) : Expr → Except EvalError Value
  | .int n => .ok (.int n)
  | .text s => .ok (.text s)
  | .var x =>
    match env.get? x with
    | some v => .ok v
    | none => .error (.unbound x)
  | .neg e => do negate (← eval env e)
  | .bin op l r => do
    let a ← eval env l
    let b ← eval env r
    applyOp op a b
  | .call f args => do applyCall f (← evalAll env args)

def evalAll (env : Env) : List Expr → Except EvalError (List Value)
  | [] => .ok []
  | e :: more => do
    let v ← eval env e
    let vs ← evalAll env more
    .ok (v :: vs)

end

structure Yield where
  output : String
  env : Env

/-- Evaluates a declaration. It hands on its own binding and none of those it read. -/
def Decl.evaluate (d : Decl) (env : Env) : Except EvalError Yield :=
  match eval env d.item.expr with
  | .error e => .error e
  | .ok v =>
    match d.bound with
    | some x => .ok ⟨x ++ " = " ++ v.render, (∅ : Env).insert x v⟩
    | none => .ok ⟨v.render, ∅⟩

end Worksheet.Calc
