import Worksheet.Calc.Eval
/-! How long an evaluation pauses: the sum of the sleeps it gets to. -/
namespace Worksheet.Calc

def pauseOfCall (name : String) (args : List Value) : Nat :=
  match Builtin.ofName? name, args with
  | some .sleep, [.int n] => n.toInt.toNat
  | _, _ => 0

def ifOk (r : Except EvalError Value) (n : Nat) : Nat :=
  match r with
  | .ok _ => n
  | .error _ => 0

mutual

/-- The milliseconds that an evaluation sleeps before it ends, in a value or in a failure. -/
def pause (env : Env) : Expr → Nat
  | .int _ => 0
  | .text _ => 0
  | .var _ => 0
  | .neg e => pause env e
  | .bin _ l r => pause env l + ifOk (eval env l) (pause env r)
  | .call f args =>
    pauseAll env args +
      match evalAll env args with
      | .ok vs => pauseOfCall f vs
      | .error _ => 0

def pauseAll (env : Env) : List Expr → Nat
  | [] => 0
  | e :: more => pause env e + ifOk (eval env e) (pauseAll env more)

end

end Worksheet.Calc
