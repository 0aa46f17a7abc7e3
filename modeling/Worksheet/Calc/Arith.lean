/-! Arithmetic on 64-bit integers that refuses every result that does not fit. -/
namespace Worksheet.Calc.Arith

def neg? (a : Int64) : Option Int64 :=
  if BitVec.negOverflow a.toBitVec then none else some (-a)

def add? (a b : Int64) : Option Int64 :=
  if BitVec.saddOverflow a.toBitVec b.toBitVec then none else some (a + b)

def sub? (a b : Int64) : Option Int64 :=
  if BitVec.ssubOverflow a.toBitVec b.toBitVec then none else some (a - b)

def mul? (a b : Int64) : Option Int64 :=
  if BitVec.smulOverflow a.toBitVec b.toBitVec then none else some (a * b)

/-- The one quotient of integers that does not fit is that of the least integer by `-1`. -/
def div? (a b : Int64) : Option Int64 := if a = Int64.minValue ∧ b = -1 then none else some (a / b)

def rem? (a b : Int64) : Option Int64 := if a = Int64.minValue ∧ b = -1 then none else some (a % b)

end Worksheet.Calc.Arith
