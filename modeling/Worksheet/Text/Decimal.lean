/-! Decimal numerals. -/
namespace Worksheet.Text

/-- The number that a run of decimal digits stands for. -/
def decimal (digits : List Char) : Nat := digits.foldl (fun n d => 10 * n + (d.toNat - 48)) 0

def decimal? (digits : List Char) : Option Nat :=
  if digits.isEmpty || !digits.all Char.isDigit then none else some (decimal digits)

/-- A numeral may have a plus sign. -/
def natural? : List Char → Option Nat
  | '+' :: digits => decimal? digits
  | digits => decimal? digits

def below? (limit : Nat) (text : List Char) : Option Nat := (natural? text).filter (· < limit)

end Worksheet.Text
