/-! The tokens of the calc language. -/
namespace Worksheet.Calc

inductive Token
  | int (value : Int64)
  | text (value : String)
  | name (value : String)
  | equals
  | plus
  | minus
  | star
  | slash
  | percent
  | lparen
  | rparen
  | comma
  deriving DecidableEq, Repr

namespace Token

def ofMark? : Char → Option Token
  | '=' => some .equals
  | '+' => some .plus
  | '-' => some .minus
  | '*' => some .star
  | '/' => some .slash
  | '%' => some .percent
  | '(' => some .lparen
  | ')' => some .rparen
  | ',' => some .comma
  | _ => none

def describe : Token → String
  | int n => "number " ++ toString n.toInt
  | text _ => "string literal"
  | name x => "identifier '" ++ x ++ "'"
  | equals => "'='"
  | plus => "'+'"
  | minus => "'-'"
  | star => "'*'"
  | slash => "'/'"
  | percent => "'%'"
  | lparen => "'('"
  | rparen => "')'"
  | comma => "','"

end Token

end Worksheet.Calc
