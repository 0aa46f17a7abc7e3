import Worksheet.Text.Printable
/-! The shown form of a text: in double quotes, with every character that could not be seen as
itself written as an escape. -/
namespace Worksheet.Text

/-- A code point in braces, in lower-case hexadecimal digits without leading zeros. -/
def codePoint (c : Char) : List Char := '\\' :: 'u' :: '{' :: Nat.toDigits 16 c.toNat ++ ['}']

def showChar (c : Char) : List Char :=
  match c with
  | '\x00' => ['\\', '0']
  | '\t' => ['\\', 't']
  | '\r' => ['\\', 'r']
  | '\n' => ['\\', 'n']
  | '"' => ['\\', '"']
  | '\\' => ['\\', '\\']
  | c => if isExtender c || !isPrintable c then codePoint c else [c]

def shown (cs : List Char) : List Char := '"' :: cs.flatMap showChar ++ ['"']

end Worksheet.Text
