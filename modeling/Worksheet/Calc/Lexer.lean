import Worksheet.Calc.Token
import Worksheet.Text.Decimal
import Worksheet.Text.Lines
/-! Reading a text as tokens. At each place the longest piece that any token pattern matches is
taken, and the pieces keep their byte positions. Reading stops at the first piece that is no token. -/
namespace Worksheet.Calc

def isSkipped (c : Char) : Bool := c = ' ' || c = '\t' || c = '\r' || c = '\n' || c = '\x0c'

def isNameStart (c : Char) : Bool := c.isAlpha || c = '_'

def isNamePart (c : Char) : Bool := c.isAlphanum || c = '_' || c = '\''

/-- A literal is a 64-bit integer that is not negative. -/
def intLiteral? (digits : List Char) : Option Int64 :=
  let n := Text.decimal digits
  if n ≤ 9223372036854775807 then some (Int64.ofNat n) else none

/-- The longest run of pieces that may stand inside quotes: a character that is neither a quote nor
a backslash, or a backslash with any character but a line feed. -/
def literalBody : List Char → List Char
  | '\\' :: c :: rest => if c = '\n' then [] else '\\' :: c :: literalBody rest
  | c :: rest => if c = '"' || c = '\\' then [] else c :: literalBody rest
  | [] => []

def escaped? : Char → Option Char
  | 'n' => some '\n'
  | 't' => some '\t'
  | '"' => some '"'
  | '\\' => some '\\'
  | _ => none

/-- The text that the inside of a literal stands for, if each of its escapes is known. -/
def unescape? : List Char → Option (List Char)
  | [] => some []
  | ['\\'] => none
  | '\\' :: c :: rest => (escaped? c).bind fun d => (unescape? rest).map (d :: ·)
  | c :: rest => (unescape? rest).map (c :: ·)

/-- The piece at the start of a text whose first character is not skipped, and its token,
if it has one. -/
def pieceAt (c : Char) (rest : List Char) : List Char × Option Token :=
  if c.isDigit then
    let digits := c :: rest.takeWhile Char.isDigit
    (digits, (intLiteral? digits).map .int)
  else if isNameStart c then
    let word := c :: rest.takeWhile isNamePart
    (word, some (.name (String.ofList word)))
  else if c = '"' then
    let body := literalBody rest
    match rest.drop body.length with
    | '"' :: _ => ('"' :: body ++ ['"'], (unescape? body).map fun cs => .text (String.ofList cs))
    | _ => ('"' :: body, none)
  else ([c], Token.ofMark? c)

/-- Byte positions: the first byte of a piece and the one after its last. -/
structure Span where
  start : Nat
  stop : Nat
  deriving DecidableEq, Repr

structure Lexeme where
  token : Token
  span : Span
  deriving DecidableEq, Repr

structure Lexed where
  lexemes : List Lexeme
  bad : Option (String × Span)
  deriving DecidableEq, Repr

def lexFrom (start : Nat) : List Char → Lexed
  | [] => ⟨[], none⟩
  | c :: rest =>
    if isSkipped c then lexFrom (start + c.utf8Size) rest
    else
      let (piece, token?) := pieceAt c rest
      let stop := start + Text.byteLength piece
      match token? with
      | none => ⟨[], some (String.ofList piece, ⟨start, stop⟩)⟩
      | some token =>
        let later := lexFrom stop (rest.drop (piece.length - 1))
        ⟨⟨token, ⟨start, stop⟩⟩ :: later.lexemes, later.bad⟩
termination_by text => text.length
decreasing_by all_goals simp only [List.length_drop, List.length_cons]; omega

def lex (text : String) : Lexed := lexFrom 0 text.toList

def Lexed.tokens (lexed : Lexed) : List Token := lexed.lexemes.map Lexeme.token

end Worksheet.Calc
