import Worksheet.Calc.Expr
import Worksheet.Calc.Lexer
import Worksheet.Taken
/-! Reading tokens as an item. There is one reader for each level of the grammar: a sum of products
of factors, where a factor is an atom behind any number of minus signs. A reader takes the longest
phrase of its kind from the front and returns the tokens behind it. -/
namespace Worksheet.Calc

inductive ParseError
  | badInput (piece : String)
  | endOfInput
  | unexpected (token : Token)
  | afterExpression (token : Token)
  /-- A closing parenthesis is missing before the token, or at the end. -/
  | unclosed (found : Option Token)
  | badSeparator (token : Token)
  deriving DecidableEq, Repr

namespace ParseError

/-- The pieces of the message. -/
def pieces : ParseError → List String
  | badInput piece => ["unexpected input '", piece, "'"]
  | endOfInput => ["unexpected end of input"]
  | unexpected t => ["unexpected ", t.describe]
  | afterExpression t => ["unexpected ", t.describe, " after expression"]
  | unclosed none => ["expected ')', found end of input"]
  | unclosed (some t) => ["expected ')', found ", t.describe]
  | badSeparator t => ["expected ',' or ')', found ", t.describe]

def message (e : ParseError) : String := String.join e.pieces

end ParseError

def sumOp? : Token → Option Op
  | .plus => some .add
  | .minus => some .sub
  | _ => none

def productOp? : Token → Option Op
  | .star => some .mul
  | .slash => some .div
  | .percent => some .rem
  | _ => none

mutual

/-- Reads products joined by plus and minus signs; `left` holds what stands before the first. -/
def readSum (left : Expr → Expr) (tokens : List Token) : Except ParseError (Taken Expr tokens) :=
  match readProduct id tokens with
  | .error e => .error e
  | .ok ⟨value, [], h⟩ => .ok ⟨left value, [], h⟩
  | .ok ⟨value, t :: rest, h⟩ =>
    match sumOp? t with
    | none => .ok ⟨left value, t :: rest, h⟩
    | some op =>
      match readSum (.bin op (left value)) rest with
      | .error e => .error e
      | .ok ⟨value, rest', h'⟩ => .ok ⟨value, rest', by simp only [List.length_cons] at h; omega⟩
termination_by (tokens.length, 4)
decreasing_by
  · exact Prod.Lex.right _ (by decide)
  · exact Prod.Lex.left _ _ (by simp only [List.length_cons] at h; omega)

def readProduct (left : Expr → Expr) (tokens : List Token) :
    Except ParseError (Taken Expr tokens) :=
  match readFactor tokens with
  | .error e => .error e
  | .ok ⟨value, [], h⟩ => .ok ⟨left value, [], h⟩
  | .ok ⟨value, t :: rest, h⟩ =>
    match productOp? t with
    | none => .ok ⟨left value, t :: rest, h⟩
    | some op =>
      match readProduct (.bin op (left value)) rest with
      | .error e => .error e
      | .ok ⟨value, rest', h'⟩ => .ok ⟨value, rest', by simp only [List.length_cons] at h; omega⟩
termination_by (tokens.length, 3)
decreasing_by
  · exact Prod.Lex.right _ (by decide)
  · exact Prod.Lex.left _ _ (by simp only [List.length_cons] at h; omega)

def readFactor (tokens : List Token) : Except ParseError (Taken Expr tokens) :=
  match tokens with
  | [] => readAtom []
  | t :: rest =>
    if t = .minus then
      match readFactor rest with
      | .error e => .error e
      | .ok ⟨value, rest', h⟩ => .ok ⟨.neg value, rest', Nat.lt_succ_of_lt h⟩
    else readAtom (t :: rest)
termination_by (tokens.length, 2)
decreasing_by
  · exact Prod.Lex.right _ (by decide)
  · exact Prod.Lex.left _ _ (Nat.lt_succ_self _)
  · exact Prod.Lex.right _ (by decide)

/-- Reads a literal, a variable, a call or a sum in parentheses. A name with an opening parenthesis
right behind it is always a call. -/
def readAtom (tokens : List Token) : Except ParseError (Taken Expr tokens) :=
  match tokens with
  | [] => .error .endOfInput
  | t :: rest =>
    match t with
    | .int n => .ok ⟨.int n, rest, Nat.lt_succ_self _⟩
    | .text s => .ok ⟨.text s, rest, Nat.lt_succ_self _⟩
    | .name x =>
      match rest with
      | [] => .ok ⟨.var x, [], Nat.lt_succ_self _⟩
      | u :: more =>
        if u = .lparen then
          match readCall more with
          | .error e => .error e
          | .ok ⟨args, rest', h⟩ => .ok ⟨.call x args, rest', by simp only [List.length_cons]; omega⟩
        else .ok ⟨.var x, u :: more, Nat.lt_succ_self _⟩
    | .lparen =>
      match readSum id rest with
      | .error e => .error e
      | .ok ⟨_, [], _⟩ => .error (.unclosed none)
      | .ok ⟨value, u :: rest', h⟩ =>
        if u = .rparen then .ok ⟨value, rest', by simp only [List.length_cons] at *; omega⟩
        else .error (.unclosed (some u))
    | .equals | .plus | .minus | .star | .slash | .percent | .rparen | .comma =>
      .error (.unexpected t)
termination_by (tokens.length, 1)
decreasing_by
  · exact Prod.Lex.left _ _ (by simp only [List.length_cons]; omega)
  · exact Prod.Lex.left _ _ (Nat.lt_succ_self _)

def readCall (tokens : List Token) : Except ParseError (Taken (List Expr) tokens) :=
  match tokens with
  | [] => .error .endOfInput
  | t :: rest =>
    if t = .rparen then .ok ⟨[], rest, Nat.lt_succ_self _⟩ else readArguments (t :: rest)
termination_by (tokens.length, 6)
decreasing_by exact Prod.Lex.right _ (by decide)

def readArguments (tokens : List Token) : Except ParseError (Taken (List Expr) tokens) :=
  match readSum id tokens with
  | .error e => .error e
  | .ok ⟨_, [], _⟩ => .error (.unclosed none)
  | .ok ⟨value, t :: rest, h⟩ =>
    if t = .comma then
      match readArguments rest with
      | .error e => .error e
      | .ok ⟨more, rest', h'⟩ =>
        .ok ⟨value :: more, rest', by simp only [List.length_cons] at h; omega⟩
    else if t = .rparen then .ok ⟨[value], rest, by simp only [List.length_cons] at h; omega⟩
    else .error (.badSeparator t)
termination_by (tokens.length, 5)
decreasing_by
  · exact Prod.Lex.right _ (by decide)
  · exact Prod.Lex.left _ _ (by simp only [List.length_cons] at h; omega)

end

def readExpr (tokens : List Token) : Except ParseError Expr :=
  match readSum id tokens with
  | .error e => .error e
  | .ok ⟨value, [], _⟩ => .ok value
  | .ok ⟨_, t :: _, _⟩ => .error (.afterExpression t)

/-- A name and an equals sign in front make an item a binding. -/
def Item.ofTokens (tokens : List Token) : Except ParseError Item :=
  match tokens with
  | .name x :: .equals :: rest => (readExpr rest).map (⟨some x, ·⟩)
  | tokens => (readExpr tokens).map (⟨none, ·⟩)

/-- A piece that is no token fails the whole text, whatever the tokens before it are. -/
def Item.parse (text : String) : Except ParseError Item :=
  let lexed := lex text
  match lexed.bad with
  | some (piece, _) => .error (.badInput piece)
  | none => Item.ofTokens lexed.tokens

end Worksheet.Calc
