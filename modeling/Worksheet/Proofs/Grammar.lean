import Worksheet.Calc.Parser
/-! The grammar of items, by its derivations. Each constructor is one production, and sums and
products are derived from the left, unlike the way in which they are read. -/
namespace Worksheet.Calc.Grammar

inductive SumSign
  | plus
  | minus

inductive ProductSign
  | star
  | slash
  | percent

mutual

/-- `E ::= E ('+' | '-') T | T` -/
inductive Sum
  | product (p : Product)
  | join (left : Sum) (sign : SumSign) (right : Product)

/-- `T ::= T ('*' | '/' | '%') U | U` -/
inductive Product
  | factor (f : Factor)
  | join (left : Product) (sign : ProductSign) (right : Factor)

/-- `U ::= '-' U | A` -/
inductive Factor
  | minus (f : Factor)
  | atom (a : Atom)

/-- `A ::= int | str | ident | ident '(' [E (',' E)*] ')' | '(' E ')'` -/
inductive Atom
  | int (n : Int64)
  | text (s : String)
  | name (x : String)
  | call (f : String) (args : List Sum)
  | parens (e : Sum)

end

/-- `item ::= [ident '='] E` -/
structure Sentence where
  name : Option String
  body : Sum

namespace SumSign

def token : SumSign → Token
  | plus => .plus
  | minus => .minus

def op : SumSign → Op
  | plus => .add
  | minus => .sub

theorem sumOp?_token (s : SumSign) : sumOp? s.token = some s.op := by cases s <;> rfl

theorem productOp?_token (s : SumSign) : productOp? s.token = none := by cases s <;> rfl

theorem of_sumOp? {t : Token} {op : Op} (sign : sumOp? t = some op) :
    ∃ s : SumSign, t = s.token ∧ op = s.op := by
  cases t with
  | plus =>
    cases sign
    exact ⟨plus, rfl, rfl⟩
  | minus =>
    cases sign
    exact ⟨minus, rfl, rfl⟩
  | _ => cases sign

end SumSign

namespace ProductSign

def token : ProductSign → Token
  | star => .star
  | slash => .slash
  | percent => .percent

def op : ProductSign → Op
  | star => .mul
  | slash => .div
  | percent => .rem

theorem productOp?_token (s : ProductSign) : productOp? s.token = some s.op := by cases s <;> rfl

theorem of_productOp? {t : Token} {op : Op} (sign : productOp? t = some op) :
    ∃ s : ProductSign, t = s.token ∧ op = s.op := by
  cases t with
  | star =>
    cases sign
    exact ⟨star, rfl, rfl⟩
  | slash =>
    cases sign
    exact ⟨slash, rfl, rfl⟩
  | percent =>
    cases sign
    exact ⟨percent, rfl, rfl⟩
  | _ => cases sign

end ProductSign

mutual

/-- The tokens that are derived. -/
def Sum.tokens : Sum → List Token
  | .product p => p.tokens
  | .join l s r => l.tokens ++ s.token :: r.tokens

def Product.tokens : Product → List Token
  | .factor f => f.tokens
  | .join l s r => l.tokens ++ s.token :: r.tokens

def Factor.tokens : Factor → List Token
  | .minus f => .minus :: f.tokens
  | .atom a => a.tokens

def Atom.tokens : Atom → List Token
  | .int n => [.int n]
  | .text s => [.text s]
  | .name x => [.name x]
  | .call f args => .name f :: .lparen :: (argumentTokens args ++ [.rparen])
  | .parens e => .lparen :: (e.tokens ++ [.rparen])

def argumentTokens : List Sum → List Token
  | [] => []
  | e :: more => e.tokens ++ moreTokens more

def moreTokens : List Sum → List Token
  | [] => []
  | e :: more => .comma :: (e.tokens ++ moreTokens more)

end

mutual

/-- The tree of a derivation. Parentheses leave no trace. -/
def Sum.tree : Sum → Expr
  | .product p => p.tree
  | .join l s r => .bin s.op l.tree r.tree

def Product.tree : Product → Expr
  | .factor f => f.tree
  | .join l s r => .bin s.op l.tree r.tree

def Factor.tree : Factor → Expr
  | .minus f => .neg f.tree
  | .atom a => a.tree

def Atom.tree : Atom → Expr
  | .int n => .int n
  | .text s => .text s
  | .name x => .var x
  | .call f args => .call f (trees args)
  | .parens e => e.tree

def trees : List Sum → List Expr
  | [] => []
  | e :: more => e.tree :: trees more

end

def Sentence.tokens (s : Sentence) : List Token :=
  s.name.elim [] (fun x => [.name x, .equals]) ++ s.body.tokens

def Sentence.tree (s : Sentence) : Item := ⟨s.name, s.body.tree⟩

end Worksheet.Calc.Grammar
