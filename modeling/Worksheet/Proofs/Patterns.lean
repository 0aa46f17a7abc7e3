import Mathlib
import Worksheet.Calc.Lexer
/-! The patterns of the tokens, as languages, and how far each of them matches. The first character of
a piece tells which pattern it is for. -/
namespace Worksheet.Calc

open Computability

namespace Pattern

def Digit (c : Char) : Prop := '0' ≤ c ∧ c ≤ '9'

def Letter (c : Char) : Prop := ('A' ≤ c ∧ c ≤ 'Z') ∨ ('a' ≤ c ∧ c ≤ 'z')

def NameStart (c : Char) : Prop := Letter c ∨ c = '_'

def NamePart (c : Char) : Prop := Letter c ∨ Digit c ∨ c = '_' ∨ c = '\''

def Mark (c : Char) : Prop := c ∈ ['=', '+', '-', '*', '/', '%', '(', ')', ',']

def Skipped (c : Char) : Prop := c ∈ [' ', '\t', '\r', '\n', '\x0c']

instance (c : Char) : Decidable (Digit c) := inferInstanceAs (Decidable (_ ∧ _))

instance (c : Char) : Decidable (Letter c) := inferInstanceAs (Decidable (_ ∨ _))

instance (c : Char) : Decidable (NameStart c) := inferInstanceAs (Decidable (_ ∨ _))

instance (c : Char) : Decidable (NamePart c) := inferInstanceAs (Decidable (_ ∨ _))

instance (c : Char) : Decidable (Mark c) := inferInstanceAs (Decidable (c ∈ _))

instance (c : Char) : Decidable (Skipped c) := inferInstanceAs (Decidable (c ∈ _))

/-- The texts of one character of a class. -/
def one (p : Char → Prop) : Language Char := {w | ∃ c, p c ∧ w = [c]}

/-- `[0-9]+` -/
def numeral : Language Char := one Digit * (one Digit)∗

/-- The number that a numeral stands for, by the digits of the library, which begin at the ones. -/
def numeralValue (digits : List Char) : Nat :=
  Nat.ofDigits 10 (digits.reverse.map fun d => d.toNat - '0'.toNat)

/-- `[A-Za-z_][A-Za-z0-9_']*` -/
def word : Language Char := one NameStart * (one NamePart)∗

/-- `([^"\\]|\\.)*` -/
def inside : Language Char := (one (fun c => c ≠ '"' ∧ c ≠ '\\') + one (· = '\\') * one (· ≠ '\n'))∗

/-- `"([^"\\]|\\.)*"` -/
def literal : Language Char := one (· = '"') * inside * one (· = '"')

/-- The beginning of a literal, without the quote that would end it. -/
def opened : Language Char := one (· = '"') * inside

def token : Language Char := numeral + literal + word + one Mark

variable {p : Char → Prop} {w : List Char}

theorem mem_one : w ∈ one p ↔ ∃ c, p c ∧ w = [c] := Iff.rfl

theorem mem_one_kstar : w ∈ (one p)∗ ↔ ∀ c ∈ w, p c := by
  rw [Language.mem_kstar]
  constructor
  · rintro ⟨pieces, rfl, each⟩ c member
    obtain ⟨piece, there, here⟩ := List.mem_flatten.1 member
    obtain ⟨d, good, rfl⟩ := each piece there
    exact List.mem_singleton.1 here ▸ good
  · intro each
    refine ⟨w.map fun c => [c], (List.flatMap_singleton' w).symm, fun piece there => ?_⟩
    obtain ⟨c, member, rfl⟩ := List.mem_map.1 there
    exact ⟨c, each c member, rfl⟩

theorem mem_one_mul {l : Language Char} :
    w ∈ one p * l ↔ ∃ c more, w = c :: more ∧ p c ∧ more ∈ l := by
  rw [Language.mem_mul]
  constructor
  · rintro ⟨_, ⟨c, good, rfl⟩, more, member, rfl⟩
    exact ⟨c, more, rfl, good, member⟩
  · rintro ⟨c, more, rfl, good, member⟩
    exact ⟨[c], ⟨c, good, rfl⟩, more, member, rfl⟩

theorem mem_numeral : w ∈ numeral ↔ w ≠ [] ∧ ∀ c ∈ w, Digit c := by
  rw [numeral, mem_one_mul]
  constructor
  · rintro ⟨c, more, rfl, first, rest⟩
    exact ⟨List.cons_ne_nil _ _, List.forall_mem_cons.2 ⟨first, mem_one_kstar.1 rest⟩⟩
  · rintro ⟨filled, each⟩
    cases w with
    | nil => exact absurd rfl filled
    | cons c more =>
      obtain ⟨first, rest⟩ := List.forall_mem_cons.1 each
      exact ⟨c, more, rfl, first, mem_one_kstar.2 rest⟩

theorem decimal_eq_numeralValue (digits : List Char) : Text.decimal digits = numeralValue digits := by
  -- The fold takes the ones last.
  induction digits using List.reverseRecOn with
  | nil => rfl
  | append_singleton digits d ih =>
    have fold : Text.decimal (digits ++ [d]) = 10 * Text.decimal digits + (d.toNat - 48) := by
      rw [Text.decimal, List.foldl_append]
      rfl
    rw [fold, ih, numeralValue, numeralValue, List.reverse_concat, List.map_cons, Nat.ofDigits_cons,
      Nat.add_comm]
    rfl

theorem mem_word : w ∈ word ↔ ∃ c more, w = c :: more ∧ NameStart c ∧ ∀ d ∈ more, NamePart d := by
  simp only [word, mem_one_mul, mem_one_kstar]

theorem mem_opened : w ∈ opened ↔ ∃ body ∈ inside, w = '"' :: body := by
  rw [opened, mem_one_mul]
  constructor
  · rintro ⟨c, body, rfl, rfl, member⟩
    exact ⟨body, member, rfl⟩
  · rintro ⟨body, member, rfl⟩
    exact ⟨'"', body, rfl, rfl, member⟩

theorem mem_literal : w ∈ literal ↔ ∃ body ∈ inside, w = '"' :: body ++ ['"'] := by
  rw [literal, Language.mem_mul]
  constructor
  · rintro ⟨_, front, _, ⟨c, rfl, rfl⟩, rfl⟩
    obtain ⟨body, member, rfl⟩ := mem_opened.1 front
    exact ⟨body, member, rfl⟩
  · rintro ⟨body, member, rfl⟩
    exact ⟨_, mem_opened.2 ⟨body, member, rfl⟩, _, ⟨'"', rfl, rfl⟩, rfl⟩

theorem mem_token : w ∈ token ↔ w ∈ numeral ∨ w ∈ literal ∨ w ∈ word ∨ w ∈ one Mark := by
  simp only [token, Language.mem_add, or_assoc]

theorem nil_inside : [] ∈ inside := Language.nil_mem_kstar _

theorem inside_cases : w ∈ inside ↔ w = [] ∨
    (∃ c more, w = c :: more ∧ (c ≠ '"' ∧ c ≠ '\\') ∧ more ∈ inside) ∨
    ∃ c more, w = '\\' :: c :: more ∧ c ≠ '\n' ∧ more ∈ inside := by
  have unfolded : w ∈ inside ↔ w ∈ (1 : Language Char) +
      (one (fun c => c ≠ '"' ∧ c ≠ '\\') + one (· = '\\') * one (· ≠ '\n')) * inside := by
    rw [inside, Language.one_add_self_mul_kstar_eq_kstar]
  rw [unfolded, Language.mem_add, Language.mem_one, add_mul, Language.mem_add, mul_assoc]
  simp only [mem_one_mul]
  refine or_congr_right (or_congr_right ⟨?_, ?_⟩)
  · rintro ⟨_, _, rfl, rfl, c, more, rfl, other, member⟩
    exact ⟨c, more, rfl, other, member⟩
  · rintro ⟨c, more, rfl, other, member⟩
    exact ⟨_, _, rfl, rfl, c, more, rfl, other, member⟩

theorem plain_inside {c : Char} (no_quote : c ≠ '"') (no_escape : c ≠ '\\') (member : w ∈ inside) :
    c :: w ∈ inside :=
  inside_cases.2 (Or.inr (Or.inl ⟨c, w, rfl, ⟨no_quote, no_escape⟩, member⟩))

theorem escape_inside {c : Char} (no_feed : c ≠ '\n') (member : w ∈ inside) :
    '\\' :: c :: w ∈ inside :=
  inside_cases.2 (Or.inr (Or.inr ⟨c, w, rfl, no_feed, member⟩))

@[elab_as_elim]
theorem inside_induction {motive : (w : List Char) → w ∈ inside → Prop}
    (nil : motive [] nil_inside)
    (plain : ∀ c more (no_quote : c ≠ '"') (no_escape : c ≠ '\\') (member : more ∈ inside),
      motive more member → motive (c :: more) (plain_inside no_quote no_escape member))
    (escape : ∀ c more (no_feed : c ≠ '\n') (member : more ∈ inside),
      motive more member → motive ('\\' :: c :: more) (escape_inside no_feed member))
    {w : List Char} (member : w ∈ inside) : motive w member := by
  obtain ⟨n, length⟩ : ∃ n, n = w.length := ⟨_, rfl⟩
  induction n using Nat.strongRecOn generalizing w with
  | ind n ih =>
    rcases inside_cases.1 member with rfl | ⟨c, more, rfl, ⟨no_quote, no_escape⟩, rest⟩ |
      ⟨c, more, rfl, no_feed, rest⟩
    · exact nil
    · have less : more.length < n := by
        rw [length, List.length_cons]
        exact Nat.lt_succ_self _
      exact plain c more no_quote no_escape rest (ih _ less rest rfl)
    · have less : more.length < n := by
        rw [length, List.length_cons, List.length_cons]
        omega
      exact escape c more no_feed rest (ih _ less rest rfl)

end Pattern

open Pattern

/-- The character that is all of a token. -/
def Token.symbol? : Token → Option Char
  | equals => some '='
  | plus => some '+'
  | minus => some '-'
  | star => some '*'
  | slash => some '/'
  | percent => some '%'
  | lparen => some '('
  | rparen => some ')'
  | comma => some ','
  | _ => none

/-! ## The classes of characters -/

section Classes

variable {c : Char}

theorem isDigit_iff : c.isDigit = true ↔ Digit c := by
  simp [Char.isDigit, Digit, Char.le_def]

theorem isAlpha_iff : c.isAlpha = true ↔ Letter c := by
  simp [Char.isAlpha, Char.isUpper, Char.isLower, Letter, Char.le_def]

theorem isNameStart_iff : isNameStart c = true ↔ NameStart c := by
  simp [isNameStart, NameStart, isAlpha_iff]

theorem isNamePart_iff : isNamePart c = true ↔ NamePart c := by
  simp [isNamePart, NamePart, Char.isAlphanum, isAlpha_iff, isDigit_iff, or_assoc]

theorem isSkipped_iff : isSkipped c = true ↔ Skipped c := by
  simp [isSkipped, Skipped, or_assoc]

theorem ofMark?_isSome : (Token.ofMark? c).isSome = true ↔ Mark c := by
  unfold Token.ofMark?
  split
  case h_10 =>
    simp only [Option.isSome_none, Bool.false_eq_true, Mark, List.mem_cons, List.not_mem_nil, or_false,
      false_iff, not_or]
    refine ⟨?_, ?_, ?_, ?_, ?_, ?_, ?_, ?_, ?_⟩ <;> assumption
  all_goals decide

/-- The lexer takes each mark for its own token, and nothing else for a mark. -/
theorem ofMark?_iff {t : Token} : Token.ofMark? c = some t ↔ t.symbol? = some c := by
  constructor
  · intro known
    unfold Token.ofMark? at known
    split at known <;> cases known <;> rfl
  · intro known
    cases t <;> cases known <;> rfl

theorem mark_of_symbol {t : Token} (known : t.symbol? = some c) : Mark c :=
  ofMark?_isSome.1 (Option.isSome_of_mem (ofMark?_iff.2 known))

/-- The classes of first characters have no character in common. -/
theorem not_digit_of_nameStart (start : NameStart c) : ¬ Digit c := by
  intro digit
  simp only [NameStart, Letter, Digit, Char.le_def, UInt32.le_iff_toNat_le] at start digit
  have zero : 'A'.val.toNat = 65 := rfl
  have nine : '9'.val.toNat = 57 := rfl
  have small : 'a'.val.toNat = 97 := rfl
  rcases start with (⟨low, _⟩ | ⟨low, _⟩) | rfl
  · omega
  · omega
  · exact absurd digit (by decide)

theorem not_digit_of_mark (mark : Mark c) : ¬ Digit c := by
  simp only [Mark, List.mem_cons, List.not_mem_nil, or_false] at mark
  rcases mark with rfl | rfl | rfl | rfl | rfl | rfl | rfl | rfl | rfl <;> decide

theorem not_nameStart_of_mark (mark : Mark c) : ¬ NameStart c := by
  simp only [Mark, List.mem_cons, List.not_mem_nil, or_false] at mark
  rcases mark with rfl | rfl | rfl | rfl | rfl | rfl | rfl | rfl | rfl <;> decide

theorem skipped_apart (skipped : Skipped c) : ¬ Digit c ∧ ¬ NameStart c ∧ ¬ Mark c := by
  simp only [Skipped, List.mem_cons, List.not_mem_nil, or_false] at skipped
  rcases skipped with rfl | rfl | rfl | rfl | rfl <;> decide

end Classes

/-! ## The inside of a literal -/

theorem literalBody_inside (rest : List Char) : literalBody rest ∈ inside := by
  fun_induction literalBody rest with
  | case1 => exact nil_inside
  | case2 c rest no_feed ih => exact escape_inside no_feed ih
  | case3 => exact nil_inside
  | case4 c rest _ other ih =>
    simp only [Bool.or_eq_true, decide_eq_true_eq, not_or] at other
    exact plain_inside other.1 other.2 ih
  | case5 => exact nil_inside

theorem literalBody_quote (rest : List Char) : literalBody ('"' :: rest) = [] := by
  rw [literalBody, if_pos (by decide)]
  exact fun _ _ => nofun

theorem literalBody_append {body : List Char} (member : body ∈ inside) (rest : List Char) :
    literalBody (body ++ rest) = body ++ literalBody rest := by
  induction member using inside_induction with
  | nil => rfl
  | plain c more no_quote no_escape _ ih =>
    have other : ¬ (decide (c = '"') || decide (c = '\\')) = true := by simp [no_quote, no_escape]
    rw [List.cons_append, literalBody, if_neg other, ih, List.cons_append]
    rintro _ _ rfl
    exact absurd rfl no_escape
  | escape c more no_feed _ ih =>
    rw [List.cons_append, List.cons_append, literalBody, if_neg no_feed, ih]
    rfl

end Worksheet.Calc
