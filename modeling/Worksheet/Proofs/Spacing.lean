import Worksheet.Calc.Parser
import Worksheet.Proofs.Tiling
/-! Tokens written one behind the other, with white space between them. A text that is made so is
lexed as these tokens, and each list of tokens that can stand in a text has such a text. -/
namespace Worksheet.Calc

open Pattern

/-- Words and numbers, which would run into each other. -/
def Token.IsWord : Token → Prop
  | int _ => True
  | name _ => True
  | _ => False

/-- A text of these tokens, with any white space around them, and some between two words or numbers
that are neighbours. -/
inductive Spaced : List Token → List Char → Prop
  | nil {gap : List Char} : (∀ c ∈ gap, Skipped c) → Spaced [] gap
  | cons {t : Token} {ts : List Token} {gap piece behind : List Char} :
      (∀ c ∈ gap, Skipped c) → t.Form piece →
      (t.IsWord → ∀ u, ts.head? = some u → u.IsWord → ∃ c, behind.head? = some c ∧ Skipped c) →
      Spaced ts behind → Spaced (t :: ts) (gap ++ piece ++ behind)

variable {t : Token} {ts : List Token} {piece text behind gap : List Char} {c : Char}

theorem not_namePart_of_skipped (skipped : Skipped c) : ¬ NamePart c := by
  simp only [Skipped, List.mem_cons, List.not_mem_nil, or_false] at skipped
  rcases skipped with rfl | rfl | rfl | rfl | rfl <;> decide

theorem not_namePart_of_mark (mark : Mark c) : ¬ NamePart c := by
  simp only [Mark, List.mem_cons, List.not_mem_nil, or_false] at mark
  rcases mark with rfl | rfl | rfl | rfl | rfl | rfl | rfl | rfl | rfl <;> decide

theorem Token.Form.word_or_end (form : t.Form piece) :
    t.IsWord ∨ ∀ c, piece.head? = some c → ¬ NamePart c := by
  cases form with
  | int => exact Or.inl trivial
  | name => exact Or.inl trivial
  | text =>
    refine Or.inr fun c first => ?_
    cases first
    decide
  | mark known =>
    refine Or.inr fun c first => ?_
    cases first
    exact not_namePart_of_mark (mark_of_symbol known)

/-- A text of tokens begins with white space, with a token that is no word, or with the first word. -/
theorem Spaced.first (spaced : Spaced ts text) (regular : ∀ t ∈ ts, t.Regular) {c : Char}
    (first : text.head? = some c) : ¬ NamePart c ∨ ∃ u, ts.head? = some u ∧ u.IsWord := by
  cases spaced with
  | nil gap => exact Or.inl (not_namePart_of_skipped (gap c (List.mem_of_mem_head? first)))
  | @cons t ts gap piece behind blank form _ _ =>
    cases gap with
    | cons d gap =>
      have here : c ∈ d :: gap := Option.some.inj first ▸ List.mem_cons_self ..
      exact Or.inl (not_namePart_of_skipped (blank c here))
    | nil =>
      have filled := form.filled (regular t (List.mem_cons_self ..))
      rw [List.nil_append, List.head?_append_of_ne_nil _ filled] at first
      rcases form.word_or_end with word | other
      · exact Or.inr ⟨t, rfl, word⟩
      · exact Or.inl (other c first)

theorem Token.free_of_end (no_part : ∀ c, behind.head? = some c → ¬ NamePart c) (t : Token) :
    t.Free behind := by
  cases t with
  | int n => exact fun c first digit => no_part c first (Or.inr (Or.inl digit))
  | name x => exact no_part
  | _ => trivial

theorem Spaced.free (spaced : Spaced ts behind) (regular : ∀ t ∈ ts, t.Regular)
    (apart : t.IsWord → ∀ u, ts.head? = some u → u.IsWord → ∃ c, behind.head? = some c ∧ Skipped c) :
    t.Free behind := by
  by_cases word : t.IsWord
  · refine Token.free_of_end (fun c first part => ?_) t
    rcases spaced.first regular first with no_part | ⟨u, next, other⟩
    · exact no_part part
    · obtain ⟨d, same, skipped⟩ := apart word u next other
      cases first.symm.trans same
      exact not_namePart_of_skipped skipped part
  · cases t with
    | int n => exact absurd trivial word
    | name x => exact absurd trivial word
    | _ => trivial

theorem lexFrom_gap (blank : ∀ c ∈ gap, Skipped c) (start : Nat) (rest : List Char) :
    lexFrom start (gap ++ rest) = lexFrom (start + Text.byteLength gap) rest := by
  induction gap generalizing start with
  | nil => rfl
  | cons c gap ih =>
    obtain ⟨skipped, later⟩ := List.forall_mem_cons.1 blank
    rw [List.cons_append, lexFrom_skip start skipped, ih later, Text.byteLength_cons, Nat.add_assoc]

theorem Spaced.lexed (spaced : Spaced ts text) (regular : ∀ t ∈ ts, t.Regular) (start : Nat) :
    (lexFrom start text).tokens = ts ∧ (lexFrom start text).bad = none := by
  induction spaced generalizing start with
  | nil blank =>
    have whole := lexFrom_gap blank start []
    rw [List.append_nil, lexFrom] at whole
    rw [whole]
    exact ⟨rfl, rfl⟩
  | cons blank form apart later ih =>
    obtain ⟨first, rest⟩ := List.forall_mem_cons.1 regular
    rw [List.append_assoc, lexFrom_gap blank, lexFrom_token _ form first (later.free rest apart)]
    obtain ⟨tokens, good⟩ := ih rest _
    exact ⟨congrArg (List.cons _) tokens, good⟩

theorem parse_of_spaced {text : String} (spaced : Spaced ts text.toList)
    (regular : ∀ t ∈ ts, t.Regular) : Item.parse text = Item.ofTokens ts := by
  obtain ⟨tokens, good⟩ := spaced.lexed regular 0
  simp only [Item.parse, lex, good, tokens]

theorem ofTokens_of_parse {text : String} {item : Item} (parsed : Item.parse text = .ok item) :
    Item.ofTokens (lex text).tokens = .ok item := by
  simp only [Item.parse] at parsed
  split at parsed
  · cases parsed
  · exact parsed

theorem regular_of_passes {start : Nat} {ls : List Lexeme} {bad : Option (String × Span)}
    (h : Passes start text ls bad) : ∀ l ∈ ls, l.token.Regular := by
  induction h with
  | done => exact fun _ member => absurd member List.not_mem_nil
  | skip _ _ ih => exact ih
  | token _ regular _ _ ih => exact List.forall_mem_cons.2 ⟨regular, ih⟩
  | misfit => exact fun _ member => absurd member List.not_mem_nil

theorem regular_of_lex (text : String) : ∀ t ∈ (lex text).tokens, t.Regular := by
  intro t member
  obtain ⟨l, there, rfl⟩ := List.mem_map.1 member
  exact regular_of_passes (passes_lexFrom 0 text.toList) l there

/-! ## Every token can be written -/

theorem Spaced.skip (skipped : Skipped c) (spaced : Spaced ts text) : Spaced ts (c :: text) := by
  cases spaced with
  | nil blank => exact .nil (List.forall_mem_cons.2 ⟨skipped, blank⟩)
  | cons blank form apart later =>
    exact .cons (List.forall_mem_cons.2 ⟨skipped, blank⟩) form apart later

/-- No white space is needed in front of a token that is no word. -/
theorem Token.Form.spaced (form : t.Form piece) (next : ∀ u, ts.head? = some u → ¬ u.IsWord)
    (spaced : Spaced ts behind) : Spaced (t :: ts) (piece ++ behind) :=
  @Spaced.cons t ts [] piece behind nofun form (fun _ u same word => absurd word (next u same)) spaced

theorem Token.Form.spaced_alone (form : t.Form piece) : Spaced [t] piece := by
  have nothing : Spaced [] [] := .nil nofun
  have spaced : Spaced [t] (piece ++ []) := form.spaced nofun nothing
  rwa [List.append_nil] at spaced

theorem not_word_of_symbol (known : t.symbol? = some c) : ¬ t.IsWord := by
  cases t <;> cases known <;> exact id

theorem Spaced.mark (known : t.symbol? = some c) (spaced : Spaced ts behind) :
    Spaced (t :: ts) (c :: behind) :=
  @Spaced.cons t ts [] [c] behind nofun (.mark known)
    (fun word => absurd word (not_word_of_symbol known)) spaced

theorem exists_charForm (c : Char) : ∃ form, CharForm c form := by
  by_cases quote : c = '"'
  · subst quote
    exact ⟨_, .quote⟩
  · by_cases escape : c = '\\'
    · subst escape
      exact ⟨_, .backslash⟩
    · exact ⟨_, .plain quote escape⟩

theorem exists_textForm (cs : List Char) : ∃ body, TextForm cs body := by
  induction cs with
  | nil => exact ⟨[], .nil⟩
  | cons c cs ih =>
    obtain ⟨form, first⟩ := exists_charForm c
    obtain ⟨forms, later⟩ := ih
    exact ⟨form ++ forms, .cons first later⟩

theorem numeralValue_toDigits (n : Nat) : numeralValue (Nat.toDigits 10 n) = n := by
  rw [← decimal_eq_numeralValue]
  exact Nat.ofDigitChars_toDigits (by decide) (by decide)

theorem toDigits_numeral (n : Nat) : Nat.toDigits 10 n ∈ numeral :=
  mem_numeral.2 ⟨Nat.toDigits_ne_nil, fun _ member =>
    isDigit_iff.1 (Nat.isDigit_of_mem_toDigits (by decide) (by decide) member)⟩

theorem Token.form_int {n : Int64} (regular : 0 ≤ n.toInt) :
    Form (.int n) (Nat.toDigits 10 n.toInt.toNat) :=
  .int (toDigits_numeral _) (by rw [numeralValue_toDigits, Int.toNat_of_nonneg regular])

theorem Token.exists_form (t : Token) (regular : t.Regular) : ∃ piece, t.Form piece := by
  cases t with
  | int n => exact ⟨_, Token.form_int regular⟩
  | text s =>
    obtain ⟨body, form⟩ := exists_textForm s.toList
    exact ⟨_, .text form⟩
  | name x => exact ⟨_, .name x⟩
  | equals => exact ⟨['='], .mark rfl⟩
  | plus => exact ⟨['+'], .mark rfl⟩
  | minus => exact ⟨['-'], .mark rfl⟩
  | star => exact ⟨['*'], .mark rfl⟩
  | slash => exact ⟨['/'], .mark rfl⟩
  | percent => exact ⟨['%'], .mark rfl⟩
  | lparen => exact ⟨['('], .mark rfl⟩
  | rparen => exact ⟨[')'], .mark rfl⟩
  | comma => exact ⟨[','], .mark rfl⟩

theorem exists_spaced (regular : ∀ t ∈ ts, t.Regular) :
    ∃ text, Spaced ts text ∧ ∃ c, text.head? = some c ∧ Skipped c := by
  have blank : ∀ c ∈ [' '], Skipped c := List.forall_mem_singleton.2 (by decide)
  induction ts with
  | nil => exact ⟨[' '], .nil blank, ' ', rfl, by decide⟩
  | cons t ts ih =>
    obtain ⟨first, rest⟩ := List.forall_mem_cons.1 regular
    obtain ⟨behind, spaced, later⟩ := ih rest
    obtain ⟨piece, form⟩ := t.exists_form first
    exact ⟨_, .cons blank form (fun _ _ _ _ => later) spaced, ' ', rfl, by decide⟩

end Worksheet.Calc
