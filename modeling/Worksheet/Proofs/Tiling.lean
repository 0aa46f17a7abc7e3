import Worksheet.Proofs.Pieces
/-! The tokens tile the text. Main statement: the spans of the tokens stand one behind the other on
character boundaries, each around the longest piece of any pattern, and outside them and before the
piece at which the lexer stops there is only white space. -/
namespace Worksheet.Text

theorem byteLength_cons (c : Char) (cs : List Char) :
    byteLength (c :: cs) = c.utf8Size + byteLength cs := rfl

theorem byteLength_append (cs ds : List Char) :
    byteLength (cs ++ ds) = byteLength cs + byteLength ds := by
  induction cs with
  | nil => exact (Nat.zero_add _).symm
  | cons c cs ih => rw [List.cons_append, byteLength_cons, byteLength_cons, ih, Nat.add_assoc]

theorem byteLength_pos {cs : List Char} (filled : cs ≠ []) : 0 < byteLength cs := by
  cases cs with
  | nil => exact absurd rfl filled
  | cons c cs => exact Nat.add_pos_left c.utf8Size_pos _

end Worksheet.Text

namespace Worksheet.Calc

open Pattern Text

/-- What a text is before a span, in it and behind it. The text begins at the byte `start`. -/
structure Cuts (start : Nat) (text : List Char) (span : Span) (before slice after : List Char) :
    Prop where
  whole : text = before ++ slice ++ after
  begins : span.start = start + byteLength before
  ends : span.stop = span.start + byteLength slice
  filled : slice ≠ []

/-- Around the token stands a longest piece, which is the same token when it is lexed alone. -/
structure Tile (token : Token) (slice after : List Char) : Prop where
  longest : Longest Pattern.token slice after
  form : token.Form slice
  alone : lex (String.ofList slice) = ⟨[⟨token, ⟨0, byteLength slice⟩⟩], none⟩

structure Tiling (start : Nat) (text : List Char) (lexed : Lexed) : Prop where
  tiles : ∀ l ∈ lexed.lexemes,
    ∃ before slice after, Cuts start text l.span before slice after ∧ Tile l.token slice after
  proper : ∀ l ∈ lexed.lexemes, l.span.start < l.span.stop
  ascending : lexed.lexemes.Pairwise fun a b => a.span.stop ≤ b.span.start
  stopped : ∀ piece span, lexed.bad = some (piece, span) →
    (∃ before after, Cuts start text span before piece.toList after ∧ Misfit piece.toList after) ∧
    ∀ l ∈ lexed.lexemes, l.span.stop ≤ span.start
  gaps : ∀ before c after, text = before ++ c :: after → Skipped c ∨
    (∃ l ∈ lexed.lexemes, l.span.start ≤ start + byteLength before ∧
      start + byteLength before < l.span.stop) ∨
    ∃ piece span, lexed.bad = some (piece, span) ∧ span.start ≤ start + byteLength before

/-- How the lexer goes through a text, one character of white space or one piece at a time. -/
inductive Passes : Nat → List Char → List Lexeme → Option (String × Span) → Prop
  | done {start : Nat} : Passes start [] [] none
  | skip {start : Nat} {c : Char} {rest : List Char} {ls : List Lexeme} {bad : Option (String × Span)} :
      Skipped c → Passes (start + byteLength [c]) rest ls bad → Passes start ([c] ++ rest) ls bad
  | token {start : Nat} {t : Token} {piece after : List Char} {ls : List Lexeme}
      {bad : Option (String × Span)} : t.Form piece → t.Regular → t.Free after →
      Passes (start + byteLength piece) after ls bad →
      Passes start (piece ++ after) (⟨t, ⟨start, start + byteLength piece⟩⟩ :: ls) bad
  | misfit {start : Nat} {piece after : List Char} : piece ≠ [] → Misfit piece after →
      Passes start (piece ++ after) []
        (some (String.ofList piece, ⟨start, start + byteLength piece⟩))

theorem passes_lexFrom (start : Nat) (text : List Char) :
    Passes start text (lexFrom start text).lexemes (lexFrom start text).bad := by
  obtain ⟨n, length⟩ : ∃ n, n = text.length := ⟨_, rfl⟩
  induction n using Nat.strongRecOn generalizing start text with
  | ind n ih =>
    cases text with
    | nil =>
      rw [lexFrom]
      exact .done
    | cons c rest =>
      by_cases skipped : Skipped c
      · rw [lexFrom_skip start skipped]
        exact .skip skipped (ih rest.length (by simp [length]) _ rest rfl)
      · obtain ⟨piece, t, after, taken, whole, found⟩ := piece_at skipped rest
        cases found with
        | token form regular free =>
          obtain ⟨_, _, rfl, _⟩ := form.pieceAt regular free
          have shorter : after.length < n := by
            rw [length, whole, List.length_append, List.length_cons]
            omega
          rw [whole, lexFrom_token start form regular free]
          exact .token form regular free (ih _ shorter _ after rfl)
        | misfit filled misfit =>
          rw [lexFrom_misfit start skipped taken, whole]
          exact .misfit filled misfit

variable {start : Nat} {text : List Char} {ls : List Lexeme} {bad : Option (String × Span)}

theorem Cuts.behind {rest before slice after : List Char} {span : Span} (front : List Char)
    (cuts : Cuts (start + byteLength front) rest span before slice after) :
    Cuts start (front ++ rest) span (front ++ before) slice after := by
  refine ⟨?_, ?_, cuts.ends, cuts.filled⟩
  · rw [cuts.whole, List.append_assoc, List.append_assoc, List.append_assoc]
  · rw [cuts.begins, byteLength_append, Nat.add_assoc]

theorem Cuts.start_le {before slice after : List Char} {span : Span}
    (cuts : Cuts start text span before slice after) : start ≤ span.start :=
  cuts.begins ▸ Nat.le_add_right _ _

theorem Cuts.proper {before slice after : List Char} {span : Span}
    (cuts : Cuts start text span before slice after) : span.start < span.stop :=
  cuts.ends ▸ Nat.lt_add_of_pos_right (byteLength_pos cuts.filled)

theorem Token.Form.filled {t : Token} {piece : List Char} (form : t.Form piece) (regular : t.Regular) :
    piece ≠ [] := by
  obtain ⟨_, _, rfl, _⟩ := form.pieceAt regular t.free_nil
  exact List.cons_ne_nil _ _

theorem Token.Form.tile {t : Token} {piece after : List Char} (form : t.Form piece)
    (regular : t.Regular) (free : t.Free after) : Tile t piece after := by
  refine ⟨form.longest regular free, form, ?_⟩
  have alone := lexFrom_token 0 form regular t.free_nil
  rw [List.append_nil, lexFrom, Nat.zero_add] at alone
  rw [lex, String.toList_ofList, alone]

theorem Passes.tiles (h : Passes start text ls bad) : ∀ l ∈ ls,
    ∃ before slice after, Cuts start text l.span before slice after ∧ Tile l.token slice after := by
  induction h with
  | done => exact fun _ member => absurd member List.not_mem_nil
  | skip _ _ ih =>
    intro l member
    obtain ⟨_, _, _, cuts, tile⟩ := ih l member
    exact ⟨_, _, _, cuts.behind _, tile⟩
  | token form regular free _ ih =>
    intro l member
    rcases List.mem_cons.1 member with rfl | member
    · exact ⟨[], _, _, ⟨rfl, rfl, rfl, form.filled regular⟩, form.tile regular free⟩
    · obtain ⟨_, _, _, cuts, tile⟩ := ih l member
      exact ⟨_, _, _, cuts.behind _, tile⟩
  | misfit => exact fun _ member => absurd member List.not_mem_nil

theorem Passes.stopped (h : Passes start text ls bad) {piece : String} {span : Span}
    (found : bad = some (piece, span)) :
    ∃ before after, Cuts start text span before piece.toList after ∧ Misfit piece.toList after := by
  induction h with
  | done => cases found
  | skip _ _ ih =>
    obtain ⟨_, _, cuts, misfit⟩ := ih found
    exact ⟨_, _, cuts.behind _, misfit⟩
  | token _ _ _ _ ih =>
    obtain ⟨_, _, cuts, misfit⟩ := ih found
    exact ⟨_, _, cuts.behind _, misfit⟩
  | misfit filled misfit =>
    cases found
    rw [String.toList_ofList]
    exact ⟨[], _, ⟨rfl, rfl, rfl, filled⟩, misfit⟩

theorem Passes.ascending (h : Passes start text ls bad) :
    ls.Pairwise fun a b => a.span.stop ≤ b.span.start := by
  induction h with
  | done => exact .nil
  | skip _ _ ih => exact ih
  | token _ _ _ later ih =>
    refine .cons (fun l member => ?_) ih
    obtain ⟨_, _, _, cuts, _⟩ := later.tiles l member
    exact cuts.start_le
  | misfit => exact .nil

theorem Passes.before_stop (h : Passes start text ls bad) {piece : String} {span : Span}
    (found : bad = some (piece, span)) : ∀ l ∈ ls, l.span.stop ≤ span.start := by
  induction h with
  | done => exact fun _ member => absurd member List.not_mem_nil
  | skip _ _ ih => exact ih found
  | token _ _ _ later ih =>
    intro l member
    rcases List.mem_cons.1 member with rfl | member
    · obtain ⟨_, _, cuts, _⟩ := later.stopped found
      exact cuts.start_le
    · exact ih found l member
  | misfit => exact fun _ member => absurd member List.not_mem_nil

/-- A character of two texts in a row is one of the first or of the second. -/
theorem place_cases {front rest before behind : List Char} {c : Char}
    (same : front ++ rest = before ++ c :: behind) :
    (∃ inner, front = before ++ c :: inner) ∨
    ∃ more, before = front ++ more ∧ rest = more ++ c :: behind := by
  rcases List.append_eq_append_iff.1 same with ⟨more, before_eq, rest_eq⟩ | ⟨inner, front_eq, behind_eq⟩
  · exact Or.inr ⟨more, before_eq, rest_eq⟩
  · cases inner with
    | nil => exact Or.inr ⟨[], by rw [front_eq, List.append_nil, List.append_nil], behind_eq.symm⟩
    | cons d inner =>
      cases (List.cons.inj behind_eq).1
      exact Or.inl ⟨inner, front_eq⟩

theorem Passes.gaps (h : Passes start text ls bad) : ∀ before c after, text = before ++ c :: after →
    Skipped c ∨
    (∃ l ∈ ls, l.span.start ≤ start + byteLength before ∧ start + byteLength before < l.span.stop) ∨
    ∃ piece span, bad = some (piece, span) ∧ span.start ≤ start + byteLength before := by
  induction h with
  | done => exact fun before c after whole => absurd whole.symm (by simp)
  | skip skipped _ ih =>
    intro before c after whole
    rcases place_cases whole with ⟨inner, here⟩ | ⟨more, rfl, rest⟩
    · have member := List.mem_append_right before (List.mem_cons_self (a := c) (l := inner))
      rw [← here, List.mem_singleton] at member
      exact Or.inl (member ▸ skipped)
    · rw [byteLength_append, ← Nat.add_assoc]
      exact ih more c after rest
  | token _ _ _ _ ih =>
    intro before c after whole
    rcases place_cases whole with ⟨inner, rfl⟩ | ⟨more, rfl, rest⟩
    · refine Or.inr (Or.inl ⟨_, List.mem_cons_self .., Nat.le_add_right _ _, ?_⟩)
      rw [byteLength_append]
      exact Nat.add_lt_add_left (Nat.lt_add_of_pos_right (byteLength_pos (List.cons_ne_nil _ _))) _
    · rw [byteLength_append, ← Nat.add_assoc]
      refine (ih more c after rest).imp_right (Or.imp_left ?_)
      rintro ⟨l, member, within⟩
      exact ⟨l, List.mem_cons_of_mem _ member, within⟩
  | misfit => exact fun _ _ _ _ => Or.inr (Or.inr ⟨_, _, rfl, Nat.le_add_right _ _⟩)

/-- The tokens of a text up to the first piece that is none, and that piece, tile the text. -/
theorem tiling_of_lex (text : String) : Tiling 0 text.toList (lex text) := by
  have passes : Passes 0 text.toList (lex text).lexemes (lex text).bad := passes_lexFrom 0 text.toList
  refine ⟨passes.tiles, fun l member => ?_, passes.ascending, fun piece span found => ?_, passes.gaps⟩
  · obtain ⟨_, _, _, cuts, _⟩ := passes.tiles l member
    exact cuts.proper
  · exact ⟨passes.stopped found, passes.before_stop found⟩

end Worksheet.Calc
