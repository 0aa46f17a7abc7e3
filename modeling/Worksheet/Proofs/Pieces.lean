import Worksheet.Proofs.Patterns
/-! How tokens are written, and what the lexer takes at one place of a text: a token in a form that
nothing behind it goes on with, or a piece that is no token. -/
namespace Worksheet.Calc

open Pattern

/-- How a character of a text is written inside quotes. -/
inductive CharForm : Char → List Char → Prop
  | plain {c : Char} : c ≠ '"' → c ≠ '\\' → CharForm c [c]
  | quote : CharForm '"' ['\\', '"']
  | backslash : CharForm '\\' ['\\', '\\']
  | feed : CharForm '\n' ['\\', 'n']
  | tab : CharForm '\t' ['\\', 't']

inductive TextForm : List Char → List Char → Prop
  | nil : TextForm [] []
  | cons {c : Char} {form cs forms : List Char} :
      CharForm c form → TextForm cs forms → TextForm (c :: cs) (form ++ forms)

/-- The ways to write a token. -/
inductive Token.Form : Token → List Char → Prop
  | int {n : Int64} {digits : List Char} :
      digits ∈ numeral → (numeralValue digits : Int) = n.toInt → Form (.int n) digits
  | text {s : String} {body : List Char} :
      TextForm s.toList body → Form (.text s) ('"' :: body ++ ['"'])
  | name (x : String) : Form (.name x) x.toList
  | mark {t : Token} {c : Char} : t.symbol? = some c → Form t [c]

namespace Token

/-- A token that stands in a text: integers have no sign, and names match their pattern. -/
def Regular : Token → Prop
  | int n => 0 ≤ n.toInt
  | name x => x.toList ∈ word
  | _ => True

/-- The text behind a token does not go on with it. -/
def Free : Token → List Char → Prop
  | int _, after => ∀ c, after.head? = some c → ¬ Digit c
  | name _, after => ∀ c, after.head? = some c → ¬ NamePart c
  | _, _ => True

theorem free_nil (t : Token) : t.Free [] := by
  cases t with
  | int n => exact nofun
  | name x => exact nofun
  | _ => trivial

end Token

/-- The piece in front is the longest one that is in the language. -/
def Longest (l : Language Char) (piece after : List Char) : Prop :=
  piece ∈ l ∧ ∀ other ∈ l, other <+: piece ++ after → other.length ≤ piece.length

/-- A piece at which the lexer stops, and the text behind it. -/
inductive Misfit : List Char → List Char → Prop
  | large {digits after : List Char} : Longest numeral digits after →
      2 ^ 63 - 1 < numeralValue digits → Misfit digits after
  | escape {front behind after : List Char} {c : Char} :
      front ∈ inside → behind ∈ inside → c ≠ '\n' → c ∉ ['n', 't', '"', '\\'] →
      Longest literal ('"' :: (front ++ '\\' :: c :: behind) ++ ['"']) after →
      Misfit ('"' :: (front ++ '\\' :: c :: behind) ++ ['"']) after
  | unclosed {piece after : List Char} : (∀ other ∈ literal, ¬ other <+: piece ++ after) →
      Longest opened piece after → Misfit piece after
  | stray {c : Char} {after : List Char} : ¬ Skipped c → c ≠ '"' →
      (∀ other ∈ token, ¬ other <+: c :: after) → Misfit [c] after

variable {c : Char} {t : Token} {piece after rest body cs : List Char}

/-! ## Escapes -/

theorem escaped?_iff {e : Char} : escaped? e = some c ↔ CharForm c ['\\', e] := by
  constructor
  · intro known
    unfold escaped? at known
    split at known
    · exact Option.some.inj known ▸ .feed
    · exact Option.some.inj known ▸ .tab
    · exact Option.some.inj known ▸ .quote
    · exact Option.some.inj known ▸ .backslash
    · cases known
  · rintro (_ | _) <;> rfl

theorem escaped?_none {e : Char} (unknown : escaped? e = none) : e ∉ ['n', 't', '"', '\\'] := by
  intro member
  simp only [List.mem_cons, List.not_mem_nil, or_false] at member
  rcases member with rfl | rfl | rfl | rfl <;> cases unknown

theorem unescape?_escape (e : Char) (more : List Char) :
    unescape? ('\\' :: e :: more) = (escaped? e).bind fun d => (unescape? more).map (d :: ·) := by
  rw [unescape?]

theorem unescape?_plain (no_escape : c ≠ '\\') (more : List Char) :
    unescape? (c :: more) = (unescape? more).map (c :: ·) := by
  rw [unescape?]
  · rintro rfl
    exact absurd rfl no_escape
  · rintro _ _ rfl
    exact absurd rfl no_escape

theorem CharForm.unescape? {form more : List Char} (h : CharForm c form) :
    unescape? (form ++ more) = (unescape? more).map (c :: ·) := by
  cases h with
  | plain _ no_escape => exact unescape?_plain no_escape more
  | _ => exact unescape?_escape _ more

theorem CharForm.inside {form more : List Char} (h : CharForm c form) (member : more ∈ inside) :
    form ++ more ∈ inside := by
  cases h with
  | plain no_quote no_escape => exact plain_inside no_quote no_escape member
  | _ => exact escape_inside (by decide) member

theorem TextForm.inside (h : TextForm cs body) : body ∈ inside := by
  induction h with
  | nil => exact nil_inside
  | cons form _ ih => exact form.inside ih

theorem TextForm.unescape? (h : TextForm cs body) : unescape? body = some cs := by
  induction h with
  | nil => rfl
  | cons form _ ih => rw [form.unescape?, ih, Option.map_some]

theorem textForm_of_unescape (member : body ∈ inside) (read : unescape? body = some cs) :
    TextForm cs body := by
  induction member using inside_induction generalizing cs with
  | nil =>
    cases read
    exact .nil
  | plain c more no_quote no_escape _ ih =>
    rw [unescape?_plain no_escape, Option.map_eq_some_iff] at read
    obtain ⟨cs, read, rfl⟩ := read
    exact .cons (.plain no_quote no_escape) (ih read)
  | escape e more _ _ ih =>
    rw [unescape?_escape, Option.bind_eq_some_iff] at read
    obtain ⟨d, known, later⟩ := read
    obtain ⟨ds, read, rfl⟩ := Option.map_eq_some_iff.1 later
    exact .cons (escaped?_iff.1 known) (ih read)

/-- Where the inside of a literal has no meaning, one of its escapes is unknown. -/
theorem unknown_of_unescape (member : body ∈ inside) (unread : unescape? body = none) :
    ∃ front e behind, body = front ++ '\\' :: e :: behind ∧ front ∈ inside ∧ behind ∈ inside ∧
      e ≠ '\n' ∧ e ∉ ['n', 't', '"', '\\'] := by
  induction member using inside_induction with
  | nil => cases unread
  | plain c more no_quote no_escape _ ih =>
    rw [unescape?_plain no_escape, Option.map_eq_none_iff] at unread
    obtain ⟨front, e, behind, rfl, before, later⟩ := ih unread
    exact ⟨c :: front, e, behind, rfl, plain_inside no_quote no_escape before, later⟩
  | escape e more no_feed inner ih =>
    cases known : escaped? e with
    | none => exact ⟨[], e, more, rfl, nil_inside, inner, no_feed, escaped?_none known⟩
    | some d =>
      rw [unescape?_escape, known, Option.bind_some, Option.map_eq_none_iff] at unread
      obtain ⟨front, e', behind, rfl, before, later⟩ := ih unread
      exact ⟨'\\' :: e :: front, e', behind, rfl, escape_inside no_feed before, later⟩

/-! ## The longest piece -/

/-- A prefix of one class is no longer than a piece behind which no character of the class stands. -/
theorem length_le_of_class {p : Char → Prop} {other : List Char} (each : ∀ c ∈ other, p c)
    (front : other <+: piece ++ after) (free : ∀ c, after.head? = some c → ¬ p c) :
    other.length ≤ piece.length := by
  by_contra longer
  obtain ⟨more, same⟩ := List.prefix_of_prefix_length_le (List.prefix_append piece after) front
    (Nat.le_of_not_le longer)
  cases more with
  | nil =>
    rw [List.append_nil] at same
    exact longer (same ▸ Nat.le_refl _)
  | cons c more =>
    rw [← same] at front each
    obtain ⟨behind, whole⟩ := front
    rw [List.append_assoc, List.append_cancel_left_eq] at whole
    exact free c (whole ▸ rfl) (each c (by simp))

/-- What a token that begins with this character can be. -/
theorem token_cases {more : List Char} (member : c :: more ∈ token) :
    (Digit c ∧ ∀ d ∈ c :: more, Digit d) ∨ (c = '"' ∧ c :: more ∈ literal) ∨
    (NameStart c ∧ ∀ d ∈ more, NamePart d) ∨ (Mark c ∧ more = []) := by
  rcases mem_token.1 member with member | member | member | ⟨_, mark, same⟩
  · have each := (mem_numeral.1 member).2
    exact Or.inl ⟨each c (List.mem_cons_self ..), each⟩
  · obtain ⟨_, _, same⟩ := mem_literal.1 member
    exact Or.inr (Or.inl ⟨(List.cons.inj same).1, member⟩)
  · obtain ⟨_, _, same, start, parts⟩ := mem_word.1 member
    cases same
    exact Or.inr (Or.inr (Or.inl ⟨start, parts⟩))
  · cases same
    exact Or.inr (Or.inr (Or.inr ⟨mark, rfl⟩))

theorem token_nonempty {other : List Char} (member : other ∈ token) : other ≠ [] := by
  rintro rfl
  rcases mem_token.1 member with member | member | member | ⟨_, _, same⟩
  · exact (mem_numeral.1 member).1 rfl
  · obtain ⟨_, _, same⟩ := mem_literal.1 member
    cases same
  · obtain ⟨_, _, same, _⟩ := mem_word.1 member
    cases same
  · cases same

theorem longest_numeral (digits : ∀ d ∈ c :: rest, Digit d)
    (free : ∀ d, after.head? = some d → ¬ Digit d) : Longest token (c :: rest) after := by
  have numeral : c :: rest ∈ numeral := mem_numeral.2 ⟨List.cons_ne_nil _ _, digits⟩
  refine ⟨mem_token.2 (Or.inl numeral), fun other member front => ?_⟩
  have first := digits c (List.mem_cons_self ..)
  cases other with
  | nil => exact Nat.zero_le _
  | cons d more =>
    cases (List.cons_prefix_cons.1 front).1
    rcases token_cases member with ⟨_, each⟩ | ⟨rfl, _⟩ | ⟨start, _⟩ | ⟨mark, _⟩
    · exact length_le_of_class each front free
    · exact absurd first (by decide)
    · exact absurd first (not_digit_of_nameStart start)
    · exact absurd first (not_digit_of_mark mark)

theorem longest_word (start : NameStart c) (parts : ∀ d ∈ rest, NamePart d)
    (free : ∀ d, after.head? = some d → ¬ NamePart d) : Longest token (c :: rest) after := by
  refine ⟨mem_token.2 (Or.inr (Or.inr (Or.inl (mem_word.2 ⟨c, rest, rfl, start, parts⟩)))),
    fun other member front => ?_⟩
  cases other with
  | nil => exact Nat.zero_le _
  | cons d more =>
    obtain ⟨same, behind⟩ := List.cons_prefix_cons.1 front
    cases same
    rcases token_cases member with ⟨digit, _⟩ | ⟨rfl, _⟩ | ⟨_, each⟩ | ⟨mark, _⟩
    · exact absurd digit (not_digit_of_nameStart start)
    · exact absurd start (by decide)
    · exact Nat.succ_le_succ (length_le_of_class each behind free)
    · exact absurd start (not_nameStart_of_mark mark)

/-- A literal ends at the first quote that ends it. -/
theorem eq_of_literal (member : body ∈ inside) {other : List Char} (literal : other ∈ literal)
    (front : other <+: '"' :: body ++ ['"'] ++ after) : other = '"' :: body ++ ['"'] := by
  obtain ⟨body', member', rfl⟩ := mem_literal.1 literal
  obtain ⟨after', same⟩ := front
  simp only [List.cons_append, List.append_assoc, List.nil_append, List.cons.injEq, true_and] at same
  have bodies := congrArg literalBody same
  rw [literalBody_append member', literalBody_append member, literalBody_quote, literalBody_quote,
    List.append_nil, List.append_nil] at bodies
  rw [bodies]

theorem longest_literal (member : body ∈ inside) : Longest token ('"' :: body ++ ['"']) after := by
  have whole : '"' :: body ++ ['"'] ∈ Pattern.literal := mem_literal.2 ⟨body, member, rfl⟩
  refine ⟨mem_token.2 (Or.inr (Or.inl whole)), fun other found front => ?_⟩
  cases other with
  | nil => exact Nat.zero_le _
  | cons d more =>
    cases (List.cons_prefix_cons.1 front).1
    rcases token_cases found with ⟨digit, _⟩ | ⟨_, literal⟩ | ⟨start, _⟩ | ⟨mark, _⟩
    · exact absurd digit (by decide)
    · rw [eq_of_literal member literal front]
    · exact absurd start (by decide)
    · exact absurd mark (by decide)

theorem longest_mark (mark : Mark c) : Longest token [c] after := by
  refine ⟨mem_token.2 (Or.inr (Or.inr (Or.inr ⟨c, mark, rfl⟩))), fun other member front => ?_⟩
  cases other with
  | nil => exact Nat.zero_le _
  | cons d more =>
    cases (List.cons_prefix_cons.1 front).1
    rcases token_cases member with ⟨digit, _⟩ | ⟨rfl, _⟩ | ⟨start, _⟩ | ⟨_, rfl⟩
    · exact absurd digit (not_digit_of_mark mark)
    · exact absurd mark (by decide)
    · exact absurd start (not_nameStart_of_mark mark)
    · exact Nat.le_refl _

theorem Longest.numeral {digits : List Char} (h : Longest token digits after)
    (member : digits ∈ numeral) : Longest numeral digits after :=
  ⟨member, fun other found => h.2 other (mem_token.2 (Or.inl found))⟩

/-- A written token with nothing behind that goes on with it is the longest piece of any pattern. -/
theorem Token.Form.longest (form : t.Form piece) (regular : t.Regular) (free : t.Free after) :
    Longest token piece after := by
  cases form with
  | int numeral _ =>
    obtain ⟨filled, each⟩ := mem_numeral.1 numeral
    cases piece with
    | nil => exact absurd rfl filled
    | cons d more => exact longest_numeral each free
  | text body => exact longest_literal body.inside
  | name x =>
    obtain ⟨d, more, same, start, parts⟩ := mem_word.1 regular
    rw [same]
    exact longest_word start parts free
  | mark known => exact longest_mark (mark_of_symbol known)

/-! ## The piece at one place -/

theorem pieceAt_digit (digit : Digit c) : pieceAt c rest =
    (c :: rest.takeWhile Char.isDigit, (intLiteral? (c :: rest.takeWhile Char.isDigit)).map .int) := by
  rw [pieceAt, if_pos (isDigit_iff.2 digit)]

theorem pieceAt_name (start : NameStart c) : pieceAt c rest =
    (c :: rest.takeWhile isNamePart,
      some (.name (String.ofList (c :: rest.takeWhile isNamePart)))) := by
  have no_digit : ¬ c.isDigit = true := mt isDigit_iff.1 (not_digit_of_nameStart start)
  rw [pieceAt, if_neg no_digit, if_pos (isNameStart_iff.2 start)]

theorem pieceAt_closed (member : body ∈ inside) : pieceAt '"' (body ++ '"' :: after) =
    ('"' :: body ++ ['"'], (unescape? body).map fun cs => .text (String.ofList cs)) := by
  have whole : literalBody (body ++ '"' :: after) = body := by
    rw [literalBody_append member, literalBody_quote, List.append_nil]
  have behind : (body ++ '"' :: after).drop body.length = '"' :: after := List.drop_left
  have no_digit : ¬ '"'.isDigit = true := by decide
  have no_name : ¬ isNameStart '"' = true := by decide
  simp only [pieceAt, if_neg no_digit, if_neg no_name, if_pos, whole, behind]

theorem pieceAt_open (open_end : ∀ more, rest.drop (literalBody rest).length ≠ '"' :: more) :
    pieceAt '"' rest = ('"' :: literalBody rest, none) := by
  have no_digit : ¬ '"'.isDigit = true := by decide
  have no_name : ¬ isNameStart '"' = true := by decide
  simp only [pieceAt, if_neg no_digit, if_neg no_name, if_pos]

theorem pieceAt_mark (no_digit : ¬ Digit c) (no_name : ¬ NameStart c) (no_quote : c ≠ '"') :
    pieceAt c rest = ([c], Token.ofMark? c) := by
  rw [pieceAt, if_neg (mt isDigit_iff.1 no_digit), if_neg (mt isNameStart_iff.1 no_name),
    if_neg no_quote]

theorem takeWhile_free {p : Char → Bool} {q : Char → Prop} (same : ∀ c, p c = true ↔ q c)
    (each : ∀ c ∈ piece, q c) (free : ∀ c, after.head? = some c → ¬ q c) :
    (piece ++ after).takeWhile p = piece := by
  rw [List.takeWhile_append_of_pos fun c member => (same c).2 (each c member)]
  cases after with
  | nil => rw [List.takeWhile_nil, List.append_nil]
  | cons c more => rw [List.takeWhile_cons_of_neg (mt (same c).1 (free c rfl)), List.append_nil]

theorem intLiteral?_eq {digits : List Char} {n : Int64}
    (value : (numeralValue digits : Int) = n.toInt) : intLiteral? digits = some n := by
  rw [← decimal_eq_numeralValue] at value
  have least := n.toInt_lt
  have small : Text.decimal digits ≤ 9223372036854775807 := by omega
  have same : Int64.ofNat (Text.decimal digits) = n :=
    Int64.toInt_inj.1 ((Int64.toInt_ofNat_of_lt (by omega)).trans value)
  rw [intLiteral?, if_pos small, same]

/-- A written token is what the lexer takes where nothing behind goes on with it. -/
theorem Token.Form.pieceAt (form : t.Form piece) (regular : t.Regular) (free : t.Free after) :
    ∃ c more, piece = c :: more ∧ ¬ Skipped c ∧ pieceAt c (more ++ after) = (piece, some t) := by
  cases form with
  | int numeral value =>
    obtain ⟨filled, each⟩ := mem_numeral.1 numeral
    cases piece with
    | nil => exact absurd rfl filled
    | cons d more =>
      obtain ⟨digit, digits⟩ := List.forall_mem_cons.1 each
      refine ⟨d, more, rfl, fun skipped => (skipped_apart skipped).1 digit, ?_⟩
      rw [pieceAt_digit digit, takeWhile_free (fun _ => isDigit_iff) digits free, intLiteral?_eq value]
      rfl
  | text body =>
    rename_i s inner
    refine ⟨'"', inner ++ ['"'], rfl, by decide, ?_⟩
    rw [List.append_assoc, List.singleton_append, pieceAt_closed body.inside, body.unescape?,
      Option.map_some, String.ofList_toList]
  | name x =>
    obtain ⟨d, more, same, start, parts⟩ := mem_word.1 regular
    refine ⟨d, more, same, fun skipped => (skipped_apart skipped).2.1 start, ?_⟩
    · rw [pieceAt_name start, takeWhile_free (fun _ => isNamePart_iff) parts free, ← same,
        String.ofList_toList]
  | mark known =>
    rename_i d
    have mark : Mark d := mark_of_symbol known
    refine ⟨d, [], rfl, fun skipped => (skipped_apart skipped).2.2 mark, ?_⟩
    · rw [pieceAt_mark (not_digit_of_mark mark) (not_nameStart_of_mark mark), ofMark?_iff.2 known]
      rintro rfl
      exact absurd mark (by decide)

/-- What the lexer takes at one place. -/
inductive Piece : List Char → Option Token → List Char → Prop
  | token {t : Token} {piece after : List Char} :
      t.Form piece → t.Regular → t.Free after → Piece piece (some t) after
  | misfit {piece after : List Char} : piece ≠ [] → Misfit piece after → Piece piece none after

theorem takeWhile_head {p : Char → Bool} {q : Char → Prop} (same : ∀ c, p c = true ↔ q c)
    (rest : List Char) : ∀ c, (rest.dropWhile p).head? = some c → ¬ q c := by
  intro c first good
  have stopped := List.head?_dropWhile_not p rest
  rw [first] at stopped
  exact absurd (stopped.symm.trans ((same c).2 good)) Bool.false_ne_true

theorem piece_digit (digit : Digit c) : ∃ piece t after, pieceAt c rest = (piece, t) ∧
    c :: rest = piece ++ after ∧ Piece piece t after := by
  have digits : ∀ d ∈ c :: rest.takeWhile Char.isDigit, Digit d := by
    refine List.forall_mem_cons.2 ⟨digit, fun d member => isDigit_iff.1 ?_⟩
    exact List.all_eq_true.1 List.all_takeWhile d member
  have numeral : c :: rest.takeWhile Char.isDigit ∈ numeral :=
    mem_numeral.2 ⟨List.cons_ne_nil _ _, digits⟩
  have free : ∀ d, (rest.dropWhile Char.isDigit).head? = some d → ¬ Digit d :=
    takeWhile_head (fun _ => isDigit_iff) rest
  refine ⟨_, _, rest.dropWhile Char.isDigit, pieceAt_digit digit, by simp, ?_⟩
  rw [intLiteral?, decimal_eq_numeralValue]
  split
  · rename_i small
    have below : numeralValue (c :: rest.takeWhile Char.isDigit) < 2 ^ 63 := by omega
    have value := Int64.toInt_ofNat_of_lt below
    refine .token (.int numeral value.symm) ?_ free
    rw [Token.Regular, value]
    exact Int.natCast_nonneg _
  · rename_i large
    exact .misfit (List.cons_ne_nil _ _)
      (.large ((longest_numeral digits free).numeral numeral) (by omega))

theorem piece_name (start : NameStart c) : ∃ piece t after, pieceAt c rest = (piece, t) ∧
    c :: rest = piece ++ after ∧ Piece piece t after := by
  have parts : ∀ d ∈ rest.takeWhile isNamePart, NamePart d :=
    fun d member => isNamePart_iff.1 (List.all_eq_true.1 List.all_takeWhile d member)
  refine ⟨_, _, rest.dropWhile isNamePart, pieceAt_name start, by simp, ?_⟩
  have form := Token.Form.name (String.ofList (c :: rest.takeWhile isNamePart))
  rw [String.toList_ofList] at form
  refine .token form ?_ (takeWhile_head (fun _ => isNamePart_iff) rest)
  rw [Token.Regular, String.toList_ofList]
  exact mem_word.2 ⟨c, _, rfl, start, parts⟩

theorem exists_closed (closed : ∃ other ∈ literal, other <+: '"' :: rest) :
    ∃ body after, body ∈ inside ∧ rest = body ++ '"' :: after := by
  obtain ⟨other, found, after, same⟩ := closed
  obtain ⟨body, member, rfl⟩ := mem_literal.1 found
  refine ⟨body, after, member, ?_⟩
  rw [List.cons_append, List.cons_append, List.append_assoc] at same
  exact (List.cons.inj same).2.symm

theorem literalBody_prefix (rest : List Char) : literalBody rest <+: rest := by
  fun_induction literalBody rest with
  | case1 => exact List.nil_prefix
  | case2 c rest _ ih => exact List.cons_prefix_cons.2 ⟨rfl, List.cons_prefix_cons.2 ⟨rfl, ih⟩⟩
  | case3 => exact List.nil_prefix
  | case4 c rest _ _ ih => exact List.cons_prefix_cons.2 ⟨rfl, ih⟩
  | case5 => exact List.nil_prefix

theorem longest_opened (split : rest = literalBody rest ++ after) :
    Longest opened ('"' :: literalBody rest) after := by
  refine ⟨mem_opened.2 ⟨_, literalBody_inside rest, rfl⟩, fun other found front => ?_⟩
  obtain ⟨body, member, rfl⟩ := mem_opened.1 found
  rw [List.cons_append, ← split] at front
  obtain ⟨behind, same⟩ := (List.cons_prefix_cons.1 front).2
  rw [← same, literalBody_append member]
  simp

theorem piece_quote (rest : List Char) : ∃ piece t after, pieceAt '"' rest = (piece, t) ∧
    '"' :: rest = piece ++ after ∧ Piece piece t after := by
  by_cases closed : ∃ other ∈ literal, other <+: '"' :: rest
  · obtain ⟨body, after, member, rfl⟩ := exists_closed closed
    have whole : '"' :: (body ++ '"' :: after) = '"' :: body ++ ['"'] ++ after := by simp
    refine ⟨_, _, after, pieceAt_closed member, whole, ?_⟩
    cases read : unescape? body with
    | some cs =>
      have form := textForm_of_unescape member read
      rw [← String.toList_ofList (l := cs)] at form
      exact .token (.text form) trivial trivial
    | none =>
      obtain ⟨front, e, behind, rfl, before, later, no_feed, unknown⟩ :=
        unknown_of_unescape member read
      refine .misfit (List.cons_ne_nil _ _) (.escape before later no_feed unknown ?_)
      refine ⟨mem_literal.2 ⟨_, member, rfl⟩, fun other found front => ?_⟩
      rw [eq_of_literal member found front]
  · obtain ⟨after, split⟩ := literalBody_prefix rest
    have open_end : ∀ more, rest.drop (literalBody rest).length ≠ '"' :: more := by
      intro more same
      have behind : (literalBody rest ++ after).drop (literalBody rest).length = after :=
        List.drop_left
      rw [split, same] at behind
      exact closed ⟨_, mem_literal.2 ⟨_, literalBody_inside rest, rfl⟩, more, by
        rw [List.cons_append, List.cons_append, List.append_assoc, List.singleton_append, behind,
          split]⟩
    have whole : '"' :: rest = '"' :: literalBody rest ++ after := by rw [List.cons_append, split]
    refine ⟨_, _, after, pieceAt_open open_end, whole, ?_⟩
    refine .misfit (List.cons_ne_nil _ _) (.unclosed ?_ (longest_opened split.symm))
    exact fun other found front => closed ⟨other, found, whole ▸ front⟩

theorem piece_other (visible : ¬ Skipped c) (no_digit : ¬ Digit c) (no_name : ¬ NameStart c)
    (no_quote : c ≠ '"') : ∃ piece t after, pieceAt c rest = (piece, t) ∧
    c :: rest = piece ++ after ∧ Piece piece t after := by
  refine ⟨_, _, rest, pieceAt_mark no_digit no_name no_quote, rfl, ?_⟩
  cases known : Token.ofMark? c with
  | some t =>
    have regular : t.Regular ∧ t.Free rest := by
      unfold Token.ofMark? at known
      split at known <;> cases known <;> exact ⟨trivial, trivial⟩
    exact .token (.mark (ofMark?_iff.1 known)) regular.1 regular.2
  | none =>
    have no_mark : ¬ Mark c := by
      rw [← ofMark?_isSome, known]
      decide
    refine .misfit (List.cons_ne_nil _ _) (.stray visible no_quote fun other member front => ?_)
    cases other with
    | nil => exact token_nonempty member rfl
    | cons d more =>
      cases (List.cons_prefix_cons.1 front).1
      rcases token_cases member with ⟨digit, _⟩ | ⟨quote, _⟩ | ⟨start, _⟩ | ⟨mark, _⟩
      · exact no_digit digit
      · exact no_quote quote
      · exact no_name start
      · exact no_mark mark

theorem piece_at (visible : ¬ Skipped c) (rest : List Char) : ∃ piece t after,
    pieceAt c rest = (piece, t) ∧ c :: rest = piece ++ after ∧ Piece piece t after := by
  by_cases digit : Digit c
  · exact piece_digit digit
  · by_cases start : NameStart c
    · exact piece_name start
    · by_cases quote : c = '"'
      · exact quote ▸ piece_quote rest
      · exact piece_other visible digit start quote

/-! ## The lexer from one place to the next -/

theorem lexFrom_skip (start : Nat) (skipped : Skipped c) (rest : List Char) :
    lexFrom start (c :: rest) = lexFrom (start + c.utf8Size) rest := by
  rw [lexFrom, if_pos (isSkipped_iff.2 skipped)]

theorem lexFrom_token (start : Nat) (form : t.Form piece) (regular : t.Regular) (free : t.Free after) :
    lexFrom start (piece ++ after) =
      ⟨⟨t, ⟨start, start + Text.byteLength piece⟩⟩ ::
        (lexFrom (start + Text.byteLength piece) after).lexemes,
        (lexFrom (start + Text.byteLength piece) after).bad⟩ := by
  obtain ⟨c, more, rfl, visible, taken⟩ := form.pieceAt regular free
  rw [List.cons_append, lexFrom, if_neg (mt isSkipped_iff.1 visible)]
  simp only [taken, List.length_cons, Nat.add_sub_cancel, List.drop_left]

theorem bad_lexFrom_token (start : Nat) (form : t.Form piece) (regular : t.Regular)
    (after : List Char) (free : t.Free after) :
    (lexFrom start (piece ++ after)).bad = (lexFrom (start + Text.byteLength piece) after).bad := by
  rw [lexFrom_token start form regular free]

theorem lexFrom_misfit (start : Nat) (visible : ¬ Skipped c) (taken : pieceAt c rest = (piece, none)) :
    lexFrom start (c :: rest) =
      ⟨[], some (String.ofList piece, ⟨start, start + Text.byteLength piece⟩)⟩ := by
  rw [lexFrom, if_neg (mt isSkipped_iff.1 visible)]
  simp only [taken]

end Worksheet.Calc
