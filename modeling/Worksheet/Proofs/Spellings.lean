import Mathlib.Data.List.Forall2
import Mathlib.Data.List.TakeWhile
import Worksheet.Proofs.Trees
/-! Texts that have the same tokens. White space may stand before every token, and a string may be
spelled in many ways; neither makes a difference to a reader. -/
namespace Worksheet.Json

variable {α β : Type} {text rest space : List Char}

/-! ## Tokens in a text -/

abbrev Token := List Char

/-- A text of these tokens, with white space before each of them and this rest behind the last. -/
inductive Spread (rest : List Char) : List Token → List Char → Prop
  | nil : Spread rest [] rest
  | cons {token : Token} {tokens : List Token} {space text : List Char} :
    Blank space → Spread rest tokens text → Spread rest (token :: tokens) (space ++ (token ++ text))

namespace Spread

variable {token : Token} {ts us : List Token}

theorem behind (h : Spread rest (token :: ts) text) :
    ∃ space more, text = space ++ (token ++ more) ∧ Blank space ∧ Spread rest ts more := by
  cases h with
  | cons blank h => exact ⟨_, _, rfl, blank, h⟩

theorem split (h : Spread rest (ts ++ us) text) :
    ∃ middle, Spread middle ts text ∧ Spread rest us middle := by
  induction ts generalizing text with
  | nil => exact ⟨text, .nil, h⟩
  | cons token ts ih =>
    obtain ⟨space, more, rfl, blank, h⟩ := h.behind
    obtain ⟨middle, front, back⟩ := ih h
    exact ⟨middle, .cons blank front, back⟩

theorem joined (front : Spread text ts space) (back : Spread rest us text) :
    Spread rest (ts ++ us) space := by
  induction front with
  | nil => exact back
  | cons blank _ ih => exact .cons blank ih

theorem ends {c : Char} (h : Spread rest ((c :: token) :: ts) text) (other : goesOn c = false) :
    Ends text := by
  obtain ⟨space, more, rfl, blank, -⟩ := h.behind
  exact blank.ends (ends_cons other)

end Spread

/-- Takes tokens off the front of a text, each with the white space before it. -/
def strip? : List Token → List Char → Option (List Char)
  | [], text => some text
  | token :: ts, text => (token.isPrefixOf? (text.dropWhile isSpace)).bind (strip? ts)

theorem Spread.of_strip {ts : List Token} (h : strip? ts text = some rest) :
    Spread rest ts text := by
  induction ts generalizing text with
  | nil =>
    cases h
    exact .nil
  | cons token ts ih =>
    obtain ⟨more, front, later⟩ := Option.bind_eq_some_iff.1 h
    have split : text = text.takeWhile isSpace ++ (token ++ more) := by
      rw [List.isPrefixOf?_eq_some_iff_append_eq.1 front, List.takeWhile_append_dropWhile]
    rw [split]
    exact .cons (fun c member => List.mem_takeWhile_imp member) (ih later)

/-- A mark is read behind its white space. -/
theorem Spread.mark {c : Char} {ts : List Token} (h : Spread rest ([c] :: ts) text)
    (otherwise : List Char → Fault) (mark : isSpace c = false) :
    ∃ more, Yields (readMark c otherwise text) () more ∧ Spread rest ts more := by
  obtain ⟨space, more, rfl, blank, h⟩ := h.behind
  exact ⟨more, yields_readMark otherwise more blank mark, h⟩

/-- The character that tokens begin with. -/
def first? (ts : List Token) : Option Char := ts.head?.bind List.head?

theorem Spread.first {ts : List Token} {c : Char} (h : Spread rest ts text)
    (first : first? ts = some c) :
    ∃ space more, text = space ++ c :: more ∧ Blank space ∧ Spread rest ts (c :: more) := by
  cases h with
  | nil => cases first
  | @cons token ts space text blank h =>
    cases token with
    | nil => cases first
    | cons d token =>
      cases first
      exact ⟨space, token ++ text, rfl, blank, .cons blank_nil h⟩

/-- Tokens that do not begin with white space or with what closes an array. -/
def Opens (ts : List Token) : Prop := ∃ c, first? ts = some c ∧ isSpace c = false ∧ c ≠ ']'

/-- A reader takes this value from these tokens, whatever white space is before each of them, with
anything behind them that does not go on a number. -/
structure Reads (read : Reader α) (ts : List Token) (value : α) : Prop where
  opens : Opens ts
  yields {text rest : List Char} : Spread rest ts text → Ends rest → Yields (read text) value rest

theorem Reads.map {read : Reader α} {ts : List Token} {value : α} (f : α → β)
    (h : Reads read ts value) : Reads (read.map f) ts (f value) :=
  ⟨h.opens, fun spread ends => (h.yields spread ends).map f⟩

/-- Tokens are read whole wherever white space stands between, before and behind them. -/
theorem Reads.readAll {read : Reader α} {ts : List Token} {value : α} (h : Reads read ts value)
    (blank : Blank space) (spread : Spread space ts text) : readAll read text = .ok value := by
  have nothing : Ends ([] : List Char) := nofun
  have ends := blank.ends nothing
  rw [List.append_nil] at ends
  exact (h.yields spread ends).readAll blank

/-! ## Words and numbers -/

def nullToken : Token := ['n', 'u', 'l', 'l']

theorem reads_null : Reads readNull [nullToken] () := by
  refine ⟨⟨'n', rfl, rfl, by decide⟩, fun spread _ => ?_⟩
  obtain ⟨space, more, rfl, blank, spread⟩ := spread.behind
  cases spread
  exact yields_readNull blank

theorem reads_none (read : Reader α) : Reads (readOption read) [nullToken] none := by
  refine ⟨⟨'n', rfl, rfl, by decide⟩, fun spread _ => ?_⟩
  obtain ⟨space, more, rfl, blank, spread⟩ := spread.behind
  cases spread
  exact yields_none read blank

theorem Reads.some {read : Reader α} {ts : List Token} {value : α} (h : Reads read ts value)
    (present : first? ts ≠ some 'n') : Reads (readOption read) ts (some value) := by
  refine ⟨h.opens, fun spread ends => ?_⟩
  obtain ⟨c, first, mark, -⟩ := h.opens
  obtain ⟨space, more, rfl, blank, spread⟩ := spread.first first
  refine .some blank mark ?_ (h.yields spread ends)
  rintro rfl
  exact present first

def wholeToken (n : UInt64) : Token := Nat.toDigits 10 n.toNat

theorem reads_whole (n : UInt64) : Reads readWhole [wholeToken n] n := by
  constructor
  · obtain ⟨d, ds, written, digit⟩ := toDigits_first n.toNat
    refine ⟨d, by rw [wholeToken, written]; rfl, not_space_of_digit digit, ?_⟩
    rintro rfl
    exact absurd digit (by decide)
  · intro text rest spread ends
    obtain ⟨space, more, rfl, blank, spread⟩ := spread.behind
    cases spread
    exact yields_readWhole n blank ends

/-! ## Strings -/

/-- How a part of a string may be spelled: a character as it stands, a backslash and a letter for a
character, or a backslash and four digits for a number. -/
inductive Letter
  | plain (c : Char) (fits : c ≠ '"' ∧ c ≠ '\\' ∧ 0x20 ≤ c.toNat)
  | short (e c : Char) (known : letter? e = some c)
  | unit (a b c d : Char) (n : Nat) (known : hexDigits? a b c d = some n)

def Letter.written : Letter → List Char
  | plain c _ => [c]
  | short e _ _ => ['\\', e]
  | unit a b c d _ _ => ['\\', 'u', a, b, c, d]

/-- The string token of these letters. -/
def quoted (ls : List Letter) : Token := '"' :: (ls.flatMap Letter.written ++ ['"'])

/-- The characters that letters spell. Two numbers may make a pair for one character, and neither
half of a pair spells anything by itself. -/
inductive Spells : List Letter → List Char → Prop
  | nil : Spells [] []
  | plain {c : Char} {ls : List Letter} {cs : List Char} (fits : c ≠ '"' ∧ c ≠ '\\' ∧ 0x20 ≤ c.toNat) :
    Spells ls cs → Spells (.plain c fits :: ls) (c :: cs)
  | short {e c : Char} {ls : List Letter} {cs : List Char} (known : letter? e = some c) :
    Spells ls cs → Spells (.short e c known :: ls) (c :: cs)
  | unit {a b c d : Char} {n : Nat} {ls : List Letter} {cs : List Char}
    (known : hexDigits? a b c d = some n) : isHighSurrogate n = false → isLowSurrogate n = false →
    Spells ls cs → Spells (.unit a b c d n known :: ls) (Char.ofNat n :: cs)
  | pair {a b c d a' b' c' d' : Char} {high low : Nat} {ls : List Letter} {cs : List Char}
    (known : hexDigits? a b c d = some high) (known' : hexDigits? a' b' c' d' = some low) :
    isHighSurrogate high = true → isLowSurrogate low = true → Spells ls cs →
    Spells (.unit a b c d high known :: .unit a' b' c' d' low known' :: ls)
      (joinSurrogates high low :: cs)

theorem yields_pair {a b c d a' b' c' d' : Char} {high low : Nat}
    (known : hexDigits? a b c d = some high) (known' : hexDigits? a' b' c' d' = some low)
    (is_high : isHighSurrogate high = true) (is_low : isLowSurrogate low = true) :
    Yields (readEscape ('u' :: a :: b :: c :: d :: '\\' :: 'u' :: a' :: b' :: c' :: d' :: rest))
      (joinSurrogates high low) rest := by
  have no_low : isLowSurrogate high = false := by
    simp only [isHighSurrogate, isLowSurrogate, Bool.and_eq_true, decide_eq_true_eq] at *
    simp
    omega
  obtain ⟨t, ok, rfl, left⟩ := yields_readUnit known ('\\' :: 'u' :: a' :: b' :: c' :: d' :: rest)
  have second : Yields (readLowSurrogate t.rest) low rest := by
    obtain ⟨u, ok', rfl, left'⟩ := yields_readUnit known' rest
    rw [left, readLowSurrogate]
    refine .after ok' ?_
    rw [is_low]
    exact ⟨(u.behind 'u').behind '\\', rfl, rfl, left'⟩
  obtain ⟨u, ok', rfl, left'⟩ := second
  rw [readEscape]
  refine .after ok ?_
  rw [no_low, is_high]
  refine .after ok' ⟨((t.next u).as (joinSurrogates t.value u.value)).behind 'u', rfl, ?_, left'⟩
  -- By reflexivity alone, the number of the pair would be worked out.
  dsimp only [Taken.behind, Taken.as]

theorem Spells.yields {ls : List Letter} {cs : List Char} (h : Spells ls cs) (rest : List Char) :
    Yields (readLetters (ls.flatMap Letter.written ++ '"' :: rest)) cs rest := by
  induction h with
  | nil =>
    show Yields (readLetters ('"' :: rest)) [] rest
    exact ⟨(Taken.first '"' rest).as [], by rw [readLetters], rfl, rfl⟩
  | plain fits _ ih => exact ih.plain fits.1 fits.2.1 fits.2.2
  | short known _ ih =>
    refine (yields_letter known ?_).escaped ih
    rintro rfl
    cases known
  | unit known no_high no_low _ ih => exact (yields_unit known no_high no_low _).escaped ih
  | pair known known' is_high is_low _ ih =>
    exact (yields_pair known known' is_high is_low).escaped ih

theorem quoted_append (ls : List Letter) (rest : List Char) :
    quoted ls ++ rest = '"' :: (ls.flatMap Letter.written ++ '"' :: rest) := by
  simp [quoted]

/-- A token that spells a string, in one of the ways there are. -/
def Spelling (token : Token) (s : String) : Prop :=
  ∃ ls, Spells ls s.toList ∧ token = quoted ls

theorem Spelling.yields {token : Token} {s : String} (h : Spelling token s) (blank : Blank space) :
    Yields (readString (space ++ (token ++ rest))) s rest := by
  obtain ⟨ls, spells, rfl⟩ := h
  rw [quoted_append]
  refine .spaced blank (solid_cons rfl) ?_
  obtain ⟨t, ok, value, left⟩ := spells.yields rest
  refine .after ok ⟨(t.map String.ofList).behind '"', rfl, ?_, left⟩
  show String.ofList t.value = s
  rw [value, String.ofList_toList]

theorem Spelling.reads {token : Token} {s : String} (h : Spelling token s) :
    Reads readString [token] s := by
  constructor
  · obtain ⟨ls, -, rfl⟩ := h
    exact ⟨'"', rfl, rfl, by decide⟩
  · intro text rest spread _
    obtain ⟨space, more, rfl, blank, spread⟩ := spread.behind
    cases spread
    exact h.yields blank

theorem Spelling.comes {first : Bool} {token : Token} {s : String} {before : List Char}
    (h : Spelling token s) (leads : Leads first before) (rest : List Char) (blank : Blank space) :
    Comes (memberAhead first (before ++ (space ++ (token ++ rest)))) (space ++ (token ++ rest)) := by
  obtain ⟨ls, -, rfl⟩ := h
  rw [quoted_append]
  exact comes_quoted leads _ blank

/-- The written form of a string is one of its spellings. -/
theorem spelling_quote (s : String) : Spelling (quote s.toList) s := by
  suffices h : ∀ cs, ∃ ls, Spells ls cs ∧ cs.flatMap escape = ls.flatMap Letter.written by
    obtain ⟨ls, spells, same⟩ := h s.toList
    exact ⟨ls, spells, by rw [quote, same]; rfl⟩
  intro cs
  induction cs with
  | nil => exact ⟨[], .nil, rfl⟩
  | cons c cs ih =>
    obtain ⟨ls, spells, same⟩ := ih
    rw [List.flatMap_cons, same]
    obtain ⟨e, written, known, -⟩ | ⟨low, written⟩ | ⟨written, fits⟩ := escape_cases c
    · exact ⟨_, .short known spells, by rw [written]; rfl⟩
    · obtain ⟨known, no_high, no_low⟩ := control_unit low
      have spelled := Spells.unit known no_high no_low spells
      rw [Char.ofNat_toNat] at spelled
      exact ⟨_, spelled, by rw [written]; rfl⟩
    · exact ⟨_, .plain fits spells, by rw [written]; rfl⟩

/-! ## Items with commas between them -/

/-- What stands before an item: a comma, unless it is the first one. -/
def separator (first : Bool) : List Token := if first then [] else [[',']]

def items (first : Bool) : List (List Token) → List Token
  | [] => []
  | ts :: more => separator first ++ (ts ++ items false more)

def bracketed (tss : List (List Token)) : List Token := ['['] :: (items true tss ++ [[']']])

def braced (tss : List (List Token)) : List Token := ['{'] :: (items true tss ++ [['}']])

/-- The tokens of a member of an object. -/
def member (name : Token) (value : List Token) : List Token := name :: [':'] :: value

theorem Spread.separated {first : Bool} {ts : List Token}
    (h : Spread rest (separator first ++ ts) text) :
    ∃ before more, text = before ++ more ∧ Leads first before ∧ Spread rest ts more := by
  cases first with
  | true => exact ⟨[], text, rfl, .first, h⟩
  | false =>
    obtain ⟨space, more, rfl, blank, h⟩ := h.behind
    exact ⟨space ++ [','], more, (List.append_assoc ..).symm, .next blank, h⟩

theorem Spread.item {first : Bool} {ts us : List Token} {tss : List (List Token)}
    (h : Spread rest (items first (ts :: tss) ++ us) text) :
    ∃ before inner middle, text = before ++ inner ∧ Leads first before ∧ Spread middle ts inner ∧
      Spread rest (items false tss ++ us) middle := by
  rw [items, List.append_assoc, List.append_assoc] at h
  obtain ⟨before, inner, rfl, leads, h⟩ := h.separated
  obtain ⟨middle, front, back⟩ := h.split
  exact ⟨before, inner, middle, rfl, leads, front, back⟩

/-- Behind an item comes a comma or what closes the items, and neither goes on a number. -/
theorem Spread.ends_item {c : Char} {us : List Token} {tss : List (List Token)}
    (h : Spread rest (items false tss ++ [c] :: us) text) (other : goesOn c = false) :
    Ends text := by
  cases tss with
  | nil => exact Spread.ends h other
  | cons ts tss => exact Spread.ends h rfl

theorem Spread.element {first : Bool} {ts us : List Token} {tss : List (List Token)}
    (h : Spread rest (items first (ts :: tss) ++ us) text) (opens : Opens ts) :
    ∃ inner middle, Comes (elementAhead first text) inner ∧ Spread middle ts inner ∧
      Spread rest (items false tss ++ us) middle := by
  obtain ⟨before, inner, middle, rfl, leads, here, behind⟩ := h.item
  obtain ⟨c, begins, mark, no_close⟩ := opens
  obtain ⟨space, more, rfl, blank, -⟩ := here.first begins
  exact ⟨_, middle, comes_solid leads more blank mark no_close, here, behind⟩

theorem Reads.element {read : Reader α} {value : α} {first : Bool} {ts us : List Token}
    {tss : List (List Token)} (h : Reads read ts value)
    (spread : Spread rest (items first (ts :: tss) ++ us) text)
    (ends : ∀ {middle}, Spread rest (items false tss ++ us) middle → Ends middle) :
    ∃ middle, Yields (readElement first read text) value middle ∧
      Spread rest (items false tss ++ us) middle := by
  obtain ⟨inner, middle, comes, here, behind⟩ := spread.element h.opens
  exact ⟨middle, .element comes (h.yields here (ends behind)), behind⟩

theorem yields_items {read : Reader α} {first : Bool} {tss : List (List Token)} {values : List α}
    (each : List.Forall₂ (Reads read) tss values)
    (spread : Spread rest (items first tss ++ [[']']]) text) :
    Yields (readElements read first text) values rest := by
  induction each generalizing first text with
  | nil =>
    obtain ⟨space, more, rfl, blank, spread⟩ := Spread.behind spread
    cases spread
    exact yields_no_elements read first blank
  | cons head _ ih =>
    obtain ⟨inner, middle, comes, here, behind⟩ := spread.element head.opens
    exact .elements comes (head.yields here (behind.ends_item rfl)) (ih behind)

theorem reads_array {read : Reader α} {tss : List (List Token)} {values : List α}
    (each : List.Forall₂ (Reads read) tss values) :
    Reads (readArray read) (bracketed tss) values := by
  refine ⟨⟨'[', rfl, rfl, by decide⟩, fun spread _ => ?_⟩
  obtain ⟨inner, opened, spread⟩ := spread.mark wrongKind rfl
  exact .array opened (yields_items each spread)

/-! ## Trees -/

namespace Tree

mutual

def tokens : Tree → List Token
  | null => [nullToken]
  | whole n => [Nat.toDigits 10 n]
  | string s => [quote s.toList]
  | array ts => bracketed (elementTokens ts)
  | object ms => braced (memberTokens ms)

def elementTokens : List Tree → List (List Token)
  | [] => []
  | t :: more => tokens t :: elementTokens more

def memberTokens : List (String × Tree) → List (List Token)
  | [] => []
  | (name, t) :: more => member (quote name.toList) (tokens t) :: memberTokens more

end

end Tree

theorem Spread.indented {ts : List Token} (filled : ts ≠ []) (blank : Blank space)
    (h : Spread rest ts text) : Spread rest ts (space ++ text) := by
  cases h with
  | nil => exact absurd rfl filled
  | cons blank' h =>
    rw [← List.append_assoc]
    exact .cons (fun c listed => (List.mem_append.1 listed).elim (blank c) (blank' c)) h

theorem Spread.next {token : Token} {ts : List Token} (h : Spread rest ts text) :
    Spread rest (token :: ts) (token ++ text) := .cons blank_nil h

theorem items_first (ts : List Token) (tss : List (List Token)) (us : List Token) :
    items true (ts :: tss) ++ us = ts ++ (items false tss ++ us) := by
  simp [items, separator]

namespace Tree

theorem elementTokens_map (f : α → Tree) (l : List α) :
    elementTokens (l.map f) = l.map fun a => (f a).tokens := by
  induction l with
  | nil => rw [List.map_nil, elementTokens]; rfl
  | cons a l ih => rw [List.map_cons, elementTokens, ih]; rfl

theorem filled (t : Tree) : t.tokens ≠ [] := by
  cases t <;> simp [tokens, bracketed, braced]

theorem before {us : List Token} (t : Tree) : t.tokens ++ us ≠ [] :=
  List.append_ne_nil_of_left_ne_nil t.filled us

theorem spread_colon (layout : Layout) {ts : List Token} (filled : ts ≠ []) (name : String)
    (h : Spread rest ts text) :
    Spread rest (member (quote name.toList) ts) (quote name.toList ++ (layout.colon ++ text)) := by
  obtain ⟨spaced, written, blank⟩ := colon_spaced layout
  rw [written]
  exact .next (.next (h.indented filled blank))

mutual

theorem spread_write (layout : Layout) (depth : Nat) (rest : List Char) :
    (t : Tree) → Spread rest t.tokens (t.write layout depth ++ rest)
  | null => by
    rw [write, tokens]
    exact .next .nil
  | whole n => by
    rw [write, tokens]
    exact .next .nil
  | string s => by
    rw [write, tokens]
    exact .next .nil
  | array [] => by
    rw [write, tokens, elementTokens]
    exact .next (.next .nil)
  | array (t :: more) => by
    have closing : Spread rest [[']']] (layout.gap depth ++ ']' :: rest) :=
      .cons (blank_gap layout depth) .nil
    have others := (spread_elements layout (depth + 1) _ more).joined closing
    have first := (spread_write layout (depth + 1) _ t).joined others
    rw [write_array, tokens, elementTokens, bracketed, items_first]
    exact .next (first.indented (before t) (blank_gap layout _))
  | object [] => by
    rw [write, tokens, memberTokens]
    exact .next (.next .nil)
  | object ((name, t) :: more) => by
    have closing : Spread rest [['}']] (layout.gap depth ++ '}' :: rest) :=
      .cons (blank_gap layout depth) .nil
    have others := (spread_members layout (depth + 1) _ more).joined closing
    have value := (spread_write layout (depth + 1) _ t).joined others
    have first := spread_colon layout (before t) name value
    rw [write_object, tokens, memberTokens, braced, items_first]
    exact .next (first.indented (List.cons_ne_nil _ _) (blank_gap layout _))

theorem spread_elements (layout : Layout) (depth : Nat) (rest : List Char) : (ts : List Tree) →
    Spread rest (items false (elementTokens ts)) (writeElements layout depth ts ++ rest)
  | [] => by
    rw [writeElements, elementTokens]
    exact .nil
  | t :: more => by
    have others := spread_elements layout depth rest more
    have first := (spread_write layout depth _ t).joined others
    rw [writeElements_cons, elementTokens]
    exact .next (first.indented (before t) (blank_gap layout _))

theorem spread_members (layout : Layout) (depth : Nat) (rest : List Char) :
    (ms : List (String × Tree)) →
    Spread rest (items false (memberTokens ms)) (writeMembers layout depth ms ++ rest)
  | [] => by
    rw [writeMembers, memberTokens]
    exact .nil
  | (name, t) :: more => by
    have others := spread_members layout depth rest more
    have value := (spread_write layout depth _ t).joined others
    have first := spread_colon layout (before t) name value
    rw [writeMembers_cons, memberTokens]
    exact .next (first.indented (List.cons_ne_nil _ _) (blank_gap layout _))

end

end Tree

/-- A reader takes this value from a tree in any layout and at any depth, with white space before it
and anything behind it that does not go on a number. -/
def Takes (read : Reader α) (t : Tree) (value : α) : Prop :=
  ∀ (layout : Layout) (depth : Nat) (space rest : List Char), Blank space → Ends rest →
    Yields (read (space ++ (t.write layout depth ++ rest))) value rest

/-- What is read from the tokens of a tree is read from the tree as it is written. -/
theorem Reads.takes {read : Reader α} {t : Tree} {value : α} (h : Reads read t.tokens value) :
    Takes read t value := by
  intro layout depth space rest blank ends
  have spread := t.spread_write layout depth rest
  exact h.yields (spread.indented t.filled blank) ends

theorem Takes.map {read : Reader α} {t : Tree} {value : α} (f : α → β) (h : Takes read t value) :
    Takes (read.map f) t (f value) :=
  fun layout depth space rest blank ends => (h layout depth space rest blank ends).map f

theorem reads_trees {read : Reader α} {toTree : α → Tree}
    (each : ∀ a, Reads read (toTree a).tokens a) (values : List α) :
    Reads (readArray read) (Tree.array (values.map toTree)).tokens values := by
  rw [Tree.tokens, Tree.elementTokens_map]
  exact reads_array (List.forall₂_map_left_iff.2 (List.forall₂_same.2 fun a _ => each a))

theorem takes_null : Takes readNull .null () :=
  Reads.takes (by rw [Tree.tokens]; exact reads_null)

theorem takes_string (s : String) : Takes readString (.string s) s :=
  Reads.takes (by rw [Tree.tokens]; exact (spelling_quote s).reads)

end Worksheet.Json
