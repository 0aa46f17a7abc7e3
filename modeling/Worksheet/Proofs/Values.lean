import Worksheet.Json.Skip
import Worksheet.Proofs.Spellings
/-! JSON values of any kind, as tokens. Main statement: a value is passed over to its end, whatever is
in it. -/
namespace Worksheet.Json

variable {text rest space : List Char}

/-! ## The grammar -/

structure Digits where
  chars : List Char
  filled : chars ≠ []
  all : ∀ c ∈ chars, c.isDigit = true

structure Exponent where
  mark : Char
  known : isExponentMark mark = true
  sign : List Char
  signed : sign ∈ [[], ['+'], ['-']]
  digits : Digits

/-- A number of any size. Its whole part is a single zero, or does not begin with one. -/
structure Numeral where
  minus : Bool
  whole : Digits
  single : ∀ more, whole.chars = '0' :: more → more = []
  fraction : Option Digits
  exponent : Option Exponent

namespace Numeral

def fractionChars : Option Digits → List Char
  | none => []
  | some ds => '.' :: ds.chars

def exponentChars : Option Exponent → List Char
  | none => []
  | some e => e.mark :: (e.sign ++ e.digits.chars)

def unsigned (n : Numeral) : List Char :=
  n.whole.chars ++ (fractionChars n.fraction ++ exponentChars n.exponent)

def token (n : Numeral) : Token := if n.minus then '-' :: n.unsigned else n.unsigned

end Numeral

def trueToken : Token := ['t', 'r', 'u', 'e']

def falseToken : Token := ['f', 'a', 'l', 's', 'e']

/-- The tokens of a JSON value. A string in it may hold half of a pair, and the names in an object may
come more than once. -/
inductive Value : List Token → Prop
  | null : Value [nullToken]
  | true : Value [trueToken]
  | false : Value [falseToken]
  | number (n : Numeral) : Value [n.token]
  | string (ls : List Letter) : Value [quoted ls]
  | array {tss : List (List Token)} : (∀ ts ∈ tss, Value ts) → Value (bracketed tss)
  | object {ms : List (List Letter × List Token)} : (∀ m ∈ ms, Value m.2) →
    Value (braced (ms.map fun m => member (quoted m.1) m.2))

/-! ## Numbers -/

/-- A text before which digits are at their end. -/
def Stops (text : List Char) : Prop := ∀ c more, text = c :: more → c.isDigit = false

theorem Ends.stops (ends : Ends rest) : Stops rest := by
  rintro c more rfl
  have other := ends c more rfl
  simp only [goesOn, Bool.or_eq_false_iff] at other
  exact other.1.1

theorem Digits.first (ds : Digits) :
    ∃ d more, ds.chars = d :: more ∧ d.isDigit = true ∧ ∀ c ∈ more, c.isDigit = true := by
  obtain ⟨chars, filled, all⟩ := ds
  obtain ⟨d, more, rfl⟩ := List.exists_cons_of_ne_nil filled
  exact ⟨d, more, rfl, all d (List.mem_cons_self ..), fun c h => all c (List.mem_cons_of_mem _ h)⟩

theorem dropWhile_digits {more : List Char} (digits : ∀ c ∈ more, c.isDigit = true)
    (stops : Stops rest) : (more ++ rest).dropWhile Char.isDigit = rest := by
  rw [List.dropWhile_append_of_pos digits]
  cases rest with
  | nil => rfl
  | cons c more => rw [List.dropWhile_cons, stops c more rfl]; rfl

theorem yields_skipDigits (ds : Digits) (stops : Stops rest) :
    Yields (skipDigits (ds.chars ++ rest)) () rest := by
  obtain ⟨d, more, written, digit, digits⟩ := ds.first
  rw [written]
  exact ⟨((Taken.first d (more ++ rest)).upTo (.dropWhile Char.isDigit (more ++ rest))).as (),
    if_pos digit, rfl, dropWhile_digits digits stops⟩

theorem stops_exponent (e : Option Exponent) (ends : Ends rest) :
    Stops (Numeral.exponentChars e ++ rest) := by
  cases e with
  | none => exact ends.stops
  | some e =>
    rintro _ _ ⟨⟩
    have known := e.known
    simp only [isExponentMark, Bool.or_eq_true, decide_eq_true_eq] at known
    obtain same | same := known <;> rw [same] <;> rfl

theorem stops_fraction (f : Option Digits) (stops : Stops rest) :
    Stops (Numeral.fractionChars f ++ rest) := by
  cases f with
  | none => exact stops
  | some ds =>
    rintro _ _ ⟨⟩
    rfl

theorem skipSign_sign (e : Exponent) (rest : List Char) :
    (skipSign (e.sign ++ (e.digits.chars ++ rest))).rest = e.digits.chars ++ rest := by
  have signed := e.signed
  simp only [List.mem_cons, List.not_mem_nil, or_false] at signed
  obtain none | plus | minus := signed
  · obtain ⟨d, more, written, digit, -⟩ := e.digits.first
    rw [none, written, List.nil_append, List.cons_append, skipSign]
    · rfl
    · rintro _ ⟨⟩
      exact absurd digit (by decide)
    · rintro _ ⟨⟩
      exact absurd digit (by decide)
  · rw [plus]
    rfl
  · rw [minus]
    rfl

/-- Passing over a part that may be empty leaves this behind it. -/
def Leaves (result : Except Fault (Later text)) (rest : List Char) : Prop :=
  ∃ l, result = .ok l ∧ l.rest = rest

theorem leaves_exponent (e : Option Exponent) (ends : Ends rest) :
    Leaves (skipExponent (Numeral.exponentChars e ++ rest)) rest := by
  cases e with
  | none =>
    cases rest with
    | nil => exact ⟨.all [], rfl, rfl⟩
    | cons c more =>
      have other := ends c more rfl
      simp only [goesOn, Bool.or_eq_false_iff] at other
      exact ⟨.all (c :: more), if_neg (ne_true_of_eq_false other.2), rfl⟩
  | some e =>
    have digits := yields_skipDigits e.digits ends.stops
    rw [← skipSign_sign e rest] at digits
    obtain ⟨t, ok, -, left⟩ := digits
    rw [Numeral.exponentChars, List.cons_append, List.append_assoc]
    refine ⟨((skipSign (e.sign ++ (e.digits.chars ++ rest))).next t).later.behind e.mark, ?_, left⟩
    rw [skipExponent]
    refine (if_pos e.known).trans ?_
    simp only [ok]
    rfl

theorem leaves_fraction (f : Option Digits) (stops : Stops rest)
    (no_point : ∀ more, rest ≠ '.' :: more) :
    Leaves (skipFraction (Numeral.fractionChars f ++ rest)) rest := by
  cases f with
  | none =>
    refine ⟨.all rest, ?_, rfl⟩
    show skipFraction rest = _
    rw [skipFraction]
    · rfl
    · rintro more rfl
      exact no_point more rfl
  | some ds =>
    obtain ⟨t, ok, -, left⟩ := yields_skipDigits ds stops
    refine ⟨t.later.behind '.', ?_, left⟩
    show skipFraction ('.' :: (ds.chars ++ rest)) = _
    rw [skipFraction, ok]
    rfl

theorem no_point_exponent (e : Option Exponent) (ends : Ends rest) (more : List Char) :
    Numeral.exponentChars e ++ rest ≠ '.' :: more := by
  intro same
  cases e with
  | none => exact absurd (ends '.' more same) (by decide)
  | some e =>
    have known := e.known
    rw [(List.cons.inj same).1] at known
    exact absurd known (by decide)

/-- Only a single zero begins with a zero, so no digit comes second behind one. -/
theorem Numeral.no_zero (n : Numeral) (stops : Stops rest) :
    ((n.whole.chars ++ rest).head? = some '0' &&
      ((n.whole.chars ++ rest).drop 1).head?.any Char.isDigit) = false := by
  obtain ⟨d, more, written, -⟩ := n.whole.first
  rw [written]
  by_cases zero : d = '0'
  · subst zero
    cases n.single more written
    cases rest with
    | nil => rfl
    | cons c more => simpa using stops c more rfl
  · simp [zero]

theorem yields_skipUnsigned (n : Numeral) (ends : Ends rest) :
    Yields (skipUnsigned (n.unsigned ++ rest)) () rest := by
  have stops := stops_exponent n.exponent ends
  have stops' := stops_fraction n.fraction stops
  have fraction := leaves_fraction n.fraction stops (no_point_exponent n.exponent ends)
  have exponent := leaves_exponent n.exponent ends
  rw [Numeral.unsigned, List.append_assoc, List.append_assoc]
  obtain ⟨t, ok, -, left⟩ := yields_skipDigits n.whole stops'
  rw [← left] at fraction
  obtain ⟨l, ok', left'⟩ := fraction
  rw [← left'] at exponent
  obtain ⟨l', ok'', left''⟩ := exponent
  refine .after ok ?_
  rw [if_neg (ne_true_of_eq_false (n.no_zero stops'))]
  exact .after ok' (.after ok'' ⟨(t.upTo l).upTo l', rfl, rfl, left''⟩)

/-! ## Values -/

/-- Behind a backslash comes an escape, and then the other letters. -/
theorem Yields.skipEscaped {behind : List Char} (h : Yields (skipEscape text) () behind)
    (more : Yields (skipLetters behind) () rest) : Yields (skipLetters ('\\' :: text)) () rest := by
  obtain ⟨t, ok, -, rfl⟩ := h
  obtain ⟨u, ok', -, rfl⟩ := more
  rw [skipLetters]
  exact .after ok (.after ok' ⟨(t.next u).behind '\\', rfl, rfl, rfl⟩)

theorem Yields.skipPlain {c : Char} (no_quote : c ≠ '"') (no_escape : c ≠ '\\')
    (high : 0x20 ≤ c.toNat) (more : Yields (skipLetters text) () rest) :
    Yields (skipLetters (c :: text)) () rest := by
  obtain ⟨u, ok, -, rfl⟩ := more
  refine ⟨u.behind c, ?_, rfl, rfl⟩
  rw [skipLetters, if_neg (Nat.not_lt_of_le high), ok]
  · rfl
  · exact no_quote
  · exact no_escape

theorem yields_skipLetters (ls : List Letter) (rest : List Char) :
    Yields (skipLetters (ls.flatMap Letter.written ++ '"' :: rest)) () rest := by
  induction ls with
  | nil =>
    show Yields (skipLetters ('"' :: rest)) () rest
    exact ⟨(Taken.first '"' rest).as (), by rw [skipLetters], rfl, rfl⟩
  | cons l ls ih =>
    rw [List.flatMap_cons, List.append_assoc]
    cases l with
    | plain c fits => exact ih.skipPlain fits.1 fits.2.1 fits.2.2
    | short e c known =>
      refine Yields.skipEscaped ⟨(Taken.first e _).as (), ?_, rfl, rfl⟩ ih
      show skipEscape (e :: (ls.flatMap Letter.written ++ '"' :: rest)) = _
      rw [skipEscape, known]
      · rfl
      · rintro rfl
        cases known
    | unit a b c d n known =>
      obtain ⟨t, ok, -, left⟩ := yields_readUnit known (ls.flatMap Letter.written ++ '"' :: rest)
      exact .skipEscaped (.after ok ⟨(t.as ()).behind 'u', rfl, rfl, left⟩) ih

/-- With this character ahead, a value goes on behind it like this. -/
def Opening (c : Char) (skip : Reader Unit) : Prop :=
  ∀ {text : List Char} {t : Taken Char text}, ahead text = some t → t.value = c →
    skipValue text = do return t.next (← skip t.rest)

theorem Opening.yields {c : Char} {skip : Reader Unit} {inner : List Char} (h : Opening c skip)
    (mark : isSpace c = false) (blank : Blank space) (inside : Yields (skip inner) () rest) :
    Yields (skipValue (space ++ c :: inner)) () rest := by
  obtain ⟨t, found, value, left⟩ := ahead_mark inner blank mark
  rw [← left] at inside
  obtain ⟨u, ok, -, left'⟩ := inside
  rw [h found value]
  exact .after ok ⟨t.next u, rfl, rfl, left'⟩

theorem skips_word {c : Char} {word : List Char} (mark : isSpace c = false) (no_close : c ≠ ']')
    (chosen : ∀ {text : List Char} {t : Taken Char text}, ahead text = some t → t.value = c →
      skipValue text = do return (t.upTo (← readWord word t.rest)).as ()) :
    Reads skipValue [c :: word] () := by
  refine ⟨⟨c, rfl, mark, no_close⟩, fun {text rest} spread _ => ?_⟩
  obtain ⟨space, more, rfl, blank, spread⟩ := spread.behind
  cases spread
  obtain ⟨t, found, value, left⟩ := ahead_mark (word ++ rest) blank mark
  have whole : Leaves (readWord word (word ++ rest)) rest := readWord_word word rest
  rw [← left] at whole
  obtain ⟨l, ok, left'⟩ := whole
  rw [List.cons_append, chosen found value]
  exact .after ok ⟨(t.upTo l).as (), rfl, rfl, left'⟩

theorem skips_string (ls : List Letter) : Reads skipValue [quoted ls] () := by
  have opening : Opening '"' skipLetters := by
    intro text t found value
    rw [skipValue, found]
    simp only [value]
  refine ⟨⟨'"', rfl, rfl, by decide⟩, fun spread _ => ?_⟩
  obtain ⟨space, more, rfl, blank, spread⟩ := spread.behind
  cases spread
  rw [quoted_append]
  exact opening.yields rfl blank (yields_skipLetters ls _)

theorem Yields.digits {d : Char} {inner : List Char} (digit : d.isDigit = true)
    (blank : Blank space) (h : Yields (skipUnsigned (d :: inner)) () rest) :
    Yields (skipValue (space ++ d :: inner)) () rest := by
  have mark := not_space_of_digit digit
  obtain ⟨t, found, value, -⟩ := ahead_mark inner blank mark
  rw [← skipSpace_rest blank (solid_cons mark)] at h
  obtain ⟨u, ok, -, left⟩ := h
  rw [skipValue, found]
  simp only [value]
  -- No other kind of value begins with a digit.
  split <;> try exact absurd digit (by decide)
  rw [if_pos digit]
  exact .after ok ⟨_, rfl, rfl, left⟩

theorem skips_number (n : Numeral) : Reads skipValue [n.token] () := by
  rw [Numeral.token]
  split
  · have opening : Opening '-' skipUnsigned := by
      intro text t found value
      rw [skipValue, found]
      simp only [value]
    refine ⟨⟨'-', rfl, rfl, by decide⟩, fun spread ends => ?_⟩
    obtain ⟨space, more, rfl, blank, spread⟩ := spread.behind
    cases spread
    exact opening.yields rfl blank (yields_skipUnsigned n ends)
  · obtain ⟨d, more, written, digit, -⟩ := n.whole.first
    have unsigned : ∃ inner, n.unsigned = d :: inner := ⟨_, by rw [Numeral.unsigned, written]; rfl⟩
    obtain ⟨inner, unsigned⟩ := unsigned
    refine ⟨⟨d, by rw [unsigned]; rfl, not_space_of_digit digit, ?_⟩, fun spread ends => ?_⟩
    · rintro rfl
      exact absurd digit (by decide)
    · obtain ⟨space, more, rfl, blank, spread⟩ := spread.behind
      cases spread
      have read := yields_skipUnsigned n ends
      rw [unsigned] at read ⊢
      exact read.digits digit blank

/-! ## Arrays and objects -/

theorem yields_element_first {inner middle : List Char} {c : Char} (mark : isSpace c = false)
    (no_close : c ≠ ']') (blank : Blank space)
    (h : Yields (skipValue (space ++ c :: inner)) () middle)
    (others : Yields (skipElements false middle) () rest) :
    Yields (skipElements true (space ++ c :: inner)) () rest := by
  obtain ⟨t, found, value, -⟩ := ahead_mark inner blank mark
  obtain ⟨u, ok, -, rfl⟩ := h
  obtain ⟨w, ok', -, left⟩ := others
  rw [skipElements, found]
  simp only [value, if_neg no_close, if_true]
  exact .after ok (.after ok' ⟨u.next w, rfl, rfl, left⟩)

theorem yields_element_next {inner middle : List Char} (blank : Blank space)
    (h : Yields (skipValue inner) () middle) (others : Yields (skipElements false middle) () rest) :
    Yields (skipElements false (space ++ ',' :: inner)) () rest := by
  obtain ⟨t, found, value, left⟩ := ahead_mark inner blank (rfl : isSpace ',' = false)
  rw [← left] at h
  obtain ⟨u, ok, -, rfl⟩ := h
  obtain ⟨w, ok', -, left'⟩ := others
  rw [skipElements, found]
  simp only [value]
  exact .after ok (.after ok' ⟨(t.next u).next w, rfl, rfl, left'⟩)

/-- Values are passed over one after another. -/
theorem skips_items {first : Bool} {tss : List (List Token)}
    (each : ∀ ts ∈ tss, Reads skipValue ts ())
    (spread : Spread rest (items first tss ++ [[']']]) text) :
    Yields (skipElements first text) () rest := by
  induction tss generalizing first text with
  | nil =>
    obtain ⟨space, more, rfl, blank, spread⟩ := Spread.behind spread
    cases spread
    obtain ⟨t, found, value, left⟩ := ahead_mark rest blank (rfl : isSpace ']' = false)
    rw [List.singleton_append, skipElements, found]
    exact ⟨t.as (), if_pos value, rfl, left⟩
  | cons ts tss ih =>
    obtain ⟨before, inner, middle, rfl, leads, here, spread⟩ := spread.item
    have head := each ts (List.mem_cons_self ..)
    have skipped := head.yields here (spread.ends_item rfl)
    have others := ih (fun us member => each us (List.mem_cons_of_mem _ member)) spread
    cases leads with
    | first =>
      -- With no comma before it, the value itself is looked at once for the closing bracket.
      obtain ⟨c, begins, mark, no_close⟩ := head.opens
      obtain ⟨space, more, rfl, blank, -⟩ := here.first begins
      exact yields_element_first mark no_close blank skipped others
    | next blank =>
      rw [List.append_assoc]
      exact yields_element_next blank skipped others

theorem yields_skipMember {named inner space' : List Char} (blank : Blank space)
    (name : Yields (skipLetters named) () (space' ++ ':' :: inner)) (blank' : Blank space')
    (h : Yields (skipValue inner) () rest) : Yields (skipMember (space ++ '"' :: named)) () rest := by
  obtain ⟨t, found, value, left⟩ := ahead_mark named blank (rfl : isSpace '"' = false)
  rw [← left] at name
  obtain ⟨u, ok, -, left₁⟩ := name
  have colon : ∃ c, ahead u.rest = some c ∧ c.value = ':' ∧ c.rest = inner := by
    rw [left₁]
    exact ahead_mark inner blank' rfl
  obtain ⟨c, found₂, value₂, left₂⟩ := colon
  rw [← left₂] at h
  obtain ⟨w, ok₃, -, left₃⟩ := h
  rw [skipMember, found]
  simp only [if_pos value]
  refine .after ok ?_
  have found' : ahead (t.next u).rest = some c := found₂
  simp only [found']
  rw [if_pos value₂]
  exact .after ok₃ ⟨((t.next u).next c).next w, rfl, rfl, left₃⟩

theorem yields_member_first {inner middle : List Char} (blank : Blank space)
    (h : Yields (skipMember (space ++ '"' :: inner)) () middle)
    (others : Yields (skipMembers false middle) () rest) :
    Yields (skipMembers true (space ++ '"' :: inner)) () rest := by
  obtain ⟨t, found, value, -⟩ := ahead_mark inner blank (rfl : isSpace '"' = false)
  obtain ⟨u, ok, -, rfl⟩ := h
  obtain ⟨w, ok', -, left⟩ := others
  rw [skipMembers, found]
  simp only [value, if_true]
  exact .after ok (.after ok' ⟨u.next w, rfl, rfl, left⟩)

theorem yields_member_next {inner middle : List Char} (blank : Blank space)
    (h : Yields (skipMember inner) () middle) (others : Yields (skipMembers false middle) () rest) :
    Yields (skipMembers false (space ++ ',' :: inner)) () rest := by
  obtain ⟨t, found, value, left⟩ := ahead_mark inner blank (rfl : isSpace ',' = false)
  rw [← left] at h
  obtain ⟨u, ok, -, rfl⟩ := h
  obtain ⟨w, ok', -, left'⟩ := others
  rw [skipMembers, found]
  simp only [value]
  exact .after ok (.after ok' ⟨(t.next u).next w, rfl, rfl, left'⟩)

/-- Members are passed over one after another, whatever their names. -/
theorem skips_members {first : Bool} {ms : List (List Letter × List Token)}
    (each : ∀ m ∈ ms, Reads skipValue m.2 ())
    (spread : Spread rest (items first (ms.map fun m => member (quoted m.1) m.2) ++ [['}']]) text) :
    Yields (skipMembers first text) () rest := by
  induction ms generalizing first text with
  | nil =>
    obtain ⟨space, more, rfl, blank, spread⟩ := Spread.behind spread
    cases spread
    obtain ⟨t, found, value, left⟩ := ahead_mark rest blank (rfl : isSpace '}' = false)
    rw [List.singleton_append, skipMembers, found]
    exact ⟨t.as (), if_pos value, rfl, left⟩
  | cons m ms ih =>
    obtain ⟨before, inner, middle, rfl, leads, here, behind⟩ := spread.item
    have others := ih (fun m' listed => each m' (List.mem_cons_of_mem _ listed)) behind
    have ends := behind.ends_item rfl
    obtain ⟨space, named, rfl, blank, here⟩ := here.behind
    obtain ⟨space', coloned, rfl, blank', here⟩ := here.behind
    have value := (each m (List.mem_cons_self ..)).yields here ends
    have skipped := yields_skipMember blank (yields_skipLetters m.1 _) blank' value
    rw [quoted_append] at *
    cases leads with
    | first => exact yields_member_first blank skipped others
    | next blank =>
      rw [List.append_assoc]
      exact yields_member_next blank skipped others

/-- A value is passed over to its end and no further. -/
theorem skips {ts : List Token} (value : Value ts) : Reads skipValue ts () := by
  induction value with
  | null =>
    refine skips_word rfl (by decide) fun found value => ?_
    rw [skipValue, found]
    simp only [value]
  | true =>
    refine skips_word rfl (by decide) fun found value => ?_
    rw [skipValue, found]
    simp only [value]
  | false =>
    refine skips_word rfl (by decide) fun found value => ?_
    rw [skipValue, found]
    simp only [value]
  | number n => exact skips_number n
  | string ls => exact skips_string ls
  | array _ ih =>
    have opening : Opening '[' (skipElements Bool.true) := by
      intro text t found value
      rw [skipValue, found]
      simp only [value]
    refine ⟨⟨'[', rfl, rfl, by decide⟩, fun spread _ => ?_⟩
    obtain ⟨space, more, rfl, blank, spread⟩ := spread.behind
    exact opening.yields rfl blank (skips_items ih spread)
  | object _ ih =>
    have opening : Opening '{' (skipMembers Bool.true) := by
      intro text t found value
      rw [skipValue, found]
      simp only [value]
    refine ⟨⟨'{', rfl, rfl, by decide⟩, fun spread _ => ?_⟩
    obtain ⟨space, more, rfl, blank, spread⟩ := spread.behind
    exact opening.yields rfl blank (skips_members ih spread)

end Worksheet.Json
