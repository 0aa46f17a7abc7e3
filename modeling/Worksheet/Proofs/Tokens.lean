import Worksheet.Json.Shape
import Worksheet.Json.Tree
/-! What is written is read. This is about the smallest parts of JSON: white space, marks, words,
strings and whole numbers. -/
namespace Worksheet.Json

variable {α : Type} {text rest space : List Char}

/-- Reading gives this value and leaves this behind it. -/
def Yields (result : Except Fault (Taken α text)) (value : α) (rest : List Char) : Prop :=
  ∃ t, result = .ok t ∧ t.value = value ∧ t.rest = rest

/-- Reading goes on behind what has been read. -/
theorem Yields.after {β : Type} {first : Except Fault β} {b : β}
    {next : β → Except Fault (Taken α text)} {value : α} (ok : first = .ok b)
    (h : Yields (next b) value rest) : Yields (first >>= next) value rest := by
  subst ok
  exact h

/-- What is wrong behind what has been read is what is wrong. -/
theorem fault_after {β : Type} {first : Except Fault β} {b : β} {next : β → Except Fault α} {e : Fault}
    (ok : first = .ok b) (fault : next b = .error e) : first >>= next = .error e := by
  subst ok
  exact fault

/-- White space that may stand before anything. -/
def Blank (space : List Char) : Prop := ∀ c ∈ space, isSpace c = true

/-- A text that begins with something to read. -/
def Solid (text : List Char) : Prop := ∃ c more, text = c :: more ∧ isSpace c = false

theorem blank_nil : Blank [] := fun _ member => absurd member List.not_mem_nil

theorem solid_cons {c : Char} (mark : isSpace c = false) : Solid (c :: rest) := ⟨c, rest, rfl, mark⟩

theorem skipSpace_rest (blank : Blank space) (solid : Solid text) :
    (skipSpace (space ++ text)).rest = text := by
  obtain ⟨c, more, rfl, mark⟩ := solid
  show (space ++ c :: more).dropWhile isSpace = c :: more
  rw [List.dropWhile_append_of_pos blank, List.dropWhile_cons, mark]
  rfl

theorem ahead_mark {c : Char} (rest : List Char) (blank : Blank space) (mark : isSpace c = false) :
    ∃ t, ahead (space ++ c :: rest) = some t ∧ t.value = c ∧ t.rest = rest := by
  induction space with
  | nil => exact ⟨.first c rest, by simp [ahead, mark], rfl, rfl⟩
  | cons s space ih =>
    obtain ⟨t, found, value, left⟩ := ih fun a ha => blank a (List.mem_cons_of_mem _ ha)
    exact ⟨t.behind s, by simp [ahead, blank s (List.mem_cons_self ..), found], value, left⟩

theorem ahead_blank (blank : Blank space) : ahead space = none := by
  induction space with
  | nil => rfl
  | cons s space ih =>
    rw [ahead, if_pos (blank s (List.mem_cons_self ..)),
      ih fun a ha => blank a (List.mem_cons_of_mem _ ha)]
    rfl

theorem Yields.map {β : Type} {read : Reader α} {value : α} (f : α → β)
    (h : Yields (read text) value rest) : Yields (read.map f text) (f value) rest := by
  obtain ⟨t, ok, rfl, rfl⟩ := h
  exact ⟨t.map f, by rw [Reader.map, ok]; rfl, rfl, rfl⟩

/-- A text is read whole if only white space is left of it. -/
theorem Yields.readAll {read : Reader α} {value : α} (h : Yields (read text) value rest)
    (blank : Blank rest) : readAll read text = .ok value := by
  obtain ⟨t, ok, rfl, rfl⟩ := h
  simp only [Json.readAll, ok, ahead_blank blank, bind, Except.bind, pure, Except.pure]

theorem Yields.spaced {read : Reader α} {value : α} (blank : Blank space) (solid : Solid text)
    (h : Yields (read text) value rest) : Yields (spaced read (space ++ text)) value rest := by
  rw [← skipSpace_rest blank solid] at h
  obtain ⟨t, ok, rfl, rfl⟩ := h
  exact ⟨(skipSpace (space ++ text)).next t, by rw [Json.spaced, ok]; rfl, rfl, rfl⟩

theorem fault_spaced {read : Reader α} {e : Fault} (blank : Blank space) (solid : Solid text)
    (fault : read text = .error e) : spaced read (space ++ text) = .error e := by
  rw [← skipSpace_rest blank solid] at fault
  rw [spaced, fault]
  rfl

theorem yields_readMark {c : Char} (otherwise : List Char → Fault) (rest : List Char)
    (blank : Blank space) (mark : isSpace c = false) :
    Yields (readMark c otherwise (space ++ c :: rest)) () rest :=
  Yields.spaced blank (solid_cons mark) ⟨_, if_pos rfl, rfl, rfl⟩

theorem readWord_word (word rest : List Char) :
    ∃ l, readWord word (word ++ rest) = .ok l ∧ l.rest = rest := by
  induction word with
  | nil => exact ⟨.all rest, by cases rest <;> rfl, rfl⟩
  | cons w word ih =>
    obtain ⟨l, ok, left⟩ := ih
    have first : readWord (w :: word) (w :: (word ++ rest)) =
        (readWord word (word ++ rest)).map (Later.behind w) := by
      rw [readWord, if_pos rfl]
      cases readWord word (word ++ rest) with
      | error e => rfl
      | ok l => rfl
    exact ⟨l.behind w, first.trans (congrArg (Except.map _) ok), left⟩

/-! ## Strings -/

theorem hexDigits?_control :
    ∀ n : Fin 32, hexDigits? '0' '0' (hexDigit (n / 16)) (hexDigit (n % 16)) = some n.val := by
  decide

/-- How a character is written: by a letter, by its number, or as it stands. -/
theorem escape_cases (c : Char) :
    (∃ e, escape c = ['\\', e] ∧ letter? e = some c ∧ e ≠ 'u') ∨
    (c.toNat < 0x20 ∧
      escape c = ['\\', 'u', '0', '0', hexDigit (c.toNat / 16), hexDigit (c.toNat % 16)]) ∨
    (escape c = [c] ∧ c ≠ '"' ∧ c ≠ '\\' ∧ 0x20 ≤ c.toNat) := by
  unfold escape
  split
  · exact Or.inl ⟨'"', rfl, rfl, by decide⟩
  · exact Or.inl ⟨'\\', rfl, rfl, by decide⟩
  · exact Or.inl ⟨'b', rfl, rfl, by decide⟩
  · exact Or.inl ⟨'f', rfl, rfl, by decide⟩
  · exact Or.inl ⟨'n', rfl, rfl, by decide⟩
  · exact Or.inl ⟨'r', rfl, rfl, by decide⟩
  · exact Or.inl ⟨'t', rfl, rfl, by decide⟩
  · split
    · exact Or.inr (Or.inl ⟨‹_›, rfl⟩)
    · exact Or.inr (Or.inr ⟨rfl, by assumption, by assumption, Nat.le_of_not_lt ‹_›⟩)

theorem yields_letter {c e : Char} (letter : letter? e = some c) (other : e ≠ 'u') :
    Yields (readEscape (e :: rest)) c rest := by
  refine ⟨(Taken.first e rest).as c, ?_, rfl, rfl⟩
  rw [readEscape, letter]
  exact other

theorem yields_readUnit {a b c d : Char} {n : Nat} (digits : hexDigits? a b c d = some n)
    (rest : List Char) : Yields (readUnit (a :: b :: c :: d :: rest)) n rest := by
  refine ⟨((((Taken.first d rest).behind c).behind b).behind a).as n, ?_, rfl, rfl⟩
  rw [readUnit, digits]

/-- Four digits stand for the character with their number, unless that is half of a pair. -/
theorem yields_unit {a b c d : Char} {n : Nat} (digits : hexDigits? a b c d = some n)
    (no_high : isHighSurrogate n = false) (no_low : isLowSurrogate n = false) (rest : List Char) :
    Yields (readEscape ('u' :: a :: b :: c :: d :: rest)) (Char.ofNat n) rest := by
  obtain ⟨t, ok, rfl, left⟩ := yields_readUnit digits rest
  rw [readEscape]
  refine .after ok ?_
  rw [no_low, no_high]
  exact ⟨(t.map Char.ofNat).behind 'u', rfl, rfl, left⟩

theorem control_unit {c : Char} (low : c.toNat < 0x20) :
    hexDigits? '0' '0' (hexDigit (c.toNat / 16)) (hexDigit (c.toNat % 16)) = some c.toNat ∧
    isHighSurrogate c.toNat = false ∧ isLowSurrogate c.toNat = false := by
  refine ⟨hexDigits?_control ⟨c.toNat, low⟩, ?_, ?_⟩
  · simp [isHighSurrogate]
    omega
  · simp [isLowSurrogate]
    omega

theorem yields_control {c : Char} (low : c.toNat < 0x20) :
    Yields (readEscape ('u' :: '0' :: '0' :: hexDigit (c.toNat / 16) ::
      hexDigit (c.toNat % 16) :: rest)) c rest := by
  obtain ⟨digits, no_high, no_low⟩ := control_unit low
  have read := yields_unit digits no_high no_low rest
  rwa [Char.ofNat_toNat] at read

theorem Yields.escaped {c : Char} {cs text' : List Char} (h : Yields (readEscape text) c text')
    (more : Yields (readLetters text') cs rest) :
    Yields (readLetters ('\\' :: text)) (c :: cs) rest := by
  obtain ⟨t, ok, rfl, rfl⟩ := h
  obtain ⟨u, ok', rfl, rfl⟩ := more
  refine ⟨((t.next u).map (t.value :: ·)).behind '\\', ?_, rfl, rfl⟩
  rw [readLetters, ok]
  simp only [bind, Except.bind, ok']
  rfl

theorem Yields.plain {c : Char} {cs : List Char} (no_quote : c ≠ '"') (no_escape : c ≠ '\\')
    (high : 0x20 ≤ c.toNat) (more : Yields (readLetters text) cs rest) :
    Yields (readLetters (c :: text)) (c :: cs) rest := by
  obtain ⟨u, ok, rfl, rfl⟩ := more
  refine ⟨(u.map (c :: ·)).behind c, ?_, rfl, rfl⟩
  rw [readLetters, if_neg (Nat.not_lt_of_le high), ok]
  · rfl
  · exact no_quote
  · exact no_escape

theorem quote_append (cs rest : List Char) :
    quote cs ++ rest = '"' :: (cs.flatMap escape ++ '"' :: rest) := by
  simp [quote]

theorem yields_readNull (blank : Blank space) :
    Yields (readNull (space ++ 'n' :: 'u' :: 'l' :: 'l' :: rest)) () rest := by
  refine Yields.spaced blank (solid_cons rfl) ?_
  obtain ⟨l, ok, left⟩ := readWord_word ['u', 'l', 'l'] rest
  exact Yields.after ok ⟨((Taken.first 'n' _).upTo l).as (), rfl, rfl, left⟩

theorem yields_none (read : Reader α) (blank : Blank space) :
    Yields (readOption read (space ++ 'n' :: 'u' :: 'l' :: 'l' :: rest)) none rest := by
  refine Yields.spaced blank (solid_cons rfl) ?_
  obtain ⟨l, ok, left⟩ := readWord_word ['u', 'l', 'l'] rest
  exact Yields.after ok ⟨((Taken.first 'n' _).upTo l).as none, rfl, rfl, left⟩

theorem Yields.some {read : Reader α} {value : α} {c : Char} (blank : Blank space)
    (mark : isSpace c = false) (present : c ≠ 'n') (h : Yields (read (c :: text)) value rest) :
    Yields (readOption read (space ++ c :: text)) (some value) rest := by
  refine Yields.spaced blank (solid_cons mark) ?_
  -- The result depends on the text, which can be matched on only as a variable.
  generalize same : c :: text = input at h ⊢
  split
  · next => cases same
  · next =>
    cases same
    exact absurd rfl present
  · exact h.map Option.some

theorem fault_option {read : Reader α} {e : Fault} {c : Char} (blank : Blank space)
    (mark : isSpace c = false) (present : c ≠ 'n') (fault : read (c :: text) = .error e) :
    readOption read (space ++ c :: text) = .error e := by
  refine fault_spaced blank (solid_cons mark) ?_
  generalize same : c :: text = input at fault ⊢
  split
  · next => cases same
  · next =>
    cases same
    exact absurd rfl present
  · rw [fault]
    rfl

/-! ## Whole numbers -/

/-- A character that goes on a number that has begun. -/
def goesOn (c : Char) : Bool := c.isDigit || c = '.' || isExponentMark c

/-- A text before which a number is at its end. -/
def Ends (text : List Char) : Prop := ∀ c more, text = c :: more → goesOn c = false

theorem ends_cons {c : Char} (other : goesOn c = false) : Ends (c :: rest) := by
  rintro _ _ ⟨⟩
  exact other

theorem Ends.no_digit (ends : Ends rest) :
    rest.takeWhile Char.isDigit = [] ∧ rest.dropWhile Char.isDigit = rest := by
  cases rest with
  | nil => exact ⟨rfl, rfl⟩
  | cons c more =>
    have no_digit : c.isDigit = false := by
      have other := ends c more rfl
      simp only [goesOn, Bool.or_eq_false_iff] at other
      exact other.1.1
    simp [no_digit]

theorem Ends.readTail (ends : Ends rest) :
    ∃ l, readTail rest = .ok (⟨none, none⟩, l) ∧ l.rest = rest := by
  cases rest with
  | nil => exact ⟨.all [], rfl, rfl⟩
  | cons c more =>
    have other := ends c more rfl
    simp only [goesOn, Bool.or_eq_false_iff, decide_eq_false_iff_not] at other
    obtain ⟨⟨-, no_point⟩, no_mark⟩ := other
    refine ⟨.all (c :: more), ?_, rfl⟩
    rw [Json.readTail]
    · simp [readExponent, no_mark, bind, Except.bind, pure, Except.pure]
    · rintro _ ⟨⟩
      exact no_point rfl

theorem digit_of_toDigits (n : Nat) : ∀ c ∈ Nat.toDigits 10 n, c.isDigit = true :=
  fun _ member => Nat.isDigit_of_mem_toDigits (b := 10) (by decide) (by decide) member

/-- Only zero is written with a zero in front. -/
theorem toDigits_head {n : Nat} {more : List Char} (written : Nat.toDigits 10 n = '0' :: more) :
    more = [] := by
  induction n using Nat.strongRecOn generalizing more with
  | ind n ih =>
    by_cases small : n < 10
    · rw [Nat.toDigits_of_lt_base small] at written
      exact (List.cons.inj written).2.symm
    · have long : 10 ≤ n := Nat.le_of_not_lt small
      rw [Nat.toDigits_of_base_le (by decide) long] at written
      cases front : Nat.toDigits 10 (n / 10) with
      | nil => exact absurd front Nat.toDigits_ne_nil
      | cons d ds =>
        rw [front] at written
        obtain ⟨rfl, -⟩ := List.cons.inj written
        have single := ih (n / 10) (Nat.div_lt_self (by omega) (by decide)) front
        have value : Nat.ofDigitChars 10 (Nat.toDigits 10 (n / 10)) 0 = n / 10 :=
          Nat.ofDigitChars_toDigits (by decide) (by decide)
        have zero : 0 = n / 10 := by
          rw [front, single] at value
          exact value
        omega

theorem le_ofDigitChars (digits : List Char) (m : Nat) : m ≤ Nat.ofDigitChars 10 digits m := by
  induction digits generalizing m with
  | nil => exact Nat.le_refl _
  | cons d digits ih =>
    rw [Nat.ofDigitChars_cons]
    exact Nat.le_trans (by omega) (ih _)

theorem absorb_below {digits : List Char} {m : Nat}
    (below : Nat.ofDigitChars 10 digits m < UInt64.size) :
    absorb m digits = (Nat.ofDigitChars 10 digits m, digits.length) := by
  induction digits generalizing m with
  | nil => rfl
  | cons d digits ih =>
    rw [Nat.ofDigitChars_cons] at below ⊢
    have small : 10 * m + (d.toNat - 48) < UInt64.size :=
      Nat.lt_of_le_of_lt (le_ofDigitChars digits _) below
    rw [absorb, if_pos small]
    exact congrArg (fun p => (p.1, p.2 + 1)) (ih below)

theorem yields_someDigits {digits : List Char} (some_digit : digits ≠ [])
    (all : ∀ c ∈ digits, c.isDigit = true) (ends : Ends rest) :
    Yields (someDigits (digits ++ rest)) digits rest := by
  obtain ⟨none_left, all_left⟩ := ends.no_digit
  cases digits with
  | nil => exact absurd rfl some_digit
  | cons d ds =>
    have later : ∀ c ∈ ds, c.isDigit = true := fun c member => all c (List.mem_cons_of_mem _ member)
    refine ⟨((Taken.first d (ds ++ rest)).upTo (.dropWhile Char.isDigit (ds ++ rest))).as
      (d :: (ds ++ rest).takeWhile Char.isDigit), if_pos (all d (List.mem_cons_self ..)), ?_, ?_⟩
    · show d :: (ds ++ rest).takeWhile Char.isDigit = d :: ds
      rw [List.takeWhile_append_of_pos later, none_left, List.append_nil]
    · show (ds ++ rest).dropWhile Char.isDigit = rest
      rw [List.dropWhile_append_of_pos later, all_left]

theorem yields_wholeDigits (n : Nat) (ends : Ends rest) :
    Yields (wholeDigits (Nat.toDigits 10 n ++ rest)) (Nat.toDigits 10 n) rest := by
  obtain ⟨t, ok, value, left⟩ := yields_someDigits Nat.toDigits_ne_nil (digit_of_toDigits n) ends
  refine Yields.after ok ⟨t, ?_, value, left⟩
  split
  · next written =>
    rw [value] at written
    cases toDigits_head written
  · rfl

theorem make_toDigits {n : Nat} (below : n < UInt64.size) :
    Number.make false (Nat.toDigits 10 n) ⟨none, none⟩ = .ok (.whole (UInt64.ofNat n)) := by
  have same : Nat.ofDigitChars 10 (Nat.toDigits 10 n) 0 = n :=
    Nat.ofDigitChars_toDigits (by decide) (by decide)
  have taken : absorb 0 (Nat.toDigits 10 n) = (n, (Nat.toDigits 10 n).length) := by
    rw [absorb_below (same.symm ▸ below), same]
  simp [Number.make, taken]

theorem yields_readUnsigned {n : Nat} (below : n < UInt64.size) (ends : Ends rest) :
    Yields (readUnsigned false (Nat.toDigits 10 n ++ rest)) (.whole (UInt64.ofNat n)) rest := by
  obtain ⟨t, ok, value, left⟩ := yields_wholeDigits n ends
  refine Yields.after ok ?_
  obtain ⟨l, tail, behind⟩ := (left.symm ▸ ends : Ends t.rest).readTail
  refine Yields.after tail (Yields.after ?_ ⟨_, rfl, rfl, behind.trans left⟩)
  rw [value]
  exact make_toDigits below

theorem toDigits_first (n : Nat) :
    ∃ d ds, Nat.toDigits 10 n = d :: ds ∧ d.isDigit = true := by
  cases written : Nat.toDigits 10 n with
  | nil => exact absurd written Nat.toDigits_ne_nil
  | cons d ds => exact ⟨d, ds, rfl, digit_of_toDigits n d (written ▸ List.mem_cons_self ..)⟩

theorem not_space_of_digit {c : Char} (digit : c.isDigit = true) : isSpace c = false := by
  simp only [Char.isDigit, Bool.and_eq_true, decide_eq_true_eq] at digit
  simp only [isSpace, Bool.or_eq_false_iff, decide_eq_false_iff_not]
  refine ⟨⟨⟨?_, ?_⟩, ?_⟩, ?_⟩ <;> rintro rfl <;> exact absurd digit (by decide)

theorem yields_readWhole (n : UInt64) (blank : Blank space) (ends : Ends rest) :
    Yields (readWhole (space ++ (Nat.toDigits 10 n.toNat ++ rest))) n rest := by
  have read := yields_readUnsigned n.toNat_lt ends
  obtain ⟨d, ds, written, digit⟩ := toDigits_first n.toNat
  rw [written] at read ⊢
  refine Yields.spaced blank (solid_cons (not_space_of_digit digit)) ?_
  have number : readNumber (d :: (ds ++ rest)) = readUnsigned false (d :: (ds ++ rest)) := by
    rw [readNumber]
    rintro _ ⟨⟩
    exact absurd digit (by decide)
  obtain ⟨t, ok, value, left⟩ := read
  show Yields (if d = '-' || d.isDigit then _ else _) n rest
  rw [if_pos (by simp [digit])]
  refine Yields.after (number.trans ok) ⟨t.as n, ?_, rfl, left⟩
  rw [value, UInt64.ofNat_toNat]

end Worksheet.Json
