import Mathlib.Data.List.TakeWhile
import Worksheet.Proofs.RoundTrip
/-! Encodings that are cut short. Main statement: wherever that happens, the reader finds that text is
missing, and nothing else. -/
namespace Worksheet.Json

variable {α β σ : Type} {text a b p q space : List Char}

/-! ## Texts that are cut short -/

/-- What is left of a text when its end is cut off. -/
def Cut (p text : List Char) : Prop := ∃ c more, text = p ++ c :: more

theorem cut_iff : Cut p text ↔ p <+: text ∧ p ≠ text := by
  constructor
  · rintro ⟨c, more, rfl⟩
    exact ⟨List.prefix_append .., by simp⟩
  · rintro ⟨⟨rest, rfl⟩, other⟩
    cases rest with
    | nil => exact absurd (List.append_nil p).symm other
    | cons c more => exact ⟨c, more, rfl⟩

namespace Cut

theorem nil (h : Cut p []) : False := by
  obtain ⟨c, more, whole⟩ := h
  simp at whole

theorem append (h : Cut p (a ++ b)) : Cut p a ∨ ∃ q, p = a ++ q ∧ Cut q b := by
  obtain ⟨c, more, whole⟩ := h
  obtain ⟨q, rfl, rfl⟩ | ⟨rest, rfl, split⟩ := List.append_eq_append_iff.1 whole
  · exact Or.inr ⟨q, rfl, c, more, rfl⟩
  · cases rest with
    | nil => exact Or.inr ⟨[], by simp, c, more, split.symm⟩
    | cons d rest => exact Or.inl ⟨d, rest, rfl⟩

theorem cons {c : Char} (h : Cut p (c :: text)) : p = [] ∨ ∃ q, p = c :: q ∧ Cut q text := by
  obtain ⟨d, more, whole⟩ := h
  cases p with
  | nil => exact Or.inl rfl
  | cons e q =>
    obtain ⟨rfl, rest⟩ := List.cons.inj whole
    exact Or.inr ⟨q, rfl, d, more, rest⟩

theorem behind (h : Cut p text) (a : List Char) : Cut (a ++ p) (a ++ text) := by
  obtain ⟨c, more, rfl⟩ := h
  exact ⟨c, more, (List.append_assoc ..).symm⟩

/-- A text with white space before it is cut in the white space or behind its first character. -/
theorem spaced {c : Char} (h : Cut p (space ++ c :: text)) (blank : Blank space) :
    Blank p ∨ ∃ q, p = space ++ c :: q ∧ Cut q text := by
  obtain early | ⟨q, rfl, late⟩ := h.append
  · obtain ⟨d, more, rfl⟩ := early
    exact Or.inl fun e member => blank e (List.mem_append_left _ member)
  · obtain rfl | ⟨q, rfl, later⟩ := late.cons
    · exact Or.inl (by rwa [List.append_nil])
    · exact Or.inr ⟨q, rfl, later⟩

theorem ends (h : Cut p text) (ends : Ends text) : Ends p := by
  obtain ⟨d, more, rfl⟩ := h
  rintro c rest rfl
  exact ends c (rest ++ d :: more) rfl

end Cut

/-! ## Missing text -/

/-- Reading finds that text is missing, or what it takes and what it leaves are as given. -/
def Stuck (P : α → List Char → Prop) (result : Except Fault (Taken α text)) : Prop :=
  result = .error .truncated ∨ ∃ t, result = .ok t ∧ P t.value t.rest

namespace Stuck

variable {P Q : α → List Char → Prop} {result : Except Fault (Taken α text)}

theorem imp (h : Stuck P result) (weaker : ∀ a rest, P a rest → Q a rest) : Stuck Q result := by
  obtain missing | ⟨t, ok, known⟩ := h
  · exact Or.inl missing
  · exact Or.inr ⟨t, ok, weaker _ _ known⟩

/-- Text is missing if what comes next misses it. -/
theorem next {next : Taken α text → Except Fault β} (h : Stuck P result)
    (missing : ∀ t, P t.value t.rest → next t = .error .truncated) :
    result >>= next = .error .truncated := by
  obtain rfl | ⟨t, rfl, known⟩ := h
  · rfl
  · exact missing t known

theorem map {read : Reader α} {P : β → List Char → Prop} (f : α → β)
    (h : Stuck (fun a rest => P (f a) rest) (read text)) : Stuck P (read.map f text) := by
  obtain missing | ⟨t, ok, known⟩ := h
  · exact Or.inl (by rw [Reader.map, missing]; rfl)
  · exact Or.inr ⟨t.map f, by rw [Reader.map, ok]; rfl, known⟩

theorem spaced {read : Reader α} (blank : Blank space) (solid : Solid text)
    (h : Stuck P (read text)) : Stuck P (spaced read (space ++ text)) := by
  rw [← skipSpace_rest blank solid] at h
  obtain missing | ⟨t, ok, known⟩ := h
  · exact Or.inl (by rw [Json.spaced, missing]; rfl)
  · exact Or.inr ⟨(skipSpace (space ++ text)).next t, by rw [Json.spaced, ok]; rfl, known⟩

end Stuck

theorem Yields.stuck {P : α → List Char → Prop} {result : Except Fault (Taken α text)} {value : α}
    (h : Yields result value q) (known : P value q) : Stuck P result := by
  obtain ⟨t, ok, rfl, rfl⟩ := h
  exact Or.inr ⟨t, ok, known⟩

theorem spaced_blank {read : Reader α} (blank : Blank space) (missing : read [] = .error .truncated) :
    spaced read space = .error .truncated := by
  have nothing : (skipSpace space).rest = [] := List.dropWhile_eq_nil_iff.2 blank
  have missing' : ∀ rest, rest = [] → read rest = .error .truncated := by
    rintro _ rfl
    exact missing
  rw [spaced, missing' _ nothing]
  rfl

theorem readMark_cut {c : Char} (otherwise : List Char → Fault) (blank : Blank space)
    (mark : isSpace c = false) (cut : Cut p (space ++ c :: text)) :
    Stuck (fun _ rest => Cut rest text) (readMark c otherwise p) := by
  obtain early | ⟨q, rfl, later⟩ := cut.spaced blank
  · exact Or.inl (spaced_blank early rfl)
  · exact (yields_readMark otherwise q blank mark).stuck later

theorem readWord_cut {word : List Char} (cut : Cut q word) :
    readWord word q = .error .truncated := by
  induction word generalizing q with
  | nil => exact absurd cut Cut.nil
  | cons w word ih =>
    obtain rfl | ⟨q, rfl, later⟩ := cut.cons
    · rfl
    · rw [readWord, if_pos rfl, ih later]
      rfl

/-! ## Strings -/

theorem missing_escape (missing : readEscape text = .error .truncated) :
    readLetters ('\\' :: text) = .error .truncated := by
  rw [readLetters, missing]
  rfl

theorem missing_behind_escape {c : Char} (h : Yields (readEscape text) c a)
    (missing : readLetters a = .error .truncated) :
    readLetters ('\\' :: text) = .error .truncated := by
  obtain ⟨t, ok, -, rfl⟩ := h
  rw [readLetters, ok]
  simp only [bind, Except.bind, missing]

theorem missing_behind_plain {c : Char} (no_quote : c ≠ '"') (no_escape : c ≠ '\\')
    (high : 0x20 ≤ c.toNat) (missing : readLetters text = .error .truncated) :
    readLetters (c :: text) = .error .truncated := by
  rw [readLetters, if_neg (Nat.not_lt_of_le high), missing]
  · rfl
  · exact no_quote
  · exact no_escape

theorem byteLength_hexDigit : ∀ n : Fin 32,
    Text.byteLength ['0', '0', hexDigit (n / 16)] < 4 := by
  decide

/-- An escape by a number is cut at any of its characters. -/
theorem readEscape_cut {c : Char} (low : c.toNat < 0x20) (cut : Cut q
    ('u' :: '0' :: '0' :: hexDigit (c.toNat / 16) :: hexDigit (c.toNat % 16) :: text)) :
    readEscape q = .error .truncated ∨ ∃ rest, Yields (readEscape q) c rest ∧ Cut rest text := by
  have short : ∀ unit, readUnit unit = .error .truncated →
      readEscape ('u' :: unit) = .error .truncated := by
    intro unit missing
    rw [readEscape, missing]
    rfl
  obtain rfl | ⟨q₁, rfl, cut₁⟩ := cut.cons
  · exact Or.inl rfl
  obtain rfl | ⟨q₂, rfl, cut₂⟩ := cut₁.cons
  · exact Or.inl (short _ rfl)
  obtain rfl | ⟨q₃, rfl, cut₃⟩ := cut₂.cons
  · exact Or.inl (short _ rfl)
  obtain rfl | ⟨q₄, rfl, cut₄⟩ := cut₃.cons
  · exact Or.inl (short _ rfl)
  obtain rfl | ⟨q₅, rfl, cut₅⟩ := cut₄.cons
  · exact Or.inl (short _ (congrArg _ (if_pos (byteLength_hexDigit ⟨c.toNat, low⟩))))
  · exact Or.inr ⟨q₅, yields_control low, cut₅⟩

theorem readLetters_cut (cs : List Char) (cut : Cut q (cs.flatMap escape ++ ['"'])) :
    readLetters q = .error .truncated := by
  have nothing : readLetters [] = .error .truncated := by rw [readLetters]
  induction cs generalizing q with
  | nil =>
    obtain rfl | ⟨q, rfl, later⟩ := Cut.cons cut
    · exact nothing
    · exact absurd later Cut.nil
  | cons c cs ih =>
    rw [List.flatMap_cons, List.append_assoc] at cut
    obtain ⟨e, written, letter, other⟩ | ⟨low, written⟩ | ⟨written, no_quote, no_escape, high⟩ :=
      escape_cases c
    · rw [written] at cut
      obtain rfl | ⟨q₁, rfl, cut₁⟩ := Cut.cons cut
      · exact nothing
      obtain rfl | ⟨q₂, rfl, cut₂⟩ := Cut.cons cut₁
      · exact missing_escape rfl
      · exact missing_behind_escape (yields_letter letter other) (ih cut₂)
    · rw [written] at cut
      obtain rfl | ⟨q₁, rfl, cut₁⟩ := Cut.cons cut
      · exact nothing
      obtain missing | ⟨rest, read, late⟩ := readEscape_cut low cut₁
      · exact missing_escape missing
      · exact missing_behind_escape read (ih late)
    · rw [written] at cut
      obtain rfl | ⟨q₁, rfl, cut₁⟩ := Cut.cons cut
      · exact nothing
      · exact missing_behind_plain no_quote no_escape high (ih cut₁)

/-! ## Numbers -/

/-- What is left of a numeral is a numeral of a number that is no larger. -/
theorem toDigits_front {n : Nat} (front : p <+: Nat.toDigits 10 n) (filled : p ≠ []) :
    ∃ m, m ≤ n ∧ p = Nat.toDigits 10 m := by
  induction n using Nat.strongRecOn with
  | ind n ih =>
    by_cases small : n < 10
    · rw [Nat.toDigits_of_lt_base small, ← List.nil_append [Nat.digitChar n]] at front
      obtain whole | nothing := List.prefix_concat_iff.1 front
      · exact ⟨n, Nat.le_refl n, by rw [whole, Nat.toDigits_of_lt_base small]; rfl⟩
      · exact absurd (List.prefix_nil.1 nothing) filled
    · have long : 10 ≤ n := Nat.le_of_not_lt small
      rw [Nat.toDigits_of_base_le (by decide) long] at front
      obtain whole | early := List.prefix_concat_iff.1 front
      · exact ⟨n, Nat.le_refl n, by rw [whole, Nat.toDigits_of_base_le (by decide) long]⟩
      · obtain ⟨m, le, same⟩ := ih (n / 10) (Nat.div_lt_self (by omega) (by decide)) early
        exact ⟨m, by omega, same⟩

/-! ## Trees -/

/-- On what is left of a tree, in any layout, the reader finds that text is missing. -/
def Misses (read : Reader α) (t : Tree) : Prop :=
  ∀ (layout : Layout) (depth : Nat) (space q : List Char), Blank space →
    Cut q (t.write layout depth) → read (space ++ q) = .error .truncated

/-- As before, but what is left may be taken, as the front of a number is a number. -/
def Starves (read : Reader α) (t : Tree) : Prop :=
  ∀ (layout : Layout) (depth : Nat) (space q : List Char), Blank space →
    Cut q (t.write layout depth) → Stuck (fun _ rest => rest = []) (read (space ++ q))

theorem Misses.starves {read : Reader α} {t : Tree} (h : Misses read t) : Starves read t :=
  fun layout depth space q blank cut => Or.inl (h layout depth space q blank cut)

theorem Misses.map {read : Reader α} {t : Tree} (f : α → β) (h : Misses read t) :
    Misses (read.map f) t := by
  intro layout depth space q blank cut
  rw [Reader.map, h layout depth space q blank cut]
  rfl

theorem Starves.map {read : Reader α} {t : Tree} (f : α → β) (h : Starves read t) :
    Starves (read.map f) t :=
  fun layout depth space q blank cut => (h layout depth space q blank cut).map f

theorem Tree.cut_first (layout : Layout) (depth : Nat) (t : Tree) :
    Cut [] (t.write layout depth) := by
  obtain ⟨c, more, written, -⟩ := t.write_first layout depth
  exact ⟨c, more, written⟩

section Onward

variable {read : Reader α} {t : Tree} {value : α}

/-- A cut in front of or in a tree leaves nothing behind it, and one behind it leaves it whole. -/
theorem Starves.onward (h : Starves read t) (takes : Takes read t value) (layout : Layout)
    (depth : Nat) (blank : Blank space) (ends : Ends text) (cut : Cut q (space ++ (t.write layout depth ++ text))) :
    Stuck (fun _ rest => rest = [] ∨ Cut rest text) (read q) := by
  obtain early | ⟨q, rfl, late⟩ := cut.append
  · have blank' : Blank q := fun c member => blank c (by
      obtain ⟨d, more, rfl⟩ := early
      exact List.mem_append_left _ member)
    have stuck := h layout depth q [] blank' (t.cut_first layout depth)
    rw [List.append_nil] at stuck
    exact stuck.imp fun _ _ => Or.inl
  · obtain inside | ⟨q, rfl, behind⟩ := late.append
    · exact (h layout depth space q blank inside).imp fun _ _ => Or.inl
    · exact (takes layout depth space q blank (behind.ends ends)).stuck (Or.inr behind)

theorem Misses.onward (h : Misses read t) (takes : Takes read t value) (layout : Layout)
    (depth : Nat) (blank : Blank space) (ends : Ends text) (cut : Cut q (space ++ (t.write layout depth ++ text))) :
    Stuck (fun a rest => a = value ∧ Cut rest text) (read q) := by
  obtain early | ⟨q, rfl, late⟩ := cut.append
  · have blank' : Blank q := fun c member => blank c (by
      obtain ⟨d, more, rfl⟩ := early
      exact List.mem_append_left _ member)
    have missing := h layout depth q [] blank' (t.cut_first layout depth)
    rw [List.append_nil] at missing
    exact Or.inl missing
  · obtain inside | ⟨q, rfl, behind⟩ := late.append
    · exact Or.inl (h layout depth space q blank inside)
    · exact (takes layout depth space q blank (behind.ends ends)).stuck ⟨rfl, behind⟩

end Onward

/-- White space before a value need not be looked at again. -/
theorem misses_spaced {read : Reader α} {t : Tree} (nothing : read [] = .error .truncated)
    (behind : ∀ layout depth c text q, t.write layout depth = c :: text → Cut q text →
      read (c :: q) = .error .truncated) : Misses (spaced read) t := by
  intro layout depth space q blank cut
  obtain ⟨c, text, written, mark, -⟩ := t.write_first layout depth
  rw [written] at cut
  obtain rfl | ⟨q, rfl, cut'⟩ := cut.cons
  · rw [List.append_nil]
    exact spaced_blank blank nothing
  · exact fault_spaced blank (solid_cons mark) (behind layout depth c text q written cut')

theorem misses_null : Misses readNull .null := by
  refine misses_spaced rfl fun layout depth c text q written cut => ?_
  rw [Tree.write_null] at written
  cases written
  show (readWord ['u', 'l', 'l'] q >>= _) = _
  rw [readWord_cut cut]
  rfl

theorem misses_string (s : String) : Misses readString (.string s) := by
  refine misses_spaced rfl fun layout depth c text q written cut => ?_
  rw [Tree.write, quote] at written
  cases written
  show (readLetters q >>= _) = _
  rw [readLetters_cut s.toList cut]
  rfl

theorem readString_cut (name : String) (blank : Blank space) (ends : Ends text)
    (cut : Cut q (space ++ (quote name.toList ++ text))) :
    Stuck (fun a rest => a = name ∧ Cut rest text) (readString q) := by
  refine (misses_string name).onward (takes_string name) .compact 0 blank ends ?_
  rw [Tree.write]
  exact cut

theorem starves_whole (n : UInt64) : Starves readWhole (.whole n.toNat) := by
  intro layout depth space q blank cut
  rw [Tree.write] at cut
  by_cases filled : q = []
  · rw [filled, List.append_nil]
    exact Or.inl (spaced_blank blank rfl)
  · obtain ⟨m, le, rfl⟩ := toDigits_front (cut_iff.1 cut).1 filled
    have same : (UInt64.ofNat m).toNat = m :=
      UInt64.toNat_ofNat_of_lt (Nat.lt_of_le_of_lt le n.toNat_lt)
    have nothing : Ends [] := nofun
    have read := yields_readWhole (UInt64.ofNat m) blank nothing
    rw [List.append_nil, same] at read
    exact read.stuck rfl

theorem misses_none (read : Reader α) : Misses (readOption read) .null := by
  refine misses_spaced rfl fun layout depth c text q written cut => ?_
  rw [Tree.write_null] at written
  cases written
  show (readWord ['u', 'l', 'l'] q >>= _) = _
  rw [readWord_cut cut]
  rfl

theorem Misses.some {read : Reader α} {t : Tree} (present : t ≠ .null) (h : Misses read t) :
    Misses (readOption read) t := by
  intro layout depth space q blank cut
  have inner := h layout depth [] q blank_nil cut
  obtain ⟨c, more, written, mark, -, null⟩ := t.write_first layout depth
  rw [written] at cut
  obtain rfl | ⟨q, rfl, -⟩ := cut.cons
  · rw [List.append_nil]
    exact spaced_blank blank rfl
  · exact fault_option blank mark (fun same => present (null same)) inner

/-! ## Arrays -/

/-- An element is missing, or what is left goes up to it. -/
theorem elementAhead_cut (first : Bool) (layout : Layout) (depth : Nat) (t : Tree)
    (blank : Blank space) (cut : Cut p (lead first ++ (space ++ (t.write layout depth ++ text)))) :
    elementAhead first p = .error .truncated ∨
      ∃ q, Comes (elementAhead first p) q ∧ Cut q (space ++ (t.write layout depth ++ text)) := by
  obtain ⟨c, more, written, mark, no_close, -⟩ := t.write_first layout depth
  rw [written] at cut ⊢
  cases first with
  | true =>
    obtain early | ⟨q, rfl, -⟩ := Cut.spaced cut blank
    · exact Or.inl (by rw [elementAhead, ahead_blank early])
    · exact Or.inr ⟨_, comes_solid (leads_lead true) q blank mark no_close, cut⟩
  | false =>
    obtain rfl | ⟨p, rfl, cut'⟩ := Cut.cons cut
    · exact Or.inl rfl
    obtain early | ⟨q, rfl, -⟩ := Cut.spaced cut' blank
    · exact Or.inl (by simp [elementAhead, ahead, isSpace, Taken.first, ahead_blank early])
    · exact Or.inr ⟨_, comes_solid (leads_lead false) q blank mark no_close, cut'⟩

theorem closing_cut {mark : Char} (blank : Blank space) (cut : Cut q (space ++ [mark])) :
    Blank q := by
  obtain early | ⟨rest, rfl, late⟩ := cut.spaced blank
  · exact early
  · exact absurd late Cut.nil

theorem readElements_missing {read : Reader α} {first : Bool}
    (missing : elementAhead first p = .error .truncated) :
    readElements read first p = .error .truncated := by
  rw [readElements, missing]
  rfl

section Elements

variable {read : Reader α} {toTree : α → Tree} (takes : ∀ a, Takes read (toTree a) a)
  (starves : ∀ a, Starves read (toTree a))
include takes starves

theorem elements_cons_cut (first : Bool) (layout : Layout) (depth : Nat) (a : α) (ends : Ends text)
    (missing : ∀ rest, Cut rest text → readElements read false rest = .error .truncated)
    (cut : Cut p (lead first ++ (layout.gap depth ++ ((toTree a).write layout depth ++ text)))) :
    readElements read first p = .error .truncated := by
  have gap := blank_gap layout depth
  obtain none_ahead | ⟨q, ⟨l, here, rfl⟩, cut'⟩ := elementAhead_cut first layout depth _ gap cut
  · exact readElements_missing none_ahead
  · have element := (starves a).onward (takes a) layout depth gap ends cut'
    rw [readElements]
    refine fault_after here (element.next fun t left => ?_)
    have later : readElements read false t.rest = .error .truncated := by
      obtain nothing | behind := left
      · rw [nothing]
        exact readElements_missing rfl
      · exact missing _ behind
    show (readElements read false t.rest >>= _) = _
    rw [later]
    rfl

theorem elements_cut (layout : Layout) (depth : Nat) (values : List α) (blank : Blank space)
    (cut : Cut p (Tree.writeElements layout depth (values.map toTree) ++ (space ++ [']']))) :
    readElements read false p = .error .truncated := by
  induction values generalizing p with
  | nil =>
    rw [List.map_nil, Tree.writeElements] at cut
    exact readElements_missing (by rw [elementAhead, ahead_blank (closing_cut blank cut)])
  | cons a values ih =>
    rw [List.map_cons, writeElements_cons] at cut
    exact elements_cons_cut takes starves false layout depth a
      (ends_elements layout depth _ blank) (fun _ => ih) cut

theorem misses_array (values : List α) : Misses (readArray read) (.array (values.map toTree)) := by
  intro layout depth space q blank cut
  have close := blank_gap layout depth
  have behind : ∃ text, (Tree.array (values.map toTree)).write layout depth = '[' :: text ∧
      ∀ rest, Cut rest text → readElements read true rest = .error .truncated := by
    cases values with
    | nil =>
      refine ⟨[']'], by rw [List.map_nil, Tree.write], fun rest cut => ?_⟩
      obtain rfl | ⟨rest, rfl, cut'⟩ := cut.cons
      · exact readElements_missing rfl
      · exact absurd cut' Cut.nil
    | cons a values =>
      refine ⟨_, (List.append_nil _).symm.trans (write_array ..), fun rest cut => ?_⟩
      exact elements_cons_cut takes starves true layout _ a (ends_elements layout _ _ close)
        (fun _ => elements_cut takes starves layout _ values close) cut
  obtain ⟨text, written, missing⟩ := behind
  rw [written] at cut
  refine (readMark_cut wrongKind blank rfl (cut.behind space)).next fun t cut' => ?_
  show (readElements read true t.rest >>= _) = _
  rw [missing _ cut']
  rfl

end Elements

/-! ## Objects -/

theorem memberAhead_cut (first : Bool) (cs : List Char) (blank : Blank space)
    (cut : Cut p (lead first ++ (space ++ (quote cs ++ text)))) :
    memberAhead first p = .error .truncated ∨
      ∃ q, Comes (memberAhead first p) q ∧ Cut q (space ++ (quote cs ++ text)) := by
  rw [quote_append] at cut ⊢
  cases first with
  | true =>
    obtain early | ⟨q, rfl, -⟩ := Cut.spaced cut blank
    · exact Or.inl (by rw [memberAhead, ahead_blank early])
    · exact Or.inr ⟨_, comes_quoted (leads_lead true) q blank, cut⟩
  | false =>
    obtain rfl | ⟨p, rfl, cut'⟩ := Cut.cons cut
    · exact Or.inl rfl
    obtain early | ⟨q, rfl, -⟩ := Cut.spaced cut' blank
    · exact Or.inl (by simp [memberAhead, ahead, isSpace, Taken.first, ahead_blank early])
    · exact Or.inr ⟨_, comes_quoted (leads_lead false) q blank, cut'⟩

theorem ends_colon (layout : Layout) (text : List Char) : Ends (layout.colon ++ text) := by
  cases layout <;> exact ends_cons rfl

theorem readColon_cut (layout : Layout) (cut : Cut q (layout.colon ++ text)) :
    ∃ space, Blank space ∧ Stuck (fun _ rest => Cut rest (space ++ text)) (readColon q) := by
  obtain ⟨space, written, blank⟩ := colon_spaced layout
  rw [written] at cut
  exact ⟨space, blank, readMark_cut malformed blank_nil rfl cut⟩

theorem readMembers_missing {members : Members σ} {s : σ} {first : Bool}
    (missing : memberAhead first p = .error .truncated) :
    readMembers members s first p = .error .truncated := by
  rw [readMembers, missing]
  rfl

section Members

variable {members : Members σ} {s s' : σ} {name : String} {t : Tree} {read : Reader σ}

theorem members_cons_cut (chosen : members s name = .ok read) (takes : Takes read t s')
    (misses : Misses read t) (first : Bool) (layout : Layout) (depth : Nat) (ends : Ends text)
    (missing : ∀ rest, Cut rest text → readMembers members s' false rest = .error .truncated)
    (cut : Cut p (lead first ++ (layout.gap depth ++ (quote name.toList ++ (layout.colon ++
      (t.write layout depth ++ text)))))) :
    readMembers members s first p = .error .truncated := by
  have gap := blank_gap layout depth
  obtain none_ahead | ⟨q, ⟨l, here, rfl⟩, cut'⟩ := memberAhead_cut first name.toList gap cut
  · exact readMembers_missing none_ahead
  have named := readString_cut name gap (ends_colon layout _) cut'
  rw [readMembers]
  refine fault_after here (named.next fun n taken => ?_)
  obtain ⟨rfl, behind_name⟩ := taken
  obtain ⟨space, blank, colon⟩ := readColon_cut layout behind_name
  refine fault_after chosen (colon.next fun c behind_colon => ?_)
  have member := misses.onward takes layout depth blank ends behind_colon
  refine member.next fun v taken => ?_
  obtain ⟨value, behind⟩ := taken
  show (readMembers members v.value false v.rest >>= _) = _
  rw [value, missing _ behind]
  rfl

/-- Members that are read one after another, each by a reader that finds out if text is missing. -/
inductive Followed (members : Members σ) : σ → List (String × Tree) → Prop
  | nil (s : σ) : Followed members s []
  | cons {s s' : σ} {name : String} {t : Tree} {more : List (String × Tree)} {read : Reader σ} :
    members s name = .ok read → Takes read t s' → Misses read t → Followed members s' more →
      Followed members s ((name, t) :: more)

theorem members_cut {ms : List (String × Tree)} (followed : Followed members s ms) (layout : Layout)
    (depth : Nat) (blank : Blank space)
    (cut : Cut p (Tree.writeMembers layout depth ms ++ (space ++ ['}']))) :
    readMembers members s false p = .error .truncated := by
  induction followed generalizing p with
  | nil s =>
    rw [Tree.writeMembers] at cut
    exact readMembers_missing (by rw [memberAhead, ahead_blank (closing_cut blank cut)])
  | cons chosen takes misses _ ih =>
    rw [writeMembers_cons] at cut
    exact members_cons_cut chosen takes misses false layout depth
      (ends_members layout depth _ blank) (fun _ => ih) cut

theorem misses_record {ms : List (String × Tree)} {finish : σ → Except Fault α} {fields : Reader α}
    (followed : Followed members s ms) :
    Misses (readRecord members s finish fields) (.object ms) := by
  refine misses_spaced rfl fun layout depth c text q written cut => ?_
  have close := blank_gap layout depth
  have missing : c = '{' ∧ readMembers members s true q = .error .truncated := by
    cases followed with
    | nil =>
      rw [Tree.write] at written
      cases written
      obtain rfl | ⟨rest, rfl, cut'⟩ := cut.cons
      · exact ⟨rfl, readMembers_missing rfl⟩
      · exact absurd cut' Cut.nil
    | cons chosen takes misses others =>
      rw [← List.append_nil (Tree.write ..), write_object] at written
      cases written
      exact ⟨rfl, members_cons_cut chosen takes misses true layout _
        (ends_members layout _ _ close) (fun _ => members_cut others layout _ close) cut⟩
  obtain ⟨rfl, missing⟩ := missing
  show (readMembers members s true q >>= _) = _
  rw [missing]
  rfl

end Members

end Worksheet.Json

namespace Worksheet

open Json

variable {α β : Type} {q space text : List Char}

theorem misses_optionTree {read : Reader β} (toTree : α → Tree) (present : ∀ a, toTree a ≠ .null)
    (each : ∀ a, Misses read (toTree a)) (a : Option α) :
    Misses (readOption read) (optionTree toTree a) := by
  cases a with
  | none => exact misses_none read
  | some a => exact (each a).some (present a)

theorem Key.starves (k : Key) : Starves Key.read k.toTree := (starves_whole k.val).map Key.mk

namespace Status

theorem misses_named {name : String} {read : Reader Status} {t : Tree} {s : Status}
    (chosen : readNamed name = .ok read) (takes : Takes read t s) (misses : Misses read t) :
    Misses Status.read (.object [(name, t)]) := by
  refine misses_spaced rfl fun layout depth c text q written cut => ?_
  have close := blank_gap layout depth
  have gap := blank_gap layout (depth + 1)
  rw [← List.append_nil (Tree.write ..), write_object, Tree.writeMembers, List.nil_append] at written
  cases written
  have named := readString_cut name gap (ends_colon layout _) cut
  refine named.next fun n taken => ?_
  obtain ⟨rfl, behind_name⟩ := taken
  obtain ⟨space, blank, colon⟩ := readColon_cut layout behind_name
  refine fault_after chosen (colon.next fun c behind_colon => ?_)
  have value := misses.onward takes layout _ blank (close.ends (ends_cons rfl)) behind_colon
  refine value.next fun v taken => ?_
  obtain ⟨-, behind⟩ := taken
  exact (readMark_cut malformed close rfl behind).next fun e cut' => absurd cut' Cut.nil

theorem misses (s : Status) : Misses Status.read s.toTree := by
  cases s with
  | complete =>
    exact misses_named rfl (takes_null.map fun _ => Status.complete) (misses_null.map _)
  | failed message =>
    exact misses_named rfl ((takes_string message).map Status.failed) ((misses_string message).map _)

end Status

theorem Entry.misses (e : Entry) : Misses Entry.read e.toTree := by
  have source : Takes (readOption readString) (optionTree .string e.source) e.source ∧
      Misses (readOption readString) (optionTree .string e.source) :=
    ⟨(reads_option reads_text (shown_option shown_string e.source)).takes,
      misses_optionTree Tree.string (fun _ => nofun) misses_string e.source⟩
  have present (s : Status) : s.toTree ≠ .null := by cases s <;> nofun
  have status : Takes (readOption Status.read) (optionTree Status.toTree e.status) e.status ∧
      Misses (readOption Status.read) (optionTree Status.toTree e.status) :=
    ⟨(reads_option Status.reads (shown_option Status.shown_tree e.status)).takes,
      misses_optionTree Status.toTree present Status.misses e.status⟩
  have followed : Followed Draft.members {}
      [("source", optionTree .string e.source), ("status", optionTree Status.toTree e.status),
        ("output", .string e.output)] :=
    .cons rfl (source.1.map fun v => Draft.mk (some v) none none) (source.2.map _)
      (.cons rfl (status.1.map fun v => Draft.mk (some e.source) (some v) none) (status.2.map _)
        (.cons rfl ((takes_string e.output).map fun v =>
          Draft.mk (some e.source) (some e.status) (some v)) ((misses_string e.output).map _)
          (.nil _)))
  exact misses_record followed

theorem Key.reads_tree (k : Key) : Reads Key.read k.toTree.tokens k := by
  rw [Key.tokens_tree]
  exact k.reads

theorem Order.misses (o : Order) : Misses Order.read o.toTree :=
  misses_record (.cons rfl ((reads_trees Key.reads_tree o.keys).takes.map some)
    ((misses_array (fun k => k.reads_tree.takes) Key.starves o.keys).map _) (.nil _))

namespace Report

theorem readElement_cut {read : Reader α} {t : Tree} {a : α} (starves : Starves read t)
    (takes : Takes read t a) (first : Bool) (layout : Layout) (depth : Nat) (blank : Blank space)
    (ends : Ends text) (cut : Cut q (lead first ++ (space ++ (t.write layout depth ++ text)))) :
    Stuck (fun _ rest => rest = [] ∨ Cut rest text) (readElement first read q) := by
  obtain none_ahead | ⟨p, ⟨l, here, rfl⟩, cut'⟩ := elementAhead_cut first layout depth t blank cut
  · exact Or.inl (by rw [readElement, none_ahead]; rfl)
  · obtain missing | ⟨v, ok, left⟩ := starves.onward takes layout depth blank ends cut'
    · refine Or.inl (fault_after here ?_)
      show (read l.rest >>= _) = _
      rw [missing]
      rfl
    · refine Or.inr ⟨l.next v, ?_, left⟩
      rw [readElement, here]
      show (read l.rest >>= _) = _
      rw [ok]
      rfl

theorem misses_two {first : Reader α} {second : Reader β} {t u : Tree} {a : α} {b : β}
    (takes : Takes first t a) (takes' : Takes second u b) (starves : Starves first t)
    (starves' : Starves second u) : Misses (readTwo first second) (.array [t, u]) := by
  intro layout depth space q blank cut
  have gap := blank_gap layout (depth + 1)
  have close := blank_gap layout depth
  have written := write_array layout depth t [u] []
  rw [List.append_nil, writeElements_cons, Tree.writeElements, List.nil_append] at written
  rw [written] at cut
  refine (readMark_cut wrongKind blank rfl (cut.behind space)).next fun start cut₁ => ?_
  refine (readElement_cut starves takes true layout _ gap (ends_cons rfl) cut₁).next fun v left => ?_
  obtain nothing | cut₂ := left
  · have missing : readElement false second v.rest = .error .truncated := by
      rw [nothing]
      rfl
    show (readElement false second v.rest >>= _) = _
    rw [missing]
    rfl
  have ends : Ends (layout.gap depth ++ [']']) := close.ends (ends_cons rfl)
  refine (readElement_cut starves' takes' false layout _ gap ends cut₂).next fun w left => ?_
  have missing : closeArray w.rest = .error .truncated := by
    obtain nothing | cut₃ := left
    · rw [nothing]
      rfl
    · exact (spaced_blank (closing_cut close cut₃) rfl : readMark ']' malformed w.rest = _)
  show (closeArray w.rest >>= _) = _
  rw [missing]
  rfl

theorem misses (r : Report) : Misses Report.read r.toTree := by
  have present (keys : List Key) : (Order.mk keys).toTree ≠ .null := nofun
  have pair (p : Key × Entry) : Reads (readTwo Key.read Entry.read) (pairTree p).tokens p :=
    reads_pair (shown_pair p)
  have order := reads_order (shown_option (fun keys => Order.record_tree ⟨keys⟩) r.order)
  have order' : Misses (readOption Order.read)
      (optionTree (fun keys => (Order.mk keys).toTree) r.order) :=
    misses_optionTree _ present (fun keys => (Order.mk keys).misses) r.order
  have pair' (p : Key × Entry) : Misses (readTwo Key.read Entry.read) (pairTree p) :=
    misses_two p.1.reads_tree.takes (Entry.reads p.2.record_tree).takes p.1.starves
      p.2.misses.starves
  have entries := misses_array (fun p => (pair p).takes) (fun p => (pair' p).starves)
    r.entries.toList
  exact (misses_two order.takes (reads_trees pair r.entries.toList).takes order'.starves
    entries.starves).map _

theorem decode_cut (r : Report) (layout : Layout) {front : String}
    (cut : Cut front.toList (r.toTree.text layout).toList) : decode front = .error .truncated := by
  rw [Tree.text, String.toList_ofList] at cut
  have missing := r.misses layout 0 [] front.toList blank_nil cut
  rw [List.nil_append] at missing
  rw [decode, readAll, missing]
  rfl

/-- What is left of an encoding whose end is cut off is told apart from every report, and from every
text that is wrong in another way: it is truncated. So no encoding begins another one. -/
theorem truncated_when_cut :
    (∀ (r : Report) (layout : Layout) (front : String),
      front.toList <+: (r.toTree.text layout).toList → front ≠ r.toTree.text layout →
        decode front = .error .truncated) ∧
    (∀ (r s : Report) (layout layout' : Layout),
      (r.toTree.text layout).toList <+: (s.toTree.text layout').toList →
        r.toTree.text layout = s.toTree.text layout') := by
  have first (r : Report) (layout : Layout) (front : String)
      (begins : front.toList <+: (r.toTree.text layout).toList)
      (other : front ≠ r.toTree.text layout) : decode front = .error .truncated :=
    r.decode_cut layout (cut_iff.2 ⟨begins, mt String.toList_inj.1 other⟩)
  refine ⟨first, fun r s layout layout' begins => ?_⟩
  by_contra other
  cases (r.decode_text layout).symm.trans (first s layout' _ begins other)

theorem truncated_when_cut_inside : ∃ r : Report,
    r = (rejected ⟨12⟩ "\x01" "m").merge (ofOrder [⟨12⟩]) ∧
    decode "[\x7b\"val\":[1" = .error .truncated ∧
    decode "[\x7b\"val\":[12]\x7d,[[12,\x7b\"source\":\"\\u00" = .error .truncated ∧
    decode "[\n  \x7b\n    \"val\": " = .error .truncated := by
  let r : Report := (rejected ⟨12⟩ "\x01" "m").merge (ofOrder [⟨12⟩])
  have cut := truncated_when_cut.1 r
  exact ⟨r, rfl, cut .compact _ (by decide) (by decide), cut .compact _ (by decide) (by decide),
    cut .pretty _ (by decide +kernel) (by decide +kernel)⟩

end Report

end Worksheet
