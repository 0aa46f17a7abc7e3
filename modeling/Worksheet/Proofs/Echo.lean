import Worksheet.Proofs.Blocks
import Worksheet.Proofs.Exactness
import Worksheet.Proofs.Rendering
/-! The output of a declaration, taken as a text of its own. Main statement: it is one item, which is
a declaration of the same value where the value has a literal, and broken where it has none. -/
namespace Worksheet.Calc

open Pattern

variable {c : Char} {cs row more : List Char} {v : Value}

/-! ## Characters as they are shown -/

/-- Shown by an escape that literals do not have. -/
def Veiled (c : Char) : Prop := Text.showChar c ∈ [['\\', '0'], ['\\', 'r'], Text.codePoint c]

instance (c : Char) : Decidable (Veiled c) := inferInstanceAs (Decidable (_ ∈ _))

/-- A character is shown as itself, by an escape of literals, or by another one. -/
theorem showChar_cases (c : Char) :
    (Text.showChar c = [c] ∧ c ≠ '"' ∧ c ≠ '\\' ∧ c ≠ '\n') ∨
      (∃ e, Text.showChar c = ['\\', e] ∧ escaped? e = some c) ∨ Veiled c := by
  unfold Veiled Text.showChar
  split
  · exact Or.inr (Or.inr (by simp))
  · exact Or.inr (Or.inl ⟨_, rfl, rfl⟩)
  · exact Or.inr (Or.inr (by simp))
  · exact Or.inr (Or.inl ⟨_, rfl, rfl⟩)
  · exact Or.inr (Or.inl ⟨_, rfl, rfl⟩)
  · exact Or.inr (Or.inl ⟨_, rfl, rfl⟩)
  · split
    · exact Or.inr (Or.inr (by simp))
    · exact Or.inl ⟨rfl, by assumption, by assumption, by assumption⟩

theorem charForm_or_veiled (c : Char) : CharForm c (Text.showChar c) ∨ Veiled c := by
  rcases showChar_cases c with ⟨own, no_quote, no_escape, _⟩ | ⟨e, escape, known⟩ | veiled
  · exact Or.inl (own ▸ .plain no_quote no_escape)
  · exact Or.inl (escape ▸ escaped?_iff.1 known)
  · exact Or.inr veiled

theorem hexDigits_part (n : Nat) : ∀ c ∈ Nat.toDigits 16 n, NamePart c := by
  have digit : ∀ d < 16, NamePart (Nat.digitChar d) := by decide
  induction n using Nat.strongRecOn with
  | ind n ih =>
    by_cases small : n < 16
    · rw [Nat.toDigits_of_lt_base small]
      exact List.forall_mem_singleton.2 (digit n small)
    · have long : 16 ≤ n := Nat.le_of_not_lt small
      rw [Nat.toDigits_of_base_le (by decide) long, List.forall_mem_append]
      exact ⟨ih _ (Nat.div_lt_self (by omega) (by decide)),
        List.forall_mem_singleton.2 (digit _ (Nat.mod_lt _ (by decide)))⟩

/-- What stands behind the backslash of a veiled character. -/
theorem Veiled.escape (veiled : Veiled c) : ∃ e behind, Text.showChar c = '\\' :: e :: behind ∧
    escaped? e = none ∧ e ≠ '\n' ∧ ∀ d ∈ behind, d ≠ '"' ∧ d ≠ '\\' ∧ d ≠ '\n' := by
  simp only [Veiled, List.mem_cons, List.not_mem_nil, or_false] at veiled
  rcases veiled with zero | back | point
  · exact ⟨'0', [], zero, rfl, by decide, nofun⟩
  · exact ⟨'r', [], back, rfl, by decide, nofun⟩
  · refine ⟨'u', '{' :: Nat.toDigits 16 c.toNat ++ ['}'], point, rfl, by decide, ?_⟩
    simp only [List.cons_append, List.forall_mem_cons, List.forall_mem_append]
    refine ⟨by decide, fun d member => ?_, by decide, nofun⟩
    have part := hexDigits_part c.toNat d member
    refine ⟨?_, ?_, ?_⟩ <;> rintro rfl <;> exact absurd part (by decide)

theorem plain_append_inside (plain : ∀ d ∈ cs, d ≠ '"' ∧ d ≠ '\\') (member : more ∈ inside) :
    cs ++ more ∈ inside := by
  induction cs with
  | nil => exact member
  | cons d cs ih =>
    obtain ⟨first, rest⟩ := List.forall_mem_cons.1 plain
    exact plain_inside first.1 first.2 (ih rest)

theorem showChar_inside (c : Char) (member : more ∈ inside) : Text.showChar c ++ more ∈ inside := by
  rcases charForm_or_veiled c with form | veiled
  · exact form.inside member
  · obtain ⟨e, behind, shown, _, no_feed, plain⟩ := veiled.escape
    rw [shown]
    refine escape_inside no_feed (plain_append_inside (fun d there => ?_) member)
    exact ⟨(plain d there).1, (plain d there).2.1⟩

theorem shown_inside (cs : List Char) : cs.flatMap Text.showChar ∈ inside := by
  induction cs with
  | nil => exact nil_inside
  | cons c cs ih => exact showChar_inside c ih

theorem shown_form (each : ∀ c ∈ cs, CharForm c (Text.showChar c)) :
    TextForm cs (cs.flatMap Text.showChar) := by
  induction cs with
  | nil => exact .nil
  | cons c cs ih =>
    obtain ⟨first, rest⟩ := List.forall_mem_cons.1 each
    exact .cons first (ih rest)

theorem Veiled.unread (veiled : Veiled c) (more : List Char) :
    unescape? (Text.showChar c ++ more) = none := by
  obtain ⟨e, behind, shown, unknown, _⟩ := veiled.escape
  rw [shown, List.cons_append, List.cons_append, unescape?_escape, unknown, Option.bind_none]

/-- One veiled character leaves the whole literal without a meaning. -/
theorem shown_unread (member : c ∈ cs) (veiled : Veiled c) :
    unescape? (cs.flatMap Text.showChar) = none := by
  induction cs with
  | nil => exact absurd member List.not_mem_nil
  | cons d cs ih =>
    rw [List.flatMap_cons]
    rcases List.mem_cons.1 member with rfl | later
    · exact veiled.unread _
    · rcases charForm_or_veiled d with form | veiled'
      · rw [form.unescape?, ih later, Option.map_none]
      · exact veiled'.unread _

theorem no_feed_in_shown (cs : List Char) : '\n' ∉ cs.flatMap Text.showChar := by
  intro member
  obtain ⟨c, _, inside⟩ := List.mem_flatMap.1 member
  rcases showChar_cases c with ⟨own, _, _, other⟩ | ⟨e, escape, known⟩ | veiled
  · rw [own, List.mem_singleton] at inside
    exact other inside.symm
  · rw [escape] at inside
    simp only [List.mem_cons, List.not_mem_nil, or_false] at inside
    rcases inside with same | rfl
    · cases same
    · cases known
  · obtain ⟨e, behind, shown, _, other, plain⟩ := veiled.escape
    rw [shown, List.mem_cons, List.mem_cons] at inside
    rcases inside with same | rfl | inside
    · cases same
    · exact other rfl
    · exact (plain _ inside).2.2 rfl

/-! ## A text of one line -/

/-- A line that starts an item and has nothing to trim. -/
structure Line (row : List Char) : Prop where
  no_feed : '\n' ∉ row
  first : ∃ c, row.head? = some c ∧ Text.isBlank c = false ∧ c ≠ '#'
  last : ∃ c, row.getLast? = some c ∧ Text.isBlank c = false

theorem lines_of_no_feed (no_feed : '\n' ∉ row) (filled : row ≠ []) : Text.lines row = [row] := by
  fun_induction Text.lines row with
  | case1 => exact absurd rfl filled
  | case2 => exact absurd (List.mem_cons_self ..) no_feed
  | case3 => exact absurd (List.mem_cons_of_mem _ (List.mem_cons_self ..)) no_feed
  | case4 c rest _ _ none_left ih =>
    have alone : rest = [] := by
      by_contra some_left
      have one := ih (fun member => no_feed (List.mem_cons_of_mem _ member)) some_left
      cases none_left.symm.trans one
    rw [alone]
  | case5 c rest _ _ line more split ih =>
    have some_left : rest ≠ [] := by
      rintro rfl
      cases split
    have one := ih (fun member => no_feed (List.mem_cons_of_mem _ member)) some_left
    cases split.symm.trans one
    rfl

theorem Line.splitItems (line : Line row) : splitItems row = [row] := by
  obtain ⟨c, first, visible, other⟩ := line.first
  obtain ⟨rest, rfl⟩ := List.head?_eq_some_iff.1 first
  obtain ⟨d, last, solid⟩ := line.last
  obtain ⟨front, same⟩ := List.getLast?_eq_some_iff.1 last
  have one_line : Text.lines (c :: rest) = [c :: rest] :=
    lines_of_no_feed line.no_feed (List.cons_ne_nil _ _)
  have start : Text.trimStart (c :: rest) = c :: rest :=
    List.dropWhile_cons_of_neg (by simp [visible])
  have no_comment : isComment (c :: rest) = false := by
    rw [isComment, start]
    simp [other]
  have no_blank : isBlankLine (c :: rest) = false := by
    simp [isBlankLine, visible]
  have items : itemLines (c :: rest) = [c :: rest] := by
    simp [itemLines, one_line, no_comment, no_blank]
  have trimmed : Text.trimEnd (c :: rest) = c :: rest := by
    rw [same, Text.trimEnd, List.reverse_append, List.reverse_singleton, List.singleton_append,
      List.dropWhile_cons_of_neg (by simp [solid]), List.reverse_cons, List.reverse_reverse]
  rw [Calc.splitItems, items, blocks, List.takeWhile_nil, List.dropWhile_nil, blocks]
  simp [Text.join, trimmed]

theorem not_blank_of_part (part : NamePart c) : Text.isBlank c = false := by
  have visible : 33 ≤ c.toNat ∧ c.toNat ≤ 126 := by
    simp only [NamePart, Letter, Digit, Char.le_def, UInt32.le_iff_toNat_le] at part
    rcases part with (⟨low, high⟩ | ⟨low, high⟩) | ⟨low, high⟩ | rfl | rfl
    · exact ⟨le_trans (by decide) low, le_trans high (by decide)⟩
    · exact ⟨le_trans (by decide) low, le_trans high (by decide)⟩
    · exact ⟨le_trans (by decide) low, le_trans high (by decide)⟩
    · decide
    · decide
  simp only [Text.isBlank, Bool.or_eq_false_iff, Bool.and_eq_false_iff, decide_eq_false_iff_not]
  omega

theorem not_hash_of_part (part : NamePart c) : c ≠ '#' := by
  rintro rfl
  exact absurd part (by decide)

theorem no_feed_of_parts (parts : ∀ c ∈ cs, NamePart c) : '\n' ∉ cs :=
  fun member => absurd (parts _ member) (by decide)

theorem digits_part (n : Nat) : ∀ c ∈ Nat.toDigits 10 n, NamePart c :=
  fun c member => Or.inr (Or.inl ((mem_numeral.1 (toDigits_numeral n)).2 c member))

theorem line_of_digits (n : Nat) : Line (Nat.toDigits 10 n) := by
  have parts := digits_part n
  have filled : Nat.toDigits 10 n ≠ [] := Nat.toDigits_ne_nil
  have first := parts _ (List.head_mem filled)
  have last := parts _ (List.getLast_mem filled)
  exact ⟨no_feed_of_parts parts,
    ⟨_, List.head?_eq_some_head filled, not_blank_of_part first, not_hash_of_part first⟩,
    ⟨_, List.getLast?_eq_some_getLast filled, not_blank_of_part last⟩⟩

/-- More may stand in front of a line. -/
theorem Line.behind (line : Line row) (front : List Char) (no_feed : '\n' ∉ front)
    (first : ∃ c, front.head? = some c ∧ Text.isBlank c = false ∧ c ≠ '#') : Line (front ++ row) := by
  obtain ⟨c, here, visible⟩ := first
  obtain ⟨d, there, solid⟩ := line.last
  refine ⟨?_, ⟨c, ?_, visible⟩, d, ?_, solid⟩
  · exact fun member => (List.mem_append.1 member).elim no_feed line.no_feed
  · rw [List.head?_append, here, Option.some_or]
  · rw [List.getLast?_append, there, Option.some_or]

/-! ## Values as they are shown -/

namespace Value

/-- Values with a literal: integers whose negation is one, and texts in which every escape that is
shown is one of literals. -/
def Readable : Value → Prop
  | int n => n.toInt ≠ -2 ^ 63
  | text s => ∀ c ∈ s.toList, ∀ escape, Text.showChar c = '\\' :: escape →
      escape ∈ [['n'], ['t'], ['"'], ['\\']]

def Unreadable : Value → Prop
  | int n => n.toInt = -2 ^ 63
  | text s => ∃ c ∈ s.toList, Veiled c

theorem readable_or_unreadable (v : Value) : v.Readable ∨ v.Unreadable := by
  cases v with
  | int n => exact (em (n.toInt = -2 ^ 63)).symm
  | text s =>
    by_cases veiled : ∃ c ∈ s.toList, Veiled c
    · exact Or.inr veiled
    · refine Or.inl fun c member escape shown => ?_
      rcases showChar_cases c with ⟨own, _, no_escape, _⟩ | ⟨e, form, known⟩ | hidden
      · exact absurd (List.cons.inj (own.symm.trans shown)).1 no_escape
      · cases form.symm.trans shown
        cases escaped?_iff.1 known <;> decide
      · exact absurd ⟨c, member, hidden⟩ veiled

/-- The expression that a value is shown as. -/
def toExpr : Value → Expr
  | int n => if 0 ≤ n.toInt then .int n else .neg (.int (-n))
  | text s => .text s

end Value

theorem render_int (n : Int64) : (Value.int n).render.toList =
    if 0 ≤ n.toInt then Nat.toDigits 10 n.toInt.toNat
    else '-' :: Nat.toDigits 10 (-n.toInt).toNat := by
  rw [Value.render, Int.toString_eq_repr, Int.repr_eq_if]
  split
  · exact Nat.toList_repr
  · rw [String.toList_append, Nat.toList_repr]
    rfl

theorem render_text (s : String) :
    (Value.text s).render.toList = '"' :: s.toList.flatMap Text.showChar ++ ['"'] :=
  String.toList_ofList

theorem line_of_render (v : Value) : Line v.render.toList := by
  cases v with
  | int n =>
    rw [render_int]
    split
    · exact line_of_digits _
    · exact (line_of_digits _).behind ['-'] (by decide) ⟨'-', rfl, by decide, by decide⟩
  | text s =>
    have quote : Line ['"'] := ⟨by decide, ⟨'"', rfl, by decide, by decide⟩, '"', rfl, by decide⟩
    rw [render_text]
    refine quote.behind _ (fun member => ?_) ⟨'"', rfl, by decide, by decide⟩
    rcases List.mem_cons.1 member with same | inside
    · cases same
    · exact no_feed_in_shown _ inside

theorem neg_toInt {n : Int64} (inner : n.toInt ≠ -2 ^ 63) : (-n).toInt = -n.toInt := by
  have low := n.le_toInt
  have high := n.toInt_lt
  rw [Int64.toInt_neg]
  refine Int.bmod_eq_of_le ?_ ?_
  · omega
  · omega

theorem neg?_neg {n : Int64} (inner : n.toInt ≠ -2 ^ 63) : Arith.neg? (-n) = some n := by
  have fits : ¬ BitVec.negOverflow (-n).toBitVec = true := by
    have value := neg_toInt inner
    have high := n.toInt_lt
    simp only [BitVec.negOverflow, beq_iff_eq, Int64.toInt] at *
    omega
  rw [Arith.neg?, if_neg fits, Int64.neg_neg]

namespace Value

theorem toExpr_regular (readable : v.Readable) : v.toExpr.Regular := by
  cases v with
  | int n =>
    have high := n.toInt_lt
    rw [toExpr]
    split
    · exact ⟨‹_›, by omega⟩
    · have low := n.le_toInt
      have value := neg_toInt readable
      have inner : n.toInt ≠ -2 ^ 63 := readable
      exact ⟨by omega, by omega⟩
  | text s => trivial

theorem toExpr_eval (readable : v.Readable) (env : Env) : eval env v.toExpr = .ok v := by
  cases v with
  | int n =>
    rw [toExpr]
    split
    · rw [eval]
    · have negated : negate (.int (-n)) = .ok (.int n) := by
        show fits (Arith.neg? (-n)) = _
        rw [neg?_neg readable, fits]
      rw [eval, eval]
      exact negated
  | text s => rw [toExpr, eval]

theorem toExpr_freeVars (v : Value) : v.toExpr.freeVars = [] := by
  cases v with
  | int n =>
    rw [toExpr]
    split <;> rfl
  | text s => rfl

/-- A value with a literal is shown as one. -/
theorem render_spaced (readable : v.Readable) :
    ∃ ts, Rendered 1 v.toExpr ts ∧ Spaced ts v.render.toList := by
  cases v with
  | int n =>
    rw [toExpr, render_int]
    split
    · have form := Token.form_int ‹0 ≤ n.toInt›
      exact ⟨_, .int n, form.spaced_alone⟩
    · have value := neg_toInt readable
      have form := Token.form_int (n := -n) (by omega)
      rw [value] at form
      exact ⟨_, .neg (by decide) (.int (-n)), .mark rfl form.spaced_alone⟩
  | text s =>
    have each : ∀ c ∈ s.toList, CharForm c (Text.showChar c) := by
      intro c member
      refine (charForm_or_veiled c).resolve_right fun veiled => ?_
      obtain ⟨e, behind, shown, unknown, _⟩ := veiled.escape
      have known := readable c member _ shown
      simp only [List.mem_cons, List.cons.injEq, List.not_mem_nil, or_false] at known
      rcases known with ⟨rfl, _⟩ | ⟨rfl, _⟩ | ⟨rfl, _⟩ | ⟨rfl, _⟩ <;> cases unknown
    have form : Token.Form (.text s) ('"' :: s.toList.flatMap Text.showChar ++ ['"']) :=
      .text (shown_form each)
    rw [render_text]
    exact ⟨_, .text s, form.spaced_alone⟩

/-- A value without one stops the lexer. -/
theorem render_misfit (unreadable : v.Unreadable) (start : Nat) :
    (lexFrom start v.render.toList).bad.isSome = true := by
  cases v with
  | int n =>
    obtain rfl := (eq_minValue_iff n).2 unreadable
    have shown : (int Int64.minValue).render = "-9223372036854775808" := by cbv
    rw [shown]
    cbv
  | text s =>
    obtain ⟨c, member, veiled⟩ := unreadable
    have unread := shown_unread member veiled
    have taken : pieceAt '"' (s.toList.flatMap Text.showChar ++ ['"']) = _ :=
      pieceAt_closed (shown_inside s.toList)
    rw [unread, Option.map_none] at taken
    rw [render_text, List.cons_append, lexFrom_misfit start (by decide) taken]
    rfl

end Value

/-! ## The output of a declaration -/

/-- What stands in front of the value. -/
def heading (name : Option String) : List Char := name.elim [] fun x => x.toList ++ [' ', '=', ' ']

variable {name : Option String} {ts : List Token}

theorem heading_some (x : String) (row : List Char) :
    heading (some x) ++ row = x.toList ++ ' ' :: '=' :: ' ' :: row := by
  rw [heading, Option.elim_some, List.append_assoc]
  rfl

theorem heading_line (regular : ∀ x, name = some x → x.toList ∈ word) (line : Line row) :
    Line (heading name ++ row) := by
  cases name with
  | none => exact line
  | some x =>
    obtain ⟨c, rest, same, start, parts⟩ := mem_word.1 (regular x rfl)
    have part : NamePart c := start.imp_right fun dash => Or.inr (Or.inl dash)
    refine line.behind _ (fun member => ?_) ⟨c, ?_, not_blank_of_part part, not_hash_of_part part⟩
    · rcases List.mem_append.1 member with inside | behind
      · rw [same] at inside
        exact no_feed_of_parts (List.forall_mem_cons.2 ⟨part, parts⟩) inside
      · exact absurd behind (by decide)
    · rw [heading, Option.elim_some, same]
      rfl

theorem heading_spaced (name : Option String) (spaced : Spaced ts row) :
    Spaced (name.elim [] (fun x => [.name x, .equals]) ++ ts) (heading name ++ row) := by
  cases name with
  | none => exact spaced
  | some x =>
    have equals : Spaced (.equals :: ts) (' ' :: '=' :: ' ' :: row) :=
      .skip (by decide) (.mark rfl (.skip (by decide) spaced))
    rw [heading_some]
    exact (Token.Form.name x).spaced (by rintro _ ⟨⟩ ⟨⟩) equals

theorem heading_bad (regular : ∀ x, name = some x → x.toList ∈ word) (start : Nat)
    (row : List Char) :
    ∃ start', (lexFrom start (heading name ++ row)).bad = (lexFrom start' row).bad := by
  cases name with
  | none => exact ⟨start, rfl⟩
  | some x =>
    have free : (Token.name x).Free (' ' :: '=' :: ' ' :: row) := by
      rintro c ⟨⟩
      decide
    have behind (place : Nat) :
        ∃ start', (lexFrom place ('=' :: ' ' :: row)).bad = (lexFrom start' row).bad := by
      have equals := bad_lexFrom_token place (.mark rfl : Token.Form .equals ['=']) trivial
        (' ' :: row) trivial
      rw [lexFrom_skip _ (by decide)] at equals
      exact ⟨_, equals⟩
    rw [heading_some, bad_lexFrom_token start (.name x) (regular x rfl) _ free,
      lexFrom_skip _ (by decide)]
    exact behind _

theorem evaluate_eq {d : Decl} {env : Env} (value : eval env d.item.expr = .ok v) :
    d.evaluate env = .ok ⟨String.ofList (heading d.bound ++ v.render.toList),
      d.bound.elim ∅ fun x => (∅ : Env).insert x v⟩ := by
  rw [Decl.evaluate, value]
  cases d.bound with
  | none => rw [heading, Option.elim_none, List.nil_append, String.ofList_toList, Option.elim_none]
  | some x =>
    have output : String.ofList (heading (some x) ++ v.render.toList) = x ++ " = " ++ v.render := by
      rw [← String.toList_inj, String.toList_ofList, String.toList_append, String.toList_append]
      rfl
    rw [output, Option.elim_some]

theorem parse_line {text : String} (line : Line text.toList) :
    parse text = [Section.ofSource text] := by
  rw [parse, line.splitItems, List.map_singleton, String.ofList_toList]

theorem name_of_parse {text : String} {d : Decl} (declared : .decl d ∈ parse text) :
    ∀ x, d.bound = some x → x.toList ∈ word := by
  obtain ⟨source, _, same⟩ := List.mem_map.1 declared
  rw [Section.ofSource] at same
  split at same
  · rename_i parsed
    cases same
    exact (regular_of_parse parsed).1
  · cases same

/-- The output of a declaration is one item. A value with a literal comes back under its name, in every
environment and with the same output; a value without one leaves a text that cannot be read. -/
theorem output_read_back {text : String} {d : Decl} {env : Env} {y : Yield}
    (declared : .decl d ∈ parse text) (value : eval env d.item.expr = .ok v)
    (shown : d.evaluate env = .ok y) :
    ∃ s, parse y.output = [s] ∧ (v.Readable ∨ v.Unreadable) ∧
      (v.Readable → ∃ d', s = .decl d' ∧ d'.bound = d.bound ∧ d'.free = [] ∧
        ∀ env', eval env' d'.item.expr = .ok v ∧ d'.evaluate env' = .ok y) ∧
      (v.Unreadable → ∃ source e, s = .broken source e) := by
  have regular := name_of_parse declared
  have output : y.output.toList = heading d.bound ++ v.render.toList := by
    cases (evaluate_eq value).symm.trans shown
    exact String.toList_ofList
  have line := heading_line regular (line_of_render v)
  rw [← output] at line
  refine ⟨_, parse_line line, v.readable_or_unreadable, fun readable => ?_, fun unreadable => ?_⟩
  · obtain ⟨ts, body, spaced⟩ := Value.render_spaced readable
    have rendered : Item.Renders ⟨d.bound, v.toExpr⟩ y.output :=
      ⟨_, ⟨ts, body, rfl⟩, output.symm ▸ heading_spaced d.bound spaced⟩
    have parsed := rendered.parse ⟨regular, Value.toExpr_regular readable⟩
    rw [Section.ofSource, parsed]
    refine ⟨_, rfl, rfl, v.toExpr_freeVars, fun env' => ⟨Value.toExpr_eval readable env', ?_⟩⟩
    rw [← shown, evaluate_eq value]
    exact evaluate_eq (Value.toExpr_eval readable env')
  · obtain ⟨start, stopped⟩ := heading_bad regular 0 v.render.toList
    obtain ⟨bad, found⟩ := Option.isSome_iff_exists.1 (Value.render_misfit unreadable start)
    have fails : Item.parse y.output = .error (.badInput bad.1) := by
      rw [Item.parse, lex, output]
      simp only [stopped, found]
    rw [Section.ofSource, fails]
    exact ⟨_, _, rfl⟩

/-- A tab comes back out of an escape, and the least integer has no literal. -/
theorem output_read_back_when_tabbed_or_least :
    (∃ (d d' : Decl) (y : Yield), .decl d ∈ parse "x = \"\t\"" ∧ d.evaluate ∅ = .ok y ∧
      parse y.output = [.decl d'] ∧ d'.bound = some "x" ∧
      ∀ env, eval env d'.item.expr = .ok (.text "\t")) ∧
    ∃ (d : Decl) (y : Yield) (source : String) (e : ParseError),
      .decl d ∈ parse "-9223372036854775807 - 1" ∧ d.evaluate ∅ = .ok y ∧
      parse y.output = [.broken source e] := by
  constructor
  · let d : Decl := ⟨"x = \"\t\"", ⟨some "x", .text "\t"⟩⟩
    have parsed : parse "x = \"\t\"" = [.decl d] := by cbv
    have declared : .decl d ∈ parse "x = \"\t\"" := parsed ▸ List.mem_singleton_self _
    have value : eval ∅ d.item.expr = .ok (.text "\t") := by cbv
    have shown : d.evaluate ∅ = .ok ⟨"x = \"\\t\"", (∅ : Env).insert "x" (.text "\t")⟩ := by cbv
    have readable : (Value.text "\t").Readable := by
      refine (Value.readable_or_unreadable _).resolve_right ?_
      rintro ⟨c, member, veiled⟩
      cases List.mem_singleton.1 (show c ∈ ['\t'] from member)
      exact absurd veiled (by decide)
    obtain ⟨s, one, _, back, _⟩ := output_read_back declared value shown
    obtain ⟨d', rfl, name, _, again⟩ := back readable
    exact ⟨d, d', _, declared, shown, one, name, fun env => (again env).1⟩
  · let d : Decl := ⟨"-9223372036854775807 - 1",
      ⟨none, .bin .sub (.neg (.int 9223372036854775807)) (.int 1)⟩⟩
    have parsed : parse "-9223372036854775807 - 1" = [.decl d] := by cbv
    have declared : .decl d ∈ parse "-9223372036854775807 - 1" := parsed ▸ List.mem_singleton_self _
    have value : eval ∅ d.item.expr = .ok (.int Int64.minValue) := by cbv
    have shown : d.evaluate ∅ = .ok ⟨"-9223372036854775808", ∅⟩ := by cbv
    obtain ⟨s, one, _, _, broken⟩ := output_read_back declared value shown
    obtain ⟨source, e, rfl⟩ := broken ((eq_minValue_iff _).1 rfl)
    exact ⟨d, _, source, e, declared, shown, one⟩

end Worksheet.Calc
