import Worksheet.Proofs.Blocks
import Worksheet.Proofs.Merging
import Worksheet.Proofs.Tokens
/-! The lines of a listing. Main statement: whatever stands in a report, each line of its listing has
a tag or is indented, the tags tell of the keys of the order one by one, and by them one sees whether
the report is settled. -/
namespace Worksheet

namespace Text

variable {cs line : List Char} {ls : List (List Char)}

/-- The lines of a text that line feeds end; a carriage return belongs to its line. -/
def rows (text : List Char) : List (List Char) := (text.splitOn '\n').dropLast

/-- Lines as a text, each with a line feed at its end. -/
def closed (ls : List (List Char)) : List Char := ls.flatMap (· ++ ['\n'])

theorem closed_eq_intercalate (ls : List (List Char)) :
    closed ls = ['\n'].intercalate (ls ++ [[]]) := by
  induction ls with
  | nil => rfl
  | cons line ls ih =>
    rw [closed, List.flatMap_cons, ← closed, ih, List.cons_append,
      List.intercalate_cons_of_ne_nil (by simp)]

theorem rows_closed (free : ∀ line ∈ ls, '\n' ∉ line) : rows (closed ls) = ls := by
  have free' : ∀ line ∈ ls ++ [[]], '\n' ∉ line := by
    intro line member
    rcases List.mem_append.1 member with member | member
    · exact free line member
    · rw [List.mem_singleton.1 member]
      exact List.not_mem_nil
  rw [rows, closed_eq_intercalate, List.splitOn_intercalate _ free' (by simp), List.dropLast_concat]

theorem closed_end (ls : List (List Char)) :
    closed ls = [] ∨ (closed ls).getLast? = some '\n' := by
  obtain rfl | ⟨front, line, rfl⟩ := ls.eq_nil_or_concat
  · exact Or.inl rfl
  · right
    rw [List.concat_eq_append, closed, List.flatMap_append, List.flatMap_singleton,
      ← List.append_assoc, List.getLast?_concat]

/-- The line feeds may as well stand in front of the lines. -/
theorem feed_closed (ls : List (List Char)) :
    '\n' :: closed ls = ls.flatMap ('\n' :: ·) ++ ['\n'] := by
  induction ls with
  | nil => rfl
  | cons line ls ih =>
    rw [List.flatMap_cons, List.append_assoc, ← ih, closed, List.flatMap_cons, ← closed]
    simp

theorem no_feed_of_lines (member : line ∈ lines cs) : '\n' ∉ line := by
  fun_induction lines cs generalizing line with
  | case1 => cases member
  | case2 rest ih =>
    rcases List.mem_cons.1 member with rfl | member
    · exact List.not_mem_nil
    · exact ih member
  | case3 rest ih =>
    rcases List.mem_cons.1 member with rfl | member
    · exact List.not_mem_nil
    · exact ih member
  | case4 c rest other _ none_left ih =>
    rw [List.mem_singleton.1 member]
    simpa using Ne.symm other
  | case5 c rest other _ first more split ih =>
    rcases List.mem_cons.1 member with rfl | member
    · have none_inside := ih (split ▸ List.mem_cons_self ..)
      simpa using ⟨Ne.symm other, none_inside⟩
    · exact ih (split ▸ List.mem_cons_of_mem _ member)

end Text

namespace Report

inductive Tag
  | complete
  | failed
  | pending
  | unknown
  deriving DecidableEq

namespace Tag

def text : Tag → List Char
  | complete => tagComplete
  | failed => tagFailed
  | pending => tagPending
  | unknown => tagUnknown

/-- The tag that a line begins with. -/
def ofLine? (line : List Char) : Option Tag :=
  [complete, failed, pending, unknown].find? fun tag => tag.text.isPrefixOf line

/-- What is known of a key. -/
def ofEntry : Option Entry → Tag
  | none => unknown
  | some e =>
    match e.status with
    | some .complete => complete
    | some (.failed _) => failed
    | none => pending

variable {tag : Tag} {line : List Char}

theorem ofLine?_text (front : tag.text <+: line) : ofLine? line = some tag := by
  obtain ⟨rest, rfl⟩ := front
  cases tag <;> rfl

theorem ofLine?_margin (front : margin <+: line) : ofLine? line = none := by
  obtain ⟨rest, rfl⟩ := front
  rfl

end Tag

/-! ## The lines of a key -/

/-- A text as lines: a front before the first of them, and a margin before the others. -/
def indented (front : List Char) (text : String) : List (List Char) :=
  match Text.lines text.toList with
  | [] => [front]
  | line :: more => (front ++ line) :: more.map (margin ++ ·)

/-- The first line of a key has its tag, and the others are indented. -/
structure Paragraph (tag : Tag) (ls : List (List Char)) : Prop where
  lines : ∃ first more, ls = first :: more ∧ tag.text <+: first ∧ ∀ line ∈ more, margin <+: line
  no_feed : ∀ line ∈ ls, '\n' ∉ line

theorem closed_indented (front : List Char) (text : String) :
    front ++ indent text ++ ['\n'] = Text.closed (indented front text) := by
  rw [indent, indented]
  cases Text.lines text.toList with
  | nil => simp [Text.join, Text.closed]
  | cons line more =>
    have feeds := Text.feed_closed (more.map (margin ++ ·))
    rw [List.flatMap_map] at feeds
    rw [Text.join_cons, Text.closed, List.flatMap_cons, ← Text.closed, List.append_assoc,
      List.append_assoc, List.append_assoc, List.append_assoc, List.singleton_append, feeds]
    rfl

theorem no_feed_of_indented {front : List Char} (no_feed : '\n' ∉ front) (text : String) :
    ∀ line ∈ indented front text, '\n' ∉ line := by
  have inside : ∀ line ∈ Text.lines text.toList, '\n' ∉ line := fun _ => Text.no_feed_of_lines
  rw [indented]
  generalize Text.lines text.toList = ls at inside ⊢
  cases ls with
  | nil => simpa using no_feed
  | cons line more =>
    obtain ⟨first, others⟩ := List.forall_mem_cons.1 inside
    refine List.forall_mem_cons.2 ⟨?_, fun line' member => ?_⟩
    · exact fun member => (List.mem_append.1 member).elim no_feed first
    · obtain ⟨later, there, rfl⟩ := List.mem_map.1 member
      exact fun member => (List.mem_append.1 member).elim (by decide) (others later there)

theorem indented_lines (front : List Char) (text : String) : ∃ first more,
    indented front text = first :: more ∧ front <+: first ∧ ∀ line ∈ more, margin <+: line := by
  rw [indented]
  cases Text.lines text.toList with
  | nil => exact ⟨front, [], rfl, List.prefix_rfl, fun _ member => absurd member List.not_mem_nil⟩
  | cons line more =>
    refine ⟨front ++ line, more.map (margin ++ ·), rfl, List.prefix_append .., fun _ member => ?_⟩
    obtain ⟨later, -, rfl⟩ := List.mem_map.1 member
    exact List.prefix_append ..

theorem paragraph_indented (tag : Tag) (text : String) : Paragraph tag (indented tag.text text) where
  lines := indented_lines tag.text text
  no_feed := no_feed_of_indented (by cases tag <;> decide) text

/-- A failure has its message below the source. -/
theorem Paragraph.below {tag : Tag} {ls : List (List Char)} (h : Paragraph tag ls) (text : String) :
    Paragraph tag (ls ++ indented margin text) where
  lines := by
    obtain ⟨first, more, rfl, front, inner⟩ := h.lines
    obtain ⟨first', more', split, front', inner'⟩ := indented_lines margin text
    refine ⟨first, more ++ first' :: more', by rw [split]; rfl, front, fun line member => ?_⟩
    rcases List.mem_append.1 member with member | member
    · exact inner line member
    · rcases List.mem_cons.1 member with rfl | member
      · exact front'
      · exact inner' line member
  no_feed := by
    intro line member
    rcases List.mem_append.1 member with member | member
    · exact h.no_feed line member
    · exact no_feed_of_indented (by decide) text line member

theorem Paragraph.tags {tag : Tag} {ls : List (List Char)} (h : Paragraph tag ls) :
    ls.filterMap Tag.ofLine? = [tag] := by
  obtain ⟨first, more, rfl, front, inner⟩ := h.lines
  have untagged : more.filterMap Tag.ofLine? = [] :=
    List.filterMap_eq_nil_iff.2 fun line member => Tag.ofLine?_margin (inner line member)
  rw [List.filterMap_cons_some (Tag.ofLine?_text front), untagged]

theorem Paragraph.each {tag : Tag} {ls : List (List Char)} (h : Paragraph tag ls) :
    ∀ line ∈ ls, tag.text <+: line ∨ margin <+: line := by
  obtain ⟨first, more, rfl, front, inner⟩ := h.lines
  exact List.forall_mem_cons.2 ⟨Or.inl front, fun line member => Or.inr (inner line member)⟩

theorem paragraph_unknown (key : Key) :
    ∃ line, listKey (key, none) = Text.closed [line] ∧ Paragraph .unknown [line] := by
  have no_feed : '\n' ∉ key.text.toList := by
    intro member
    rw [Key.text, Nat.toString_eq_repr, Nat.toList_repr] at member
    exact absurd (Json.digit_of_toDigits _ _ member) (by decide)
  refine ⟨tagUnknown ++ ("<no result for key " ++ key.text ++ ">").toList, ?_,
    ⟨_, [], rfl, List.prefix_append .., fun _ member => absurd member List.not_mem_nil⟩, ?_⟩
  · simp [listKey, Text.closed]
  · simp only [List.mem_singleton, forall_eq]
    simp [no_feed, tagUnknown]

/-- What the listing says of a key is a paragraph. -/
theorem exists_paragraph (p : Key × Option Entry) :
    ∃ ls, listKey p = Text.closed ls ∧ Paragraph (.ofEntry p.2) ls := by
  obtain ⟨key, known⟩ := p
  cases known with
  | none =>
    obtain ⟨line, written, paragraph⟩ := paragraph_unknown key
    exact ⟨[line], written, paragraph⟩
  | some e =>
    obtain ⟨source, status, output⟩ := e
    cases status with
    | none => exact ⟨_, closed_indented .., paragraph_indented .pending _⟩
    | some status =>
      cases status with
      | complete => exact ⟨_, closed_indented .., paragraph_indented .complete _⟩
      | failed message =>
        refine ⟨_, ?_, (paragraph_indented .failed (source.getD "")).below message⟩
        rw [Text.closed, List.flatMap_append, ← Text.closed, ← Text.closed, ← closed_indented,
          ← closed_indented]
        simp [listKey, listEntry, Tag.text]

/-- The tags of the lines are those of the keys, in their order. -/
theorem listing_paragraphs (ps : List (Key × Option Entry)) :
    ∃ ls, ps.flatMap listKey = Text.closed ls ∧
      (∀ line ∈ ls, '\n' ∉ line ∧ ((∃ tag : Tag, tag.text <+: line) ∨ margin <+: line)) ∧
      ls.filterMap Tag.ofLine? = ps.map fun p => .ofEntry p.2 := by
  induction ps with
  | nil => exact ⟨[], rfl, fun _ member => absurd member List.not_mem_nil, rfl⟩
  | cons p ps ih =>
    obtain ⟨more, written', each', tags'⟩ := ih
    obtain ⟨ls, written, paragraph⟩ := exists_paragraph p
    refine ⟨ls ++ more, ?_, fun line member => ?_, ?_⟩
    · rw [List.flatMap_cons, written, written', Text.closed, Text.closed, Text.closed,
        List.flatMap_append]
    · rcases List.mem_append.1 member with member | member
      · exact ⟨paragraph.no_feed line member, (paragraph.each line member).imp_left fun h => ⟨_, h⟩⟩
      · exact each' line member
    · rw [List.filterMap_append, paragraph.tags, tags']
      rfl

/-! ## What a listing shows -/

/-- The tag of a key that has a status. -/
def Tag.final : Tag → Bool
  | complete | failed => true
  | pending | unknown => false

theorem Tag.final_ofEntry (known : Option Entry) :
    (ofEntry known).final = (known.bind Entry.status).isSome := by
  cases known with
  | none => rfl
  | some e =>
    obtain ⟨source, status, output⟩ := e
    cases status with
    | none => rfl
    | some status => cases status <;> rfl

theorem Tag.final_iff {line : List Char}
    (begins : (∃ tag : Tag, tag.text <+: line) ∨ margin <+: line) :
    (¬ ['[', '.', '.', ']'] <+: line ∧ ¬ ['[', '?', '?', ']'] <+: line) ↔
      ∀ tag, ofLine? line = some tag → tag.final := by
  rcases begins with ⟨tag, front⟩ | front
  · rw [ofLine?_text front]
    obtain ⟨rest, rfl⟩ := front
    cases tag <;> simp [text, tagComplete, tagFailed, tagPending, tagUnknown, final]
  · rw [ofLine?_margin front]
    obtain ⟨rest, rfl⟩ := front
    simp [margin]

/-- Whatever stands in a report, its listing is made of lines that have a tag or are indented. The
tags are those of the keys of the order, one for each, and they show whether the report is settled. -/
theorem listing_not_forged (r : Report) :
    (r.listing.toList = [] ∨ r.listing.toList.getLast? = some '\n') ∧
    (∀ line ∈ Text.rows r.listing.toList,
      (∃ tag : Tag, tag.text <+: line) ∨ margin <+: line) ∧
    (Text.rows r.listing.toList).filterMap Tag.ofLine? =
      (r.order.getD []).map (fun k => .ofEntry (r.entries.get? k)) ∧
    (r.order.isSome → (r.settled ↔ ∀ line ∈ Text.rows r.listing.toList,
      ¬ ['[', '.', '.', ']'] <+: line ∧ ¬ ['[', '?', '?', ']'] <+: line)) := by
  obtain ⟨ls, written, each, tags⟩ := listing_paragraphs r.ordered
  have text : r.listing.toList = Text.closed ls := by rw [listing, String.toList_ofList, written]
  have lines : Text.rows r.listing.toList = ls := by
    rw [text, Text.rows_closed fun line member => (each line member).1]
  rw [ordered, List.map_map] at tags
  rw [lines]
  refine ⟨text ▸ Text.closed_end ls, fun line member => (each line member).2, tags, fun known => ?_⟩
  obtain ⟨keys, order⟩ := Option.isSome_iff_exists.1 known
  rw [order] at tags
  calc r.settled = true
    _ ↔ ∀ k ∈ keys, (Tag.ofEntry (r.entries.get? k)).final := by
      rw [settled, order, List.all_eq_true]
      simp only [Tag.final_ofEntry, status?]
    _ ↔ ∀ tag ∈ ls.filterMap Tag.ofLine?, tag.final := by
      rw [tags, List.forall_mem_map]
      rfl
    _ ↔ ∀ line ∈ ls, ¬ ['[', '.', '.', ']'] <+: line ∧ ¬ ['[', '?', '?', ']'] <+: line := by
      refine ⟨fun final line member => ?_, fun shown tag there => ?_⟩
      · exact (Tag.final_iff (each line member).2).2 fun tag here =>
          final tag (List.mem_filterMap.2 ⟨line, member, here⟩)
      · obtain ⟨line, member, here⟩ := List.mem_filterMap.1 there
        exact (Tag.final_iff (each line member).2).1 (shown line member) tag here

theorem listing_not_forged_when_spoofed : ∃ r : Report,
    r = (rejected ⟨3⟩ "[ok]  x\r\n[..]  y" "\n[??]  z\r").mergeAll
      [announced ⟨1⟩ "", ofOrder [⟨3⟩, ⟨3⟩, ⟨1⟩]] ∧
    (Text.rows r.listing.toList).filterMap Tag.ofLine? = [.failed, .failed, .pending] ∧
    r.order.isSome ∧ ¬ r.settled ∧ ∃ line ∈ Text.rows r.listing.toList,
      ['[', '.', '.', ']'] <+: line ∨ ['[', '?', '?', ']'] <+: line := by
  let r := (rejected ⟨3⟩ "[ok]  x\r\n[..]  y" "\n[??]  z\r").mergeAll
    [announced ⟨1⟩ "", ofOrder [⟨3⟩, ⟨3⟩, ⟨1⟩]]
  obtain ⟨-, -, tags, shown⟩ := listing_not_forged r
  have known : r.order.isSome := by decide
  have waiting : ¬ r.settled := by decide
  refine ⟨r, rfl, tags.trans (by decide), known, waiting, ?_⟩
  by_contra none_shown
  refine waiting ((shown known).2 fun line member => ⟨fun front => ?_, fun front => ?_⟩)
  · exact none_shown ⟨line, member, Or.inl front⟩
  · exact none_shown ⟨line, member, Or.inr front⟩

end Report

end Worksheet
