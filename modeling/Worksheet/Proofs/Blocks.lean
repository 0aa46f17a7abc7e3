import Mathlib.Data.List.TakeWhile
import Mathlib.Logic.Relation
import Worksheet.Calc.Source
import Worksheet.Proofs.FreeVars
/-! The items of a text as blocks of its lines. Main statement: the lines fall into blocks in one way
only and each item is the text of one block; comments and the blank lines behind a block may come and
go; and a text that starts an item of its own adds its items to those before it. -/
namespace Worksheet

namespace Text

variable {cs blanks : List Char} {pieces more : List (List Char)}

theorem join_cons (separator piece : List Char) (more : List (List Char)) :
    join separator (piece :: more) = piece ++ more.flatMap (separator ++ ·) := by
  induction more generalizing piece with
  | nil => rw [join, List.flatMap_nil, List.append_nil]
  | cons next more ih =>
    rw [join, ih, List.flatMap_cons, List.append_assoc, List.append_assoc]
    exact List.cons_ne_nil _ _

theorem join_append (separator : List Char) (filled : pieces ≠ []) :
    join separator (pieces ++ more) = join separator pieces ++ more.flatMap (separator ++ ·) := by
  obtain ⟨piece, rest, rfl⟩ := List.exists_cons_of_ne_nil filled
  rw [List.cons_append, join_cons, join_cons, List.flatMap_append, List.append_assoc]

theorem trimEnd_append (blank : ∀ c ∈ blanks, isBlank c) : trimEnd (cs ++ blanks) = trimEnd cs := by
  rw [trimEnd, List.reverse_append, List.dropWhile_append_of_pos (by simpa using blank), trimEnd]

theorem trimEnd_eq_nil : trimEnd cs = [] ↔ ∀ c ∈ cs, isBlank c := by
  simp [trimEnd, List.dropWhile_eq_nil_iff]

theorem lines_eq_nil : lines cs = [] ↔ cs = [] := by
  fun_cases lines cs with
  | case1 => simp
  | case2 => simp
  | case3 => simp
  | case4 => simp
  | case5 => simp

/-- What follows a text that is empty or ends in a line feed begins a line of its own. -/
theorem lines_append (closed : ∀ c, cs.getLast? = some c → c = '\n') (ds : List Char) :
    lines (cs ++ ds) = lines cs ++ lines ds := by
  have behind : ∀ {c : Char} {rest : List Char}, (∀ d, (c :: rest).getLast? = some d → d = '\n') →
      ∀ d, rest.getLast? = some d → d = '\n' := by
    intro c rest closed d last
    refine closed d ?_
    rw [List.getLast?_cons, last]
    rfl
  fun_induction lines cs with
  | case1 => rfl
  | case2 rest ih => rw [List.cons_append, lines, ih (behind closed), List.cons_append]
  | case3 rest ih =>
    rw [List.cons_append, List.cons_append, lines, ih (behind (behind closed)), List.cons_append]
  | case4 c rest other _ none_left ih =>
    rw [lines_eq_nil] at none_left
    subst none_left
    exact absurd (closed c rfl) other
  | case5 c rest other no_return line more split ih =>
    obtain ⟨d, rest, rfl⟩ := List.exists_cons_of_ne_nil (l := rest) (by rintro rfl; cases split)
    have no_return' : ∀ later, c = '\r' → d :: rest ++ ds = '\n' :: later → False := by
      rintro later here ⟨⟩
      exact no_return rest here rfl
    rw [List.cons_append, lines, ih (behind closed), split]
    · rfl
    · exact other
    · exact no_return'

end Text

namespace Calc

variable {rows later before after front back back' blanks : List (List Char)}
  {bs cs done more : List (List (List Char))} {b : List (List Char)} {row : List Char}

/-! ## Blocks -/

/-- A visible line, with the lines that go on with it. -/
def Block (b : List (List Char)) : Prop :=
  ∃ first others, b = first :: others ∧ isBlankLine first = false ∧
    ∀ row ∈ others, isBlankLine row ∨ isIndented row

/-- Lines that fall into blocks. Only the first block may start with an indented line. -/
structure Parted (rows : List (List Char)) (bs : List (List (List Char))) : Prop where
  whole : bs.flatten = rows
  each : ∀ b ∈ bs, Block b
  flush : ∀ b ∈ bs.tail, ∀ row, b.head? = some row → isIndented row = false

/-- What a block says: its lines without the white space at their end. -/
def sourceOf (b : List (List Char)) : List Char := Text.trimEnd (Text.join ['\n'] b)

theorem sourceOf_filled (block : Block b) : sourceOf b ≠ [] := by
  obtain ⟨first, others, rfl, visible, _⟩ := block
  rw [sourceOf, Text.join_cons, Ne, Text.trimEnd_eq_nil]
  intro blank
  have all_blank : isBlankLine first = true :=
    List.all_eq_true.2 fun c member => blank c (List.mem_append_left _ member)
  rw [visible] at all_blank
  cases all_blank

theorem sourceOf_append (filled : front ≠ []) (blank : ∀ row ∈ blanks, isBlankLine row) :
    sourceOf (front ++ blanks) = sourceOf front := by
  rw [sourceOf, Text.join_append _ filled, Text.trimEnd_append, sourceOf]
  intro c member
  obtain ⟨row, there, inside⟩ := List.mem_flatMap.1 member
  rcases List.mem_cons.1 inside with rfl | inside
  · decide
  · exact List.all_eq_true.1 (blank row there) c inside

/-- Where the first line does not pass a test, nothing is taken. -/
theorem take_nothing {p : List Char → Bool} (stop : ∀ row, rows.head? = some row → p row = false) :
    rows.takeWhile p = [] ∧ rows.dropWhile p = rows := by
  cases rows with
  | nil => exact ⟨rfl, rfl⟩
  | cons row rest =>
    have fails : ¬ p row := Bool.eq_false_iff.1 (stop row rfl)
    exact ⟨List.takeWhile_cons_of_neg fails, List.dropWhile_cons_of_neg fails⟩

/-- The first line that is left does not pass the test. -/
theorem head_left {p : List Char → Bool} (first : (rows.dropWhile p).head? = some row) :
    p row = false := by
  have left := List.head?_dropWhile_not p rows
  rwa [first] at left

theorem head_visible (each : ∀ b ∈ bs, Block b) (first : bs.flatten.head? = some row) :
    isBlankLine row = false := by
  cases bs with
  | nil => cases first
  | cons b bs =>
    obtain ⟨start, others, rfl, visible, _⟩ := each b (List.mem_cons_self ..)
    cases first
    exact visible

theorem Block.front_filled (block : Block (front ++ back)) (blank : ∀ row ∈ back, isBlankLine row) :
    front ≠ [] := by
  rintro rfl
  obtain ⟨first, others, rfl, visible, _⟩ := block
  rw [blank first (List.mem_cons_self ..)] at visible
  cases visible

namespace Parted

theorem nil : Parted [] [] := ⟨rfl, nofun, nofun⟩

theorem single (block : Block b) : Parted b [b] :=
  ⟨List.append_nil b, List.forall_mem_singleton.2 block, nofun⟩

/-- Where the first line is not indented, no block starts with an indented line. -/
theorem flush_each (h : Parted rows bs)
    (flush : ∀ row, rows.head? = some row → isIndented row = false) :
    ∀ b ∈ bs, ∀ row, b.head? = some row → isIndented row = false := by
  cases bs with
  | nil => exact nofun
  | cons b bs =>
    refine List.forall_mem_cons.2 ⟨fun row first => flush row ?_, h.flush⟩
    rw [← h.whole, List.flatten_cons, List.head?_append, first, Option.some_or]

theorem append (h : Parted rows bs) (h' : Parted later cs)
    (flush : ∀ row, later.head? = some row → isIndented row = false) :
    Parted (rows ++ later) (bs ++ cs) where
  whole := by rw [List.flatten_append, h.whole, h'.whole]
  each := List.forall_mem_append.2 ⟨h.each, h'.each⟩
  flush := by
    cases bs with
    | nil => exact h'.flush
    | cons b bs => exact List.forall_mem_append.2 ⟨h.flush, h'.flush_each flush⟩

theorem behind (h : Parted rows (b :: bs)) : Parted bs.flatten bs :=
  ⟨rfl, fun c member => h.each c (List.mem_cons_of_mem _ member),
    fun c member => h.flush c (List.mem_of_mem_tail member)⟩

/-- The line behind a block does not go on with it. -/
theorem stops (h : Parted rows (b :: bs)) (first : bs.flatten.head? = some row) :
    continues row = false := by
  have visible := head_visible h.behind.each first
  cases bs with
  | nil => cases first
  | cons c bs =>
    obtain ⟨start, others, rfl, _⟩ := h.each c (List.mem_cons_of_mem _ (List.mem_cons_self ..))
    cases first
    rw [continues, visible, h.flush _ (List.mem_cons_self ..) row rfl]
    rfl

/-- Lines fall into blocks in one way only. -/
theorem blocks_eq (h : Parted rows bs) : blocks rows = bs := by
  induction bs generalizing rows with
  | nil => rw [← h.whole, List.flatten_nil, blocks]
  | cons b bs ih =>
    obtain ⟨first, others, rfl, _, go_on⟩ := h.each b (List.mem_cons_self ..)
    have on : ∀ row ∈ others, continues row := by
      intro row member
      rw [continues, Bool.or_eq_true]
      exact go_on row member
    obtain ⟨none_taken, all_left⟩ := take_nothing fun _ first => h.stops first
    rw [← h.whole, List.flatten_cons, List.cons_append, blocks, List.takeWhile_append_of_pos on,
      List.dropWhile_append_of_pos on, none_taken, all_left, List.append_nil, ih h.behind]

/-- What is blank behind the visible lines of a block may be anything blank. -/
theorem exchange (h : Parted rows (done ++ (front ++ back) :: more)) (filled : front ≠ [])
    (blank : ∀ row ∈ back', isBlankLine row) :
    Parted (done.flatten ++ front ++ back' ++ more.flatten) (done ++ (front ++ back') :: more) where
  whole := by simp only [List.flatten_append, List.flatten_cons, List.append_assoc]
  each := by
    obtain ⟨before, here⟩ := List.forall_mem_append.1 h.each
    obtain ⟨block, behind⟩ := List.forall_mem_cons.1 here
    refine List.forall_mem_append.2 ⟨before, List.forall_mem_cons.2 ⟨?_, behind⟩⟩
    obtain ⟨start, rest, rfl⟩ := List.exists_cons_of_ne_nil filled
    obtain ⟨_, _, ⟨⟩, visible, go_on⟩ := block
    refine ⟨start, rest ++ back', rfl, visible, List.forall_mem_append.2 ⟨?_, ?_⟩⟩
    · exact (List.forall_mem_append.1 go_on).1
    · exact fun row member => Or.inl (blank row member)
  flush := by
    cases done with
    | nil => exact h.flush
    | cons d done =>
      obtain ⟨before, here⟩ := List.forall_mem_append.1 h.flush
      obtain ⟨flush, behind⟩ := List.forall_mem_cons.1 here
      refine List.forall_mem_append.2 ⟨before, List.forall_mem_cons.2 ⟨?_, behind⟩⟩
      obtain ⟨start, rest, rfl⟩ := List.exists_cons_of_ne_nil filled
      exact flush

end Parted

/-- Every line belongs to a block, if the first of them is visible. -/
theorem parted_blocks (visible : ∀ row, rows.head? = some row → isBlankLine row = false) :
    Parted rows (blocks rows) := by
  induction rows using blocks.induct with
  | case1 =>
    rw [blocks]
    exact .nil
  | case2 line rest ih =>
    have stop : ∀ row, (rest.dropWhile continues).head? = some row →
        isBlankLine row = false ∧ isIndented row = false :=
      fun row first => Bool.or_eq_false_iff.1 (head_left first)
    have block : Block (line :: rest.takeWhile continues) := by
      refine ⟨line, _, rfl, visible line rfl, fun row member => ?_⟩
      exact Bool.or_eq_true_iff.1 (List.all_eq_true.1 List.all_takeWhile row member)
    have whole := (Parted.single block).append (ih fun row first => (stop row first).1)
      fun row first => (stop row first).2
    rw [List.cons_append, List.takeWhile_append_dropWhile] at whole
    rw [blocks]
    exact whole

/-! ## Items -/

def uncommented (rows : List (List Char)) : List (List Char) :=
  rows.filter fun row => !isComment row

/-- Of some lines, those that belong to items. -/
def shown (rows : List (List Char)) : List (List Char) := (uncommented rows).dropWhile isBlankLine

def itemsOf (rows : List (List Char)) : List (List Char) := (blocks (shown rows)).map sourceOf

theorem uncommented_append (rows later : List (List Char)) :
    uncommented (rows ++ later) = uncommented rows ++ uncommented later := List.filter_append ..

theorem shown_parted (rows : List (List Char)) : Parted (shown rows) (blocks (shown rows)) :=
  parted_blocks fun _ first => head_left first

theorem shown_append (filled : shown rows ≠ []) (later : List (List Char)) :
    shown (rows ++ later) = shown rows ++ uncommented later := by
  rw [shown, uncommented_append, List.dropWhile_append, if_neg]
  · rfl
  · rw [List.isEmpty_iff]
    exact filled

/-- Lines that start an item of their own have items of their own. -/
theorem itemsOf_append
    (start : ∀ row, (uncommented later).head? = some row → continues row = false) :
    itemsOf (rows ++ later) = itemsOf rows ++ itemsOf later := by
  have stop : ∀ row, (uncommented later).head? = some row →
      isBlankLine row = false ∧ isIndented row = false :=
    fun row first => Bool.or_eq_false_iff.1 (start row first)
  have all_shown : shown later = uncommented later :=
    (take_nothing fun row first => (stop row first).1).2
  have split : shown (rows ++ later) = shown rows ++ shown later := by
    by_cases none_shown : shown rows = []
    · rw [shown, uncommented_append, List.dropWhile_append, if_pos, ← shown, none_shown]
      · rfl
      · rw [List.isEmpty_iff]
        exact none_shown
    · rw [shown_append none_shown, all_shown]
  have parted := (shown_parted rows).append (shown_parted later)
    fun row first => (stop row (all_shown ▸ first)).2
  rw [itemsOf, split, parted.blocks_eq, List.map_append]
  rfl

/-- A place among lines that is behind the last visible line of a block. -/
def Shut (rows before : List (List Char)) : Prop :=
  ∃ done front back more, Parted (shown rows) (done ++ (front ++ back) :: more) ∧
    shown before = done.flatten ++ front ∧ ∀ row ∈ back, isBlankLine row

theorem Parted.same_items (h : Parted rows (done ++ (front ++ back) :: more)) (filled : front ≠ [])
    (blank : ∀ row ∈ back, isBlankLine row) (blank' : ∀ row ∈ back', isBlankLine row) :
    (blocks (done.flatten ++ front ++ back' ++ more.flatten)).map sourceOf =
      (blocks rows).map sourceOf := by
  rw [h.blocks_eq, (h.exchange filled blank').blocks_eq, List.map_append, List.map_append,
    List.map_cons, List.map_cons, sourceOf_append filled blank, sourceOf_append filled blank']

theorem blank_no_comment (blank : isBlankLine row) : isComment row = false := by
  have gone : Text.trimStart row = [] := by
    rw [Text.trimStart, List.dropWhile_eq_nil_iff]
    exact List.all_eq_true.1 blank
  rw [isComment, gone]
  rfl

/-- A blank line in front of what follows a block is the next line of this block. -/
theorem cut_blank (each : ∀ b ∈ more, Block b) (blank : isBlankLine row)
    (same : row :: later = back ++ more.flatten) :
    ∃ left, back = row :: left ∧ later = left ++ more.flatten := by
  cases back with
  | nil =>
    have first : more.flatten.head? = some row := by
      rw [← List.nil_append more.flatten, ← same]
      rfl
    rw [head_visible each first] at blank
    cases blank
  | cons first left =>
    cases same
    exact ⟨left, rfl, rfl⟩

/-- What stands behind such a place. -/
theorem behind_place (parted : Parted (shown (before ++ later)) (done ++ (front ++ back) :: more))
    (place : shown before = done.flatten ++ front) (blank : ∀ row ∈ back, isBlankLine row) :
    front ≠ [] ∧ shown before ≠ [] ∧ uncommented later = back ++ more.flatten := by
  have block := parted.each (front ++ back) (List.mem_append_right _ (List.mem_cons_self ..))
  have filled := block.front_filled blank
  have reached : shown before ≠ [] := by
    rw [place]
    exact List.append_ne_nil_of_right_ne_nil _ filled
  refine ⟨filled, reached, ?_⟩
  have whole := parted.whole
  rw [shown_append reached, place, List.flatten_append, List.flatten_cons, List.append_assoc,
    List.append_assoc, List.append_cancel_left_eq, List.append_cancel_left_eq] at whole
  exact whole.symm

theorem itemsOf_comment (comment : isComment row) :
    itemsOf (before ++ row :: after) = itemsOf (before ++ after) := by
  simp [itemsOf, shown, uncommented, comment]

theorem itemsOf_blank (blank_row : isBlankLine row)
    (shut : Shut (before ++ after) before ∨ Shut (before ++ row :: after) before) :
    itemsOf (before ++ row :: after) = itemsOf (before ++ after) := by
  have kept : uncommented (row :: after) = row :: uncommented after :=
    List.filter_cons_of_pos (by simp [blank_no_comment blank_row])
  -- The block is one of the lines without the new one, or one that the new line is in.
  rcases shut with ⟨done, front, back, more, parted, place, blank⟩ |
    ⟨done, front, back, more, parted, place, blank⟩
  · obtain ⟨filled, reached, rest⟩ := behind_place parted place blank
    have same := parted.same_items filled blank (List.forall_mem_cons.2 ⟨blank_row, blank⟩)
    rw [itemsOf, itemsOf, ← same, shown_append reached, kept, rest, place]
    simp only [List.append_assoc, List.cons_append]
  · obtain ⟨filled, reached, rest⟩ := behind_place parted place blank
    have behind : ∀ b ∈ more, Block b := fun b there =>
      parted.each b (List.mem_append_right _ (List.mem_cons_of_mem _ there))
    obtain ⟨left, rfl, later⟩ := cut_blank behind blank_row (kept.symm.trans rest)
    have same := parted.same_items filled blank (List.forall_mem_cons.1 blank).2
    rw [itemsOf, itemsOf, ← same, shown_append reached, later, place, List.append_assoc]

/-- The second list of lines has one more, which is no part of an item or only of its end: a comment
anywhere, or a blank line behind the last visible line of a block of either list. -/
inductive Padded : List (List Char) → List (List Char) → Prop
  | comment (before after : List (List Char)) {row : List Char} (comment : isComment row) :
    Padded (before ++ after) (before ++ row :: after)
  | blank (before after : List (List Char)) {row : List Char} (blank : isBlankLine row)
    (shut : Shut (before ++ after) before ∨ Shut (before ++ row :: after) before) :
    Padded (before ++ after) (before ++ row :: after)

theorem Padded.itemsOf_eq {rows rows' : List (List Char)} (padded : Padded rows rows') :
    itemsOf rows = itemsOf rows' := by
  cases padded with
  | comment before after comment => exact (itemsOf_comment comment).symm
  | blank before after blank shut => exact (itemsOf_blank blank shut).symm

theorem itemsOf_eqv {rows rows' : List (List Char)} (edited : Relation.EqvGen Padded rows rows') :
    itemsOf rows = itemsOf rows' := by
  induction edited with
  | rel _ _ padded => exact padded.itemsOf_eq
  | refl _ => rfl
  | symm _ _ _ ih => exact ih.symm
  | trans _ _ _ _ _ ih ih' => exact ih.trans ih'

/-! ## Texts -/

theorem length_blocks (lines : List (List Char)) : (blocks lines).length ≤ lines.length := by
  induction lines using blocks.induct with
  | case1 => simp [blocks]
  | case2 line rest ih =>
    have fewer := (List.dropWhile_sublist continues (l := rest)).length_le
    rw [blocks, List.length_cons, List.length_cons]
    omega

/-- No text has more items than lines. -/
theorem length_parse (text : String) :
    (parse text).length ≤ (Text.lines text.toList).length := by
  rw [parse, splitItems, List.length_map, List.length_map]
  calc (blocks (itemLines text.toList)).length
    _ ≤ (itemLines text.toList).length := length_blocks _
    _ ≤ (uncommented (Text.lines text.toList)).length := (List.dropWhile_sublist _).length_le
    _ ≤ (Text.lines text.toList).length := List.length_filter_le _ _

theorem parse_eq (text : String) : parse text = (itemsOf (Text.lines text.toList)).map
    fun source => Section.ofSource (String.ofList source) := rfl

theorem sources_eq {text : String} (parted : Parted (shown (Text.lines text.toList)) bs) :
    (parse text).map Section.source = bs.map fun b => String.ofList (sourceOf b) := by
  rw [parse_eq, itemsOf, parted.blocks_eq, List.map_map, List.map_map]
  exact List.map_congr_left fun b _ => Section.source_ofSource _

/-- The lines of a text fall into blocks in one way only, and its items are what these blocks say.
They stay the same when comments come and go, or blank lines at the end of a block, and those of two
texts follow each other when the second starts an item of its own. -/
theorem items_are_blocks :
    (∀ text : String, ∃ bs, Parted (shown (Text.lines text.toList)) bs ∧
      (∀ bs', Parted (shown (Text.lines text.toList)) bs' → bs' = bs) ∧
      (parse text).map Section.source = bs.map (fun b => String.ofList (sourceOf b)) ∧
      (∀ s ∈ parse text, s.source ≠ "") ∧
      (parse text).length ≤ (Text.lines text.toList).length) ∧
    (∀ text text' : String,
      Relation.EqvGen Padded (Text.lines text.toList) (Text.lines text'.toList) →
        parse text = parse text') ∧
    (∀ front back : String, (front = "" ∨ ∃ start, front = start ++ "\n") →
      (∀ row, (uncommented (Text.lines back.toList)).head? = some row →
        ∃ c, row.head? = some c ∧ Text.isBlank c = false) →
      parse (front ++ back) = parse front ++ parse back) := by
  refine ⟨fun text => ?_, fun text text' edited => ?_, fun front back closed start => ?_⟩
  · have parted := shown_parted (Text.lines text.toList)
    have sources := sources_eq parted
    refine ⟨_, parted, fun bs' other => other.blocks_eq.symm, sources, fun s member => ?_, ?_⟩
    · have there : s.source ∈ (parse text).map Section.source := List.mem_map_of_mem member
      rw [sources] at there
      obtain ⟨b, block, same⟩ := List.mem_map.1 there
      rw [← same, Ne, String.ofList_eq_empty_iff]
      exact sourceOf_filled (parted.each b block)
    · exact length_parse text
  · rw [parse_eq, parse_eq, itemsOf_eqv edited]
  · have ended : ∀ c, front.toList.getLast? = some c → c = '\n' := by
      intro c last
      rcases closed with rfl | ⟨start, rfl⟩
      · cases last
      · rw [String.toList_append, List.getLast?_append] at last
        cases last
        rfl
    rw [parse_eq, String.toList_append, Text.lines_append ended, itemsOf_append, List.map_append]
    · rfl
    · intro row first
      obtain ⟨c, head, visible⟩ := start row first
      obtain ⟨rest, rfl⟩ := List.head?_eq_some_iff.1 head
      simp [continues, isBlankLine, isIndented, visible]

/-- A first item that is indented and goes on in a second line, with a blank line and a comment behind
it. -/
theorem items_are_blocks_when_padded : ∃ text text' : String,
    text = "  a = 1 +\n 2\nb = a" ∧ text' = "  a = 1 +\n 2\n \n# c\nb = a" ∧
    Relation.EqvGen Padded (Text.lines text.toList) (Text.lines text'.toList) ∧
    parse text = parse text' ∧ parse text = parse "  a = 1 +\n 2\n" ++ parse "b = a" ∧
    (parse text').map Section.source = ["  a = 1 +\n 2", "b = a"] := by
  obtain ⟨blocked, edits, joins⟩ := items_are_blocks
  let a : List Char := "  a = 1 +".toList
  let more : List Char := " 2".toList
  let b : List Char := "b = a".toList
  have first : Block [a, more] :=
    ⟨a, [more], rfl, by decide, List.forall_mem_singleton.2 (by decide)⟩
  have second : Block [b] := ⟨b, [], rfl, by decide, nofun⟩
  have parted : Parted [a, more, b] [[a, more], [b]] :=
    (Parted.single first).append (.single second) (by rintro row ⟨⟩; decide)
  have blank : Padded [a, more, b] [a, more, [' '], b] :=
    .blank [a, more] [b] (by decide) (Or.inl ⟨[], [a, more], [], [[b]], parted, by decide, nofun⟩)
  have comment : Padded [a, more, [' '], b] [a, more, [' '], "# c".toList, b] :=
    .comment [a, more, [' ']] [b] (by decide)
  have edited : Relation.EqvGen Padded [a, more, b] [a, more, [' '], "# c".toList, b] :=
    .trans _ _ _ (.rel _ _ blank) (.rel _ _ comment)
  have joined := joins "  a = 1 +\n 2\n" "b = a" (Or.inr ⟨"  a = 1 +\n 2", by decide⟩)
    (by rintro row ⟨⟩; exact ⟨'b', rfl, by decide⟩)
  have same := edits "  a = 1 +\n 2\nb = a" "  a = 1 +\n 2\n \n# c\nb = a" edited
  refine ⟨_, _, rfl, rfl, edited, same, joined, ?_⟩
  obtain ⟨bs, _, unique, sources, _⟩ := blocked "  a = 1 +\n 2\nb = a"
  rw [← same, sources, ← unique [[a, more], [b]] parted]
  decide

end Calc

end Worksheet
