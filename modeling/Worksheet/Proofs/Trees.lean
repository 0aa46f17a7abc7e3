import Worksheet.Proofs.Tokens
/-! Arrays and objects: how they are written in a layout, and how they are read element by element and
member by member. -/
namespace Worksheet.Json

variable {α β σ : Type} {text inner rest space : List Char}

/-! ## Between the values -/

theorem space_ends {c : Char} (mark : isSpace c = true) : goesOn c = false := by
  simp only [isSpace, Bool.or_eq_true, decide_eq_true_eq] at mark
  obtain ((rfl | rfl) | rfl) | rfl := mark <;> decide

theorem Blank.ends (blank : Blank space) (ends : Ends rest) : Ends (space ++ rest) := by
  cases space with
  | nil => exact ends
  | cons c space => exact ends_cons (space_ends (blank c (List.mem_cons_self ..)))

theorem blank_gap (layout : Layout) (depth : Nat) : Blank (layout.gap depth) := by
  intro c member
  cases layout with
  | compact => exact absurd member List.not_mem_nil
  | pretty =>
    obtain rfl | member := List.mem_cons.1 member
    · rfl
    · rw [(List.mem_replicate.1 member).2]
      rfl

theorem colon_spaced (layout : Layout) : ∃ space, layout.colon = ':' :: space ∧ Blank space := by
  cases layout with
  | compact => exact ⟨[], rfl, blank_nil⟩
  | pretty => exact ⟨[' '], rfl, by simp [Blank, isSpace]⟩

/-- A written value begins neither with white space nor with a closing mark, and only `null` begins
with an `n`. -/
theorem Tree.write_first (layout : Layout) (depth : Nat) (t : Tree) :
    ∃ c more, t.write layout depth = c :: more ∧ isSpace c = false ∧ c ≠ ']' ∧
      (c = 'n' → t = .null) := by
  cases t with
  | null => exact ⟨'n', _, write_null layout depth, rfl, by decide, fun _ => rfl⟩
  | whole n =>
    obtain ⟨d, ds, written, digit⟩ := toDigits_first n
    refine ⟨d, ds, by rw [write, written], not_space_of_digit digit, ?_, ?_⟩ <;> rintro rfl <;>
      exact absurd digit (by decide)
  | string s =>
    exact ⟨'"', _, by rw [write, quote]; rfl, rfl, by decide, fun h => absurd h (by decide)⟩
  | array elements =>
    cases elements with
    | nil => exact ⟨'[', _, by rw [write], rfl, by decide, fun h => absurd h (by decide)⟩
    | cons t more =>
      exact ⟨'[', _, by rw [write]; rfl, rfl, by decide, fun h => absurd h (by decide)⟩
  | object members =>
    cases members with
    | nil => exact ⟨'{', _, by rw [write], rfl, by decide, fun h => absurd h (by decide)⟩
    | cons m more =>
      obtain ⟨name, t⟩ := m
      exact ⟨'{', _, by rw [write]; rfl, rfl, by decide, fun h => absurd h (by decide)⟩

/-! ## Arrays -/

/-- An element or a member comes next, with this text from the white space before it on. -/
def Comes (result : Except Fault (Option (Later text))) (inner : List Char) : Prop :=
  ∃ l, result = .ok (some l) ∧ l.rest = inner

/-- What stands before an element or a member: a comma, unless it is the first one. -/
def lead (first : Bool) : List Char := if first then [] else [',']

/-- What may stand there: the comma may have white space before it. -/
inductive Leads : Bool → List Char → Prop
  | first : Leads true []
  | next {space : List Char} : Blank space → Leads false (space ++ [','])

theorem leads_lead (first : Bool) : Leads first (lead first) := by
  cases first with
  | true => exact .first
  | false => exact .next blank_nil

theorem comes_solid {first : Bool} {before : List Char} {c : Char} (leads : Leads first before)
    (more : List Char) (blank : Blank space) (mark : isSpace c = false) (no_close : c ≠ ']') :
    Comes (elementAhead first (before ++ (space ++ c :: more))) (space ++ c :: more) := by
  obtain ⟨t, found, value, -⟩ := ahead_mark more blank mark
  rw [← value] at no_close
  cases leads with
  | first =>
    show Comes (elementAhead true (space ++ c :: more)) _
    exact ⟨.all _, by simp [elementAhead, found, no_close], rfl⟩
  | next blank' =>
    rw [List.append_assoc]
    obtain ⟨comma, here, mark', left⟩ := ahead_mark (space ++ c :: more) blank'
      (rfl : isSpace ',' = false)
    obtain ⟨u, found', open'⟩ : ∃ u, ahead comma.rest = some u ∧ u.value ≠ ']' := by
      rw [left]
      exact ⟨t, found, no_close⟩
    exact ⟨comma.later, by simp [elementAhead, here, mark', found', open'], left⟩

theorem elementAhead_close (first : Bool) (blank : Blank space) :
    elementAhead first (space ++ ']' :: rest) = .ok none := by
  obtain ⟨c, found, value, -⟩ := ahead_mark rest blank (rfl : isSpace ']' = false)
  rw [elementAhead, found]
  exact if_pos value

theorem Yields.element {read : Reader α} {first : Bool} {a : α}
    (comes : Comes (elementAhead first text) inner) (h : Yields (read inner) a rest) :
    Yields (readElement first read text) a rest := by
  obtain ⟨l, here, rfl⟩ := comes
  obtain ⟨t, ok, rfl, rfl⟩ := h
  exact .after here (.after ok ⟨_, rfl, rfl, rfl⟩)

theorem Yields.elements {read : Reader α} {first : Bool} {a : α} {more : List α}
    {behind : List Char} (comes : Comes (elementAhead first text) inner)
    (h : Yields (read inner) a behind)
    (others : Yields (readElements read false behind) more rest) :
    Yields (readElements read first text) (a :: more) rest := by
  obtain ⟨l, here, rfl⟩ := comes
  obtain ⟨t, ok, rfl, rfl⟩ := h
  obtain ⟨u, ok', rfl, rfl⟩ := others
  rw [readElements]
  exact .after here (.after ok (.after ok' ⟨_, rfl, rfl, rfl⟩))

theorem yields_no_elements (read : Reader α) (first : Bool) (blank : Blank space) :
    Yields (readElements read first (space ++ ']' :: rest)) [] rest := by
  obtain ⟨t, ok, -, left⟩ := yields_readMark malformed rest blank (rfl : isSpace ']' = false)
  rw [readElements]
  exact .after (elementAhead_close first blank) (.after ok ⟨_, rfl, rfl, left⟩)

theorem Yields.array {read : Reader α} {values : List α}
    (opened : Yields (readMark '[' wrongKind text) () inner)
    (h : Yields (readElements read true inner) values rest) :
    Yields (readArray read text) values rest := by
  obtain ⟨t, ok, -, rfl⟩ := opened
  obtain ⟨u, ok', rfl, rfl⟩ := h
  exact .after ok (.after ok' ⟨_, rfl, rfl, rfl⟩)

theorem write_array (layout : Layout) (depth : Nat) (t : Tree) (more : List Tree)
    (rest : List Char) :
    (Tree.array (t :: more)).write layout depth ++ rest =
      '[' :: (layout.gap (depth + 1) ++ (t.write layout (depth + 1) ++
        (Tree.writeElements layout (depth + 1) more ++ (layout.gap depth ++ ']' :: rest)))) := by
  simp [Tree.write]

theorem writeElements_cons (layout : Layout) (depth : Nat) (t : Tree) (more : List Tree)
    (rest : List Char) :
    Tree.writeElements layout depth (t :: more) ++ rest =
      ',' :: (layout.gap depth ++ (t.write layout depth ++
        (Tree.writeElements layout depth more ++ rest))) := by
  simp [Tree.writeElements]

theorem ends_elements (layout : Layout) (depth : Nat) (ts : List Tree) (blank : Blank space) :
    Ends (Tree.writeElements layout depth ts ++ (space ++ ']' :: rest)) := by
  cases ts with
  | nil =>
    rw [Tree.writeElements]
    exact blank.ends (ends_cons rfl)
  | cons t more =>
    rw [writeElements_cons]
    exact ends_cons rfl

/-! ## Objects -/

theorem comes_quoted {first : Bool} {before : List Char} (leads : Leads first before)
    (more : List Char) (blank : Blank space) :
    Comes (memberAhead first (before ++ (space ++ '"' :: more))) (space ++ '"' :: more) := by
  obtain ⟨t, found, value, -⟩ := ahead_mark more blank (rfl : isSpace '"' = false)
  cases leads with
  | first =>
    show Comes (memberAhead true (space ++ '"' :: more)) _
    exact ⟨.all _, by simp [memberAhead, found, value], rfl⟩
  | next blank' =>
    rw [List.append_assoc]
    obtain ⟨comma, here, mark', left⟩ := ahead_mark (space ++ '"' :: more) blank'
      (rfl : isSpace ',' = false)
    obtain ⟨u, found', quoted⟩ : ∃ u, ahead comma.rest = some u ∧ u.value = '"' := by
      rw [left]
      exact ⟨t, found, value⟩
    exact ⟨comma.later, by simp [memberAhead, here, mark', found', quoted], left⟩

theorem memberAhead_close (first : Bool) (blank : Blank space) :
    memberAhead first (space ++ '}' :: rest) = .ok none := by
  obtain ⟨c, found, value, -⟩ := ahead_mark rest blank (rfl : isSpace '}' = false)
  rw [memberAhead, found]
  exact if_pos value

section Members

variable {members : Members σ} {s s' s'' : σ}

theorem Yields.member {first : Bool} {name : String} {read : Reader σ}
    {named coloned behind : List Char}
    (comes : Comes (memberAhead first text) inner) (hname : Yields (readString inner) name named)
    (chosen : members s name = .ok read) (colon : Yields (readColon named) () coloned)
    (h : Yields (read coloned) s' behind)
    (others : Yields (readMembers members s' false behind) s'' rest) :
    Yields (readMembers members s first text) s'' rest := by
  obtain ⟨l, here, rfl⟩ := comes
  obtain ⟨n, ok_name, rfl, rfl⟩ := hname
  obtain ⟨c, ok_colon, -, rfl⟩ := colon
  obtain ⟨t, ok, rfl, rfl⟩ := h
  obtain ⟨u, ok', rfl, rfl⟩ := others
  rw [readMembers]
  exact .after here (.after ok_name (.after chosen (.after ok_colon (.after ok (.after ok'
    ⟨_, rfl, rfl, rfl⟩)))))

theorem yields_no_members (members : Members σ) (s : σ) (first : Bool) (blank : Blank space) :
    Yields (readMembers members s first (space ++ '}' :: rest)) s rest := by
  obtain ⟨t, ok, -, left⟩ := yields_readMark malformed rest blank (rfl : isSpace '}' = false)
  rw [readMembers]
  exact .after (memberAhead_close first blank) (.after ok ⟨_, rfl, rfl, left⟩)

theorem write_object (layout : Layout) (depth : Nat) (name : String) (t : Tree)
    (more : List (String × Tree)) (rest : List Char) :
    (Tree.object ((name, t) :: more)).write layout depth ++ rest =
      '{' :: (layout.gap (depth + 1) ++ (quote name.toList ++ (layout.colon ++
        (t.write layout (depth + 1) ++ (Tree.writeMembers layout (depth + 1) more ++
          (layout.gap depth ++ '}' :: rest)))))) := by
  simp [Tree.write]

theorem writeMembers_cons (layout : Layout) (depth : Nat) (name : String) (t : Tree)
    (more : List (String × Tree)) (rest : List Char) :
    Tree.writeMembers layout depth ((name, t) :: more) ++ rest =
      ',' :: (layout.gap depth ++ (quote name.toList ++ (layout.colon ++ (t.write layout depth ++
        (Tree.writeMembers layout depth more ++ rest))))) := by
  simp [Tree.writeMembers]

theorem ends_members (layout : Layout) (depth : Nat) (ms : List (String × Tree))
    (blank : Blank space) :
    Ends (Tree.writeMembers layout depth ms ++ (space ++ '}' :: rest)) := by
  cases ms with
  | nil =>
    rw [Tree.writeMembers]
    exact blank.ends (ends_cons rfl)
  | cons m more =>
    obtain ⟨name, t⟩ := m
    rw [writeMembers_cons]
    exact ends_cons rfl

theorem Yields.record {finish : σ → Except Fault α} {fields : Reader α} {a : α}
    (blank : Blank space) (h : Yields (readMembers members s true inner) s' rest)
    (finished : finish s' = .ok a) :
    Yields (readRecord members s finish fields (space ++ '{' :: inner)) a rest := by
  obtain ⟨t, ok, rfl, rfl⟩ := h
  exact .spaced blank (solid_cons rfl) (.after ok (.after finished ⟨_, rfl, rfl, rfl⟩))

theorem Yields.listed {finish : σ → Except Fault α} {fields : Reader α} {a : α}
    {behind : List Char} (blank : Blank space) (h : Yields (fields inner) a behind)
    (closed : Yields (closeArray behind) () rest) :
    Yields (readRecord members s finish fields (space ++ '[' :: inner)) a rest := by
  obtain ⟨t, ok, rfl, rfl⟩ := h
  obtain ⟨e, ok_close, -, rfl⟩ := closed
  exact .spaced blank (solid_cons rfl) (.after ok (.after ok_close ⟨_, rfl, rfl, rfl⟩))

end Members

end Worksheet.Json
