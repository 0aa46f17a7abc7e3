import Worksheet.Proofs.Values
import Worksheet.Json.Shape
/-! The ways to write a record. Main statements: a record is read in every one of them, and an object
with a field that it has already is not read at all. -/
namespace Worksheet.Json

variable {α β σ : Type} {text rest space : List Char}

/-! ## Fields and members -/

/-- A field of a record: its name, whether it may be left out, and the tokens that show its value. -/
structure Field where
  name : String
  Optional : Prop
  Shows : List Token → Prop

/-- A member of an object: its name, a token that spells the name, and the tokens of its value. -/
structure Member where
  name : String
  token : Token
  spelled : Spelling token name
  value : List Token

/-- A member whose name is spelled as it is written. -/
def Member.written (name : String) (value : List Token) : Member :=
  ⟨name, quote name.toList, spelling_quote name, value⟩

def Member.tokens (m : Member) : List Token := member m.token m.value

/-- Members that a record may have: a member with the name of a field shows that field, and the only
one to do so; a member with another name may have any value. -/
structure Fit (fields : List Field) (ms : List Member) : Prop where
  shown : ∀ m ∈ ms, ∀ f ∈ fields, f.name = m.name → f.Shows m.value
  other : ∀ m ∈ ms, (∀ f ∈ fields, f.name ≠ m.name) → Value m.value
  once : ms.Pairwise fun m n => ∀ f ∈ fields, f.name = m.name → f.name ≠ n.name

/-- A record as an object, with its members in any order and no field missing that must be there, or
as the array of all its fields. -/
inductive Record (fields : List Field) : List Token → Prop
  | object (ms : List Member) : Fit fields ms →
    (∀ f ∈ fields, f.name ∈ ms.map Member.name ∨ f.Optional) →
    Record fields (braced (ms.map Member.tokens))
  | array {tss : List (List Token)} : List.Forall₂ Field.Shows fields tss →
    Record fields (bracketed tss)

/-- The front of an object that ends with the name of a field that is there already. -/
inductive Repeats (fields : List Field) : List Token → Prop
  | again (ms : List Member) {f : Field} {token : Token} : Fit fields ms → f ∈ fields →
    f.name ∈ ms.map Member.name → Spelling token f.name →
    Repeats fields (['{'] :: (items true (ms.map Member.tokens) ++ [[','], token]))

theorem Record.first {fields : List Field} {ts : List Token} (h : Record fields ts) :
    first? ts ≠ some 'n' := by
  cases h <;> exact fun same => nomatch same

theorem Repeats.first {fields : List Field} {front : List Token} (h : Repeats fields front) :
    first? front ≠ some 'n' := by
  cases h
  exact fun same => nomatch same

/-! ## Values that are refused -/

/-- A mismatch is found in these tokens, whatever comes behind them. -/
structure Faults (read : Reader α) (ts : List Token) : Prop where
  opens : Opens ts
  mismatched {text rest : List Char} : Spread rest ts text → read text = .error .mismatched

namespace Faults

variable {read : Reader α} {front : List Token}

theorem readAll (h : Faults read front) (spread : Spread rest front text) :
    readAll read text = .error .mismatched := by
  rw [Json.readAll, h.mismatched spread]
  rfl

theorem map (f : α → β) (h : Faults read front) : Faults (read.map f) front := by
  refine ⟨h.opens, fun spread => ?_⟩
  rw [Reader.map, h.mismatched spread]
  rfl

theorem some (h : Faults read front) (present : first? front ≠ some 'n') :
    Faults (readOption read) front := by
  refine ⟨h.opens, fun spread => ?_⟩
  obtain ⟨c, first, mark, -⟩ := h.opens
  obtain ⟨space, more, rfl, blank, spread⟩ := spread.first first
  refine fault_option blank mark ?_ (h.mismatched spread)
  rintro rfl
  exact present first

theorem element {first : Bool} (h : Faults read front)
    (spread : Spread rest (items first [front]) text) :
    readElement first read text = .error .mismatched := by
  rw [← List.append_nil (items first [front])] at spread
  obtain ⟨inner, middle, ⟨l, ahead, rfl⟩, here, -⟩ := spread.element h.opens
  exact fault_after ahead (congrArg (· >>= _) (h.mismatched here))

theorem elements {first : Bool} {tss : List (List Token)} {values : List α}
    (h : Faults read front) (each : List.Forall₂ (Reads read) tss values)
    (spread : Spread rest (items first (tss ++ [front])) text) :
    readElements read first text = .error .mismatched := by
  rw [← List.append_nil (items first _)] at spread
  induction each generalizing first text with
  | nil =>
    obtain ⟨inner, middle, ⟨l, ahead, rfl⟩, here, -⟩ := Spread.element spread h.opens
    rw [readElements]
    exact fault_after ahead (congrArg (· >>= _) (h.mismatched here))
  | @cons ts value tss values head _ ih =>
    obtain ⟨inner, middle, ⟨l, ahead, rfl⟩, here, behind⟩ := Spread.element spread head.opens
    have ends : Ends middle := by
      cases tss with
      | nil => exact Spread.ends behind rfl
      | cons us tss => exact Spread.ends behind rfl
    obtain ⟨t, ok, rfl, rfl⟩ := head.yields here ends
    rw [readElements]
    exact fault_after ahead (fault_after ok (congrArg (· >>= _) (ih behind)))

theorem array {tss : List (List Token)} {values : List α} (h : Faults read front)
    (each : List.Forall₂ (Reads read) tss values) :
    Faults (readArray read) (['['] :: items true (tss ++ [front])) := by
  refine ⟨⟨'[', rfl, rfl, by decide⟩, fun spread => ?_⟩
  obtain ⟨inner, ⟨t, ok, -, rfl⟩, spread⟩ := spread.mark wrongKind rfl
  exact fault_after ok (congrArg (· >>= _) (h.elements each spread))

end Faults

/-! ## Reading members -/

/-- How a record is built up from its members: what is known depends on which names have been read,
so a field is read at its first occurrence and refused at the next one. -/
structure Draws (members : Members σ) (finish : σ → Except Fault α) (fields : List Field)
    (state : List String → σ) (value : α) : Prop where
  field : ∀ f ∈ fields, ∀ seen, f.name ∉ seen → ∃ read, members (state seen) f.name = .ok read ∧
    ∀ ts, f.Shows ts → Reads read ts (state (f.name :: seen))
  again : ∀ f ∈ fields, ∀ seen, f.name ∈ seen → members (state seen) f.name = .error .mismatched
  other : ∀ name, (∀ f ∈ fields, f.name ≠ name) → ∀ seen,
    members (state seen) name = .ok (skipMemberValue (state (name :: seen)))
  whole : ∀ seen, (∀ f ∈ fields, f.name ∈ seen ∨ f.Optional) → finish (state seen) = .ok value

theorem reads_skipped {ts : List Token} (value : Value ts) (s : σ) :
    Reads (skipMemberValue s) ts s := by
  have skipped := skips value
  refine ⟨skipped.opens, fun spread ends => ?_⟩
  obtain ⟨t, ok, -, left⟩ := skipped.yields spread ends
  exact .after ok ⟨t.as s, rfl, rfl, left⟩

theorem Fit.tail {fields : List Field} {m : Member} {ms : List Member} (h : Fit fields (m :: ms)) :
    Fit fields ms where
  shown := fun n listed => h.shown n (List.mem_cons_of_mem _ listed)
  other := fun n listed => h.other n (List.mem_cons_of_mem _ listed)
  once := h.once.of_cons

/-- No member repeats a field that has been seen. -/
def Fresh (fields : List Field) (ms : List Member) (seen : List String) : Prop :=
  ∀ f ∈ fields, f.name ∈ ms.map Member.name → f.name ∉ seen

theorem Fit.fresh {fields : List Field} {m : Member} {ms : List Member} {seen : List String}
    (h : Fit fields (m :: ms)) (fresh : Fresh fields (m :: ms) seen) :
    Fresh fields ms (m.name :: seen) := by
  intro f listed later known
  obtain same | earlier := List.mem_cons.1 known
  · obtain ⟨n, member, named⟩ := List.mem_map.1 later
    exact (List.pairwise_cons.1 h.once).1 n member f listed same named.symm
  · exact fresh f listed (List.mem_cons_of_mem _ later) earlier

section Members

variable {members : Members σ} {finish : σ → Except Fault α} {fields : List Field}
  {state : List String → σ} {value : α} {seen : List String} {m : Member} {ms : List Member}

/-- The value of a member that is no second occurrence of a field is read. -/
theorem Draws.reads (draws : Draws members finish fields state value) (fit : Fit fields (m :: ms))
    (fresh : Fresh fields (m :: ms) seen) :
    ∃ read, members (state seen) m.name = .ok read ∧
      Reads read m.value (state (m.name :: seen)) := by
  have here : m ∈ m :: ms := List.mem_cons_self ..
  by_cases known : ∃ f ∈ fields, f.name = m.name
  · obtain ⟨f, listed, same⟩ := known
    have new : f.name ∉ seen := fresh f listed (by rw [same]; exact List.mem_cons_self ..)
    obtain ⟨read, chosen, reads⟩ := draws.field f listed seen new
    rw [same] at chosen reads
    exact ⟨read, chosen, reads m.value (fit.shown m here f listed same)⟩
  · have foreign : ∀ f ∈ fields, f.name ≠ m.name := fun f listed same => known ⟨f, listed, same⟩
    exact ⟨_, draws.other m.name foreign seen, reads_skipped (fit.other m here foreign) _⟩

/-- A member takes one value to the next, and leaves this behind its own value. -/
inductive Turn (members : Members σ) (s s' : σ) (first : Bool) (text middle : List Char) : Prop
  | step {inner named coloned : List Char} {name : String} {read : Reader σ} :
    Comes (memberAhead first text) inner → Yields (readString inner) name named →
    members s name = .ok read → Yields (readColon named) () coloned →
    Yields (read coloned) s' middle → Turn members s s' first text middle

theorem Turn.yields {s s' s'' : σ} {first : Bool} {middle : List Char}
    (h : Turn members s s' first text middle)
    (others : Yields (readMembers members s' false middle) s'' rest) :
    Yields (readMembers members s first text) s'' rest := by
  cases h with
  | step comes name chosen colon value => exact .member comes name chosen colon value others

theorem Turn.fault {s s' : σ} {first : Bool} {middle : List Char} {e : Fault}
    (h : Turn members s s' first text middle)
    (others : readMembers members s' false middle = .error e) :
    readMembers members s first text = .error e := by
  cases h with
  | step comes name chosen colon value =>
    obtain ⟨l, here, rfl⟩ := comes
    obtain ⟨n, ok_name, rfl, rfl⟩ := name
    obtain ⟨c, ok_colon, -, rfl⟩ := colon
    obtain ⟨t, ok, rfl, rfl⟩ := value
    rw [readMembers]
    exact fault_after here (fault_after ok_name (fault_after chosen (fault_after ok_colon
      (fault_after ok (congrArg (· >>= _) others)))))

theorem Draws.turn (draws : Draws members finish fields state value) (fit : Fit fields (m :: ms))
    (fresh : Fresh fields (m :: ms) seen) {first : Bool} {c : Char} {us : List Token}
    (spread : Spread rest (items first ((m :: ms).map Member.tokens) ++ [c] :: us) text)
    (other : goesOn c = false) :
    ∃ middle, Turn members (state seen) (state (m.name :: seen)) first text middle ∧
      Spread rest (items false (ms.map Member.tokens) ++ [c] :: us) middle := by
  obtain ⟨read, chosen, reads⟩ := draws.reads fit fresh
  obtain ⟨before, inner, middle, rfl, leads, here, behind⟩ := spread.item
  obtain ⟨space, named, rfl, blank, here⟩ := here.behind
  obtain ⟨space', coloned, rfl, blank', here⟩ := here.behind
  have comes := m.spelled.comes leads (space' ++ ([':'] ++ coloned)) blank
  exact ⟨middle, .step comes (m.spelled.yields blank) chosen
    (yields_readMark malformed coloned blank' rfl) (reads.yields here (behind.ends_item other)),
    behind⟩

theorem yields_built (draws : Draws members finish fields state value) (fit : Fit fields ms)
    (fresh : Fresh fields ms seen) {first : Bool}
    (spread : Spread rest (items first (ms.map Member.tokens) ++ [['}']]) text) :
    Yields (readMembers members (state seen) first text)
      (state ((ms.map Member.name).reverse ++ seen)) rest := by
  -- All that the members before `ms` leave behind is the list of their names.
  induction ms generalizing seen first text with
  | nil =>
    obtain ⟨space, more, rfl, blank, spread⟩ := Spread.behind spread
    cases spread
    exact yields_no_members members (state seen) first blank
  | cons m ms ih =>
    obtain ⟨middle, turn, behind⟩ := draws.turn fit fresh spread rfl
    have others := ih fit.tail (fit.fresh fresh) behind
    rw [List.map_cons, List.reverse_cons, List.append_assoc]
    exact turn.yields others

/-- The name of a field that has been read is refused, before its value is looked at. -/
theorem fault_repeated (draws : Draws members finish fields state value) (fit : Fit fields ms)
    (fresh : Fresh fields ms seen) {f : Field} (listed : f ∈ fields) {token : Token}
    (spelled : Spelling token f.name) (known : f.name ∈ ms.map Member.name ∨ f.name ∈ seen)
    {first : Bool} (begun : ms = [] → first = false)
    (spread : Spread rest (items first (ms.map Member.tokens) ++ [[','], token]) text) :
    readMembers members (state seen) first text = .error .mismatched := by
  induction ms generalizing seen first text with
  | nil =>
    -- The name is read whole, and then it is `members` that refuses it.
    obtain rfl := begun rfl
    have known' : f.name ∈ seen := by simpa using known
    obtain ⟨space, more, rfl, blank, spread⟩ := Spread.behind spread
    obtain ⟨space', inner, rfl, blank', spread⟩ := spread.behind
    obtain ⟨l, here, left⟩ := spelled.comes (.next blank) inner blank'
    have name : Yields (readString (space' ++ (token ++ inner))) f.name inner :=
      spelled.yields blank'
    rw [← left] at name
    obtain ⟨n, ok, value, -⟩ := name
    have refused : members (state seen) n.value = .error .mismatched := by
      rw [value]
      exact draws.again f listed seen known'
    rw [← List.append_assoc, readMembers]
    exact fault_after here (fault_after ok (congrArg (· >>= _) refused))
  | cons m ms ih =>
    obtain ⟨middle, turn, behind⟩ := draws.turn fit fresh spread rfl
    refine turn.fault (ih fit.tail (fit.fresh fresh) ?_ (fun _ => rfl) behind)
    rw [List.map_cons, List.mem_cons] at known
    rw [List.mem_cons]
    tauto

/-- A record is read in every way to write it, if the array of its fields is. -/
theorem reads_record (draws : Draws members finish fields state value) {readFields : Reader α}
    (listed : ∀ {tss : List (List Token)} {text rest : List Char},
      List.Forall₂ Field.Shows fields tss → Spread rest (items true tss ++ [[']']]) text →
      ∃ middle, Yields (readFields text) value middle ∧ Spread rest [[']']] middle)
    {ts : List Token} (record : Record fields ts) :
    Reads (readRecord members (state []) finish readFields) ts value := by
  cases record with
  | object ms fit whole =>
    refine ⟨⟨'{', rfl, rfl, by decide⟩, fun spread _ => ?_⟩
    obtain ⟨space, more, rfl, blank, spread⟩ := spread.behind
    have fresh : Fresh fields ms [] := fun _ _ _ => List.not_mem_nil
    have finished : finish (state ((ms.map Member.name).reverse ++ [])) = .ok value :=
      draws.whole _ fun f member => (whole f member).imp_left (by simp)
    exact .record blank (yields_built draws fit fresh spread) finished
  | array shown =>
    refine ⟨⟨'[', rfl, rfl, by decide⟩, fun {text rest} spread _ => ?_⟩
    obtain ⟨space, more, rfl, blank, spread⟩ := spread.behind
    obtain ⟨middle, read, closing⟩ := listed shown spread
    obtain ⟨more, closed, spread⟩ := closing.mark malformed rfl
    cases spread
    exact .listed blank read closed

theorem faults_record (draws : Draws members finish fields state value) {readFields : Reader α}
    {front : List Token} (repeats : Repeats fields front) :
    Faults (readRecord members (state []) finish readFields) front := by
  cases repeats with
  | again ms fit listed known spelled =>
    refine ⟨⟨'{', rfl, rfl, by decide⟩, fun spread => ?_⟩
    obtain ⟨space, more, rfl, blank, spread⟩ := spread.behind
    have fresh : Fresh fields ms [] := fun _ _ _ => List.not_mem_nil
    have begun : ms = [] → true = false := by
      rintro rfl
      exact absurd known List.not_mem_nil
    have refused := fault_repeated draws fit fresh listed spelled (Or.inl known) begun spread
    exact fault_spaced blank (solid_cons rfl) (congrArg (· >>= _) refused)

end Members

end Worksheet.Json
