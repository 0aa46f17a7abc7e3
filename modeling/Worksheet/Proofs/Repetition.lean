import Worksheet.Proofs.Sequence
/-! Taking in a text twice in a row. The second time every declaration is found under the key that it
has, and what cannot be read gets a new key. -/
namespace Worksheet

open Calc (Decl Section)

namespace Memo

variable {m m' : Memo} {r : Recipe} {k : Key}

/-- A key on record stays the one that is found. -/
theorem lookup_of_prefix (later : m.entries <+: m'.entries) (held : m.lookup r = some k) :
    m'.lookup r = some k := by
  obtain ⟨more, entries⟩ := later
  obtain ⟨e, found, rfl⟩ := Option.map_eq_some_iff.1 held
  rw [lookup, ← entries, List.find?_append, found]
  rfl

end Memo

/-- What there is to report about an item that was placed as broken. -/
def Calc.Section.rejection? : Section → Placed → Option Report
  | .broken source e, p => some (.rejected p.key source e.message)
  | .decl _, _ => none

def Calc.Section.isDecl : Section → Bool
  | .decl _ => true
  | .broken _ _ => false

/-- The reports about the broken ones among items, in order. -/
def rejections (items : List Section) (r : Revision) : List Report :=
  (List.zipWith Calc.Section.rejection? items r).filterMap id

namespace Revision

/-- The placements are those of these items: what is broken could not be read. -/
def Reads (r : Revision) (items : List Section) : Prop :=
  List.Forall₂ (fun item p => item.isDecl = true ↔ p.placement ≠ .broken) items r

/-- Placed again, with new keys for what is broken. -/
def again (issued : Nat) : Revision → Revision
  | [] => []
  | p :: more =>
    if p.placement = .broken then ⟨⟨UInt64.ofNat issued⟩, .broken⟩ :: again (issued + 1) more
    else ⟨p.key, .reused⟩ :: again issued more

theorem count_cons (p : Placed) (r : Revision) (placement : Placement) :
    count (p :: r) placement = (if p.placement = placement then 1 else 0) + r.count placement := by
  simp only [count, List.filter_cons, decide_eq_true_eq]
  split
  · rw [List.length_cons, Nat.add_comm]
  · rw [Nat.zero_add]

theorem again_broken {p : Placed} (broken : p.placement = .broken) (issued : Nat) (more : Revision) :
    again issued (p :: more) = ⟨⟨UInt64.ofNat issued⟩, .broken⟩ :: again (issued + 1) more :=
  if_pos broken

theorem again_reused {p : Placed} (known : p.placement ≠ .broken) (issued : Nat) (more : Revision) :
    again issued (p :: more) = ⟨p.key, .reused⟩ :: again issued more :=
  if_neg known

theorem again_count (issued : Nat) (r : Revision) :
    (r.again issued).count .started = 0 ∧ (r.again issued).count .broken = r.count .broken := by
  induction r generalizing issued with
  | nil => exact ⟨rfl, rfl⟩
  | cons p more ih =>
    by_cases broken : p.placement = .broken
    · obtain ⟨started, same⟩ := ih (issued + 1)
      simp [again_broken broken, count_cons, started, same, broken]
    · obtain ⟨started, same⟩ := ih issued
      simp [again_reused broken, count_cons, started, same, broken]

theorem again_length (issued : Nat) (r : Revision) : (r.again issued).length = r.length := by
  induction r generalizing issued with
  | nil => rfl
  | cons p more ih =>
    by_cases broken : p.placement = .broken
    · rw [again_broken broken, List.length_cons, ih, List.length_cons]
    · rw [again_reused broken, List.length_cons, ih, List.length_cons]

theorem again_at {issued i : Nat} {r : Revision} {p p' : Placed} (here : r[i]? = some p)
    (here' : (r.again issued)[i]? = some p') :
    (p.placement = .broken → p'.placement = .broken) ∧
      (p.placement ≠ .broken → p' = ⟨p.key, .reused⟩) := by
  induction r generalizing issued i with
  | nil => cases here
  | cons q more ih =>
    by_cases broken : q.placement = .broken
    · rw [again_broken broken] at here'
      cases i with
      | zero =>
        cases here
        cases here'
        exact ⟨fun _ => rfl, fun known => absurd broken known⟩
      | succ i => exact ih here here'
    · rw [again_reused broken] at here'
      cases i with
      | zero =>
        cases here
        cases here'
        exact ⟨fun same => absurd same broken, fun _ => rfl⟩
      | succ i => exact ih here here'

/-- The keys of the broken items. -/
def brokenKeys (r : Revision) : List Key := (r.filter (·.placement = .broken)).map Placed.key

theorem again_brokenKeys {issued : Nat} {r : Revision} (few : issued + r.length ≤ UInt64.size) :
    (r.again issued).brokenKeys.map Key.number = List.range' issued (r.count .broken) := by
  induction r generalizing issued with
  | nil => rfl
  | cons p more ih =>
    rw [List.length_cons] at few
    rw [count_cons]
    by_cases broken : p.placement = .broken
    · have here : Key.number ⟨UInt64.ofNat issued⟩ = issued :=
        UInt64.toNat_ofNat_of_lt (by omega)
      have few_more : issued + 1 + more.length ≤ UInt64.size := by omega
      have rest := ih few_more
      simp only [brokenKeys] at rest
      simp [again_broken broken, brokenKeys, rest, here, broken, Nat.add_comm 1, List.range'_succ]
    · have few_more : issued + more.length ≤ UInt64.size := by omega
      have rest := ih few_more
      simp only [brokenKeys] at rest
      simp [again_reused broken, brokenKeys, rest, broken]

theorem count_total (r : Revision) :
    r.count .started + r.count .reused + r.count .broken = r.length := by
  induction r with
  | nil => rfl
  | cons p more ih =>
    rw [count_cons, count_cons, count_cons, List.length_cons, ← ih]
    cases p.placement with
    | broken => simp; omega
    | reused => simp; omega
    | started => simp; omega

end Revision

namespace Desk

variable {running : Bool} {d d' last : Desk} {item : Section} {items : List Section} {e : Entered}
  {r : Revision} {reports : List Report}

/-- Behind a declaration, its instance is found under its key. -/
theorem Added.lookup {decl : Decl} (add : Added d running (.decl decl) (d', .ok e)) :
    d'.memo.lookup (d.recipe decl) = some e.placed.key := by
  cases add with
  | reused _ key held => exact held
  | started _ new =>
    have none_before := Option.map_eq_none_iff.1 new
    simp [Memo.lookup, List.find?_append, none_before]

theorem Entering.reads_items (h : Entering running d items r reports last) : r.Reads items := by
  induction h with
  | nil => exact .nil
  | @cons d d' last item items e r reports added more ih =>
    refine .cons ?_ ih
    cases item with
    | broken source err =>
      obtain ⟨_, rfl⟩ := added.of_broken
      simp [Calc.Section.isDecl]
    | decl decl => simp [Calc.Section.isDecl, added.of_decl.2.2]

theorem Entering.issued_le (h : Entering running d items r reports last) :
    last.memo.issued ≤ d.memo.issued + items.length := by
  induction h with
  | nil => exact Nat.le_refl _
  | cons added more ih =>
    have next := added.issued
    rw [List.length_cons]
    omega

end Desk

namespace Live

open Desk (Entering)

variable {l : Live} {d last : Desk} {items : List Section} {r : Revision} {reports : List Report}
  {running : Bool}

/-- While the hub takes reports, items are always taken in. -/
theorem addAll_ok (heard : l.hub.running = true) (agrees : l.toDesk.Agrees)
    (few : l.memo.issued + items.length < UInt64.size) :
    ∃ l' r, l.addAll items = (l', .ok r) := by
  induction items generalizing l with
  | nil => exact ⟨l, [], rfl⟩
  | cons item items ih =>
    rw [List.length_cons] at few
    cases taken : l.toDesk.add l.hub.running item with | mk d out =>
    have added := Desk.Added.of_add taken
    have next := added.issued
    cases out with
    | error f =>
      obtain ⟨_, deaf, _⟩ := agrees.failure added
      rw [heard] at deaf
      cases deaf
    | ok e =>
      have first : l.add item = (⟨d, e.report.elim l.hub l.hub.publish⟩, .ok e.placed) := by
        simp only [add, taken]
      have heard' : (e.report.elim l.hub l.hub.publish).running = true := by
        cases e.report with
        | none => exact heard
        | some report => exact heard
      have few_more : d.memo.issued + items.length < UInt64.size := by omega
      have kept := agrees.added added (by omega)
      obtain ⟨l', more, rest⟩ :=
        ih (l := ⟨d, e.report.elim l.hub l.hub.publish⟩) heard' kept few_more
      exact ⟨l', e.placed :: more, by simp [addAll, first, rest, Except.map]⟩

/-- Items that were taken in before are taken in again, if the names stand for the same keys. -/
theorem addAll_again (h : Entering running d items r reports last) (heard : l.hub.running = true)
    (scope : l.scope = d.scope) (later : last.memo.entries <+: l.memo.entries) :
    ∃ l', l.addAll items = (l', .ok (r.again l.memo.issued)) ∧
      l'.memo.entries = l.memo.entries ∧ l'.cells = l.cells ∧
      l'.hub = (rejections items (r.again l.memo.issued)).foldl Hub.publish l.hub := by
  induction h generalizing l with
  | nil => exact ⟨l, rfl, rfl, rfl, rfl⟩
  | @cons d d' last item items e r reports added more ih =>
    cases item with
    | broken source err =>
      obtain ⟨rfl, rfl⟩ := added.of_broken
      have first : l.add (.broken source err) =
          (⟨{ l.toDesk with memo := l.memo.issue },
            l.hub.publish (.rejected l.memo.nextKey source err.message)⟩,
            .ok ⟨l.memo.nextKey, .broken⟩) := by
        simp only [add, Desk.add, Desk.addBroken, heard, if_true]
        rfl
      obtain ⟨l', rest, entries, cells, hub⟩ := ih
        (l := ⟨{ l.toDesk with memo := l.memo.issue },
          l.hub.publish (.rejected l.memo.nextKey source err.message)⟩) heard scope later
      refine ⟨l', ?_, entries, cells, hub⟩
      rw [Revision.again_broken rfl]
      simp only [addAll, first, rest]
      rfl
    | decl decl =>
      obtain ⟨_, bound, known⟩ := added.of_decl
      have held : l.memo.lookup (l.toDesk.recipe decl) = some e.placed.key := by
        have same : l.toDesk.recipe decl = d.recipe decl := by
          simp only [Desk.recipe, scope]
        rw [same]
        exact Memo.lookup_of_prefix (more.extends.entries.trans later) added.lookup
      have first : l.add (.decl decl) =
          (⟨{ l.toDesk with scope := Scope.bind l.scope decl.bound e.placed.key }, l.hub⟩,
            .ok ⟨e.placed.key, .reused⟩) := by
        simp only [add, Desk.add, Desk.addDecl, held]
        rfl
      obtain ⟨l', rest, entries, cells, hub⟩ := ih
        (l := ⟨{ l.toDesk with scope := Scope.bind l.scope decl.bound e.placed.key }, l.hub⟩)
        heard (by rw [bound, ← scope]) later
      refine ⟨l', ?_, entries, cells, ?_⟩
      · rw [Revision.again_reused known]
        simp only [addAll, first, rest]
        rfl
      · rw [Revision.again_reused known]
        exact hub

theorem edit_ok {l' : Live} {text : String}
    (taken : ({ l with toDesk := l.toDesk.turn } : Live).addAll (Calc.parse text) = (l', .ok r))
    (heard : l'.hub.running = true) :
    l.edit text = ({ l' with hub := l'.hub.publish (.ofOrder r.order) }, .ok r) := by
  simp only [edit, complete, taken, close, heard, if_true, List.nil_append]

end Live

/-- A revision of a text, right behind another one of the same text. -/
structure Repeated (items : List Section) (issued : Nat) (r r' : Revision) : Prop where
  started : r'.count .started = 0
  reused : r'.count .reused = items.countP Calc.Section.isDecl
  broken : r'.count .broken = r.count .broken
  length : r.length = items.length ∧ r'.length = items.length
  /-- Declarations have the same keys. -/
  same : ∀ (i : Nat) (decl : Decl) (p p' : Placed), items[i]? = some (.decl decl) →
    r[i]? = some p → r'[i]? = some p' → p'.placement = .reused ∧ p'.key = p.key
  /-- All other items have new keys, which follow those given out so far. -/
  fresh : ∀ (i : Nat) (source : String) (e : Calc.ParseError) (p p' : Placed),
    items[i]? = some (.broken source e) → r[i]? = some p → r'[i]? = some p' →
      p'.placement = .broken ∧ p.placement = .broken
  keys : r'.brokenKeys.map Key.number = List.range' issued (r.count .broken)

namespace Revision

variable {items : List Section} {r : Revision}

theorem Reads.placement_at (h : r.Reads items) {i : Nat} {item : Section} {p : Placed}
    (at_i : items[i]? = some item) (here : r[i]? = some p) :
    item.isDecl = true ↔ p.placement ≠ .broken := by
  induction h generalizing i with
  | nil => cases here
  | cons first more ih =>
    cases i with
    | zero =>
      cases at_i
      cases here
      exact first
    | succ i => exact ih at_i here

/-- What comes of the items of a text that follow their placements: how many could be read, and one
report about each of the others. -/
theorem Reads.counts (h : r.Reads items) :
    items.countP Calc.Section.isDecl + r.count .broken = items.length ∧
      (rejections items r).length = r.count .broken := by
  induction h with
  | nil => exact ⟨rfl, rfl⟩
  | @cons item p items r here more ih =>
    obtain ⟨read, told⟩ := ih
    rw [count_cons, List.countP_cons, List.length_cons]
    cases item with
    | decl decl =>
      have known : p.placement ≠ .broken := here.1 rfl
      refine ⟨?_, ?_⟩
      · simp [Calc.Section.isDecl, known]
        omega
      · rw [if_neg known, Nat.zero_add]
        exact told
    | broken source e =>
      have lost : p.placement = .broken := by
        by_contra differ
        cases here.2 differ
      refine ⟨?_, ?_⟩
      · simp [Calc.Section.isDecl, lost]
        omega
      · rw [if_pos lost, Nat.add_comm]
        exact congrArg (· + 1) told

theorem Reads.again (h : r.Reads items) (issued : Nat) : (r.again issued).Reads items := by
  induction h generalizing issued with
  | nil => exact .nil
  | @cons item p items r here more ih =>
    by_cases broken : p.placement = .broken
    · rw [again_broken broken]
      refine .cons ?_ (ih _)
      rw [here, broken]
    · rw [again_reused broken]
      refine .cons ?_ (ih _)
      rw [here]
      exact ⟨fun _ => Placement.noConfusion, fun _ => broken⟩

theorem again_order (known : r.count .broken = 0) (issued : Nat) :
    (r.again issued).order = r.order := by
  induction r with
  | nil => rfl
  | cons p more ih =>
    rw [count_cons] at known
    by_cases broken : p.placement = .broken
    · rw [if_pos broken] at known
      omega
    · rw [if_neg broken, Nat.zero_add] at known
      rw [again_reused broken]
      exact congrArg (p.key :: ·) (ih known)

theorem Reads.repeated {issued : Nat} (h : r.Reads items)
    (few : issued + items.length ≤ UInt64.size) : Repeated items issued r (r.again issued) := by
  obtain ⟨started, broken⟩ := r.again_count issued
  have length : r.length = items.length := (List.Forall₂.length_eq h).symm
  have decls := h.counts.1
  have total := (r.again issued).count_total
  rw [again_length] at total
  constructor
  · exact started
  · omega
  · exact broken
  · exact ⟨length, (r.again_length issued).trans length⟩
  · intro i decl p p' item here here'
    have known := (h.placement_at item here).1 rfl
    obtain rfl := (again_at here here').2 known
    exact ⟨rfl, rfl⟩
  · intro i source e p p' item here here'
    have lost : p.placement = .broken := by
      by_contra differ
      cases (h.placement_at item here).2 differ
    exact ⟨(again_at here here').1 lost, lost⟩
  · exact again_brokenKeys (length ▸ few)

end Revision

namespace Workshop

/-- Whatever has gone on before, and whatever cells and hub do in between: of two edits of the same
text in a row, the second one starts nothing, and it reports on nothing but broken items. -/
theorem edit_again (ev : Evaluator) (capacity : Nat) (texts : List String) (moves : List Move)
    (s : Workshop) (work : (start capacity texts).work ev moves = some s) (text : String)
    (few : s.memo.issued + 2 * (Calc.parse text).length < UInt64.size) :
    ∃ l r, (Live.mk s.toDesk s.hub).edit text = (l, .ok r) ∧ l.hub.running = true ∧
      ∀ (cells : Cells) (hub : Hub), hub.running = true →
        ∃ l' r', (Live.mk { l.toDesk with cells := cells } hub).edit text = (l', .ok r') ∧
          Repeated (Calc.parse text) l.memo.issued r r' ∧
          l'.memo.entries = l.memo.entries ∧ l'.cells = cells ∧
          (rejections (Calc.parse text) r').length = r'.count .broken ∧
          l'.hub =
            (rejections (Calc.parse text) r' ++ [Report.ofOrder r'.order]).foldl Hub.publish hub ∧
          ((∀ item ∈ Calc.parse text, item.isDecl = true) →
            l'.hub = hub.publish (.ofOrder r.order)) := by
  have few_now : s.memo.issued < UInt64.size := by omega
  have h := atWork_of_work work few_now
  have few_first : s.memo.issued + (Calc.parse text).length < UInt64.size := by omega
  obtain ⟨l, r, taken⟩ :=
    Live.addAll_ok (l := ⟨s.toDesk.turn, s.hub⟩) h.running h.agrees.turn few_first
  obtain ⟨reports, entered, hub⟩ := Live.addAll_entering taken
  have reads := entered.reads_items
  have issued : l.memo.issued ≤ s.memo.issued + (Calc.parse text).length := entered.issued_le
  have heard : l.hub.running = true := by
    rw [hub, Hub.publishAll_running]
    exact h.running
  refine ⟨_, r, Live.edit_ok (l := ⟨s.toDesk, s.hub⟩) taken heard, heard, ?_⟩
  intro cells hub heard
  obtain ⟨l', taken', entries, same, told⟩ := Live.addAll_again entered
    (l := ⟨({ l.toDesk with cells := cells } : Desk).turn, hub⟩) heard rfl (List.prefix_refl _)
  have heard' : l'.hub.running = true := by
    rw [told, Hub.publishAll_running]
    exact heard
  have edited := Live.edit_ok (l := ⟨{ l.toDesk with cells := cells }, hub⟩) taken' heard'
  have repeated : Repeated (Calc.parse text) l.memo.issued r (r.again l.memo.issued) :=
    reads.repeated (by omega)
  refine ⟨_, _, edited, repeated, entries, same, ?_, ?_, ?_⟩
  · exact (reads.again _).counts.2
  · rw [List.foldl_append, ← told]
    rfl
  · intro read
    have all : (Calc.parse text).countP Calc.Section.isDecl = (Calc.parse text).length :=
      List.countP_eq_length.2 read
    have none_broken : r.count .broken = 0 := by
      have total := reads.counts.1
      omega
    have silent : rejections (Calc.parse text) (r.again l.memo.issued) = [] := by
      apply List.eq_nil_of_length_eq_zero
      rw [(reads.again _).counts.2, repeated.broken, none_broken]
    have quiet : l'.hub = hub := by
      rw [told]
      exact congrArg (List.foldl Hub.publish hub) silent
    show l'.hub.publish (.ofOrder (r.again l.memo.issued).order) = _
    rw [quiet, Revision.again_order none_broken]

theorem edit_again_when_broken : ∃ (s : Workshop) (l : Live) (r : Revision) (l' : Live)
    (r' : Revision),
    (start 4 ["a = 1"]).work (.calc ∅) [.turn, .add, .finish ⟨0⟩, .close, .receive] = some s ∧
    s.memo.issued = 1 ∧
    (Live.mk s.toDesk s.hub).edit "a = (\na = 1\nb = a" = (l, .ok r) ∧
    l.edit "a = (\na = 1\nb = a" = (l', .ok r') ∧
    Repeated (Calc.parse "a = (\na = 1\nb = a") l.memo.issued r r' := by
  have ends : ((start 4 ["a = 1"]).work (.calc ∅)
      [.turn, .add, .finish ⟨0⟩, .close, .receive]).isSome = true := by cbv
  have issued : (Option.get _ ends).memo.issued = 1 := by cbv
  have few : (Option.get _ ends).memo.issued +
      2 * (Calc.parse "a = (\na = 1\nb = a").length < UInt64.size := by
    have items : (Calc.parse "a = (\na = 1\nb = a").length = 3 := by cbv
    rw [issued, items]
    decide
  have work := (Option.some_get ends).symm
  obtain ⟨l, r, edited, heard, again⟩ := edit_again (.calc ∅) 4 _ _ _ work _ few
  obtain ⟨l', r', edited', repeated, _⟩ := again l.cells l.hub heard
  exact ⟨_, l, r, l', r', work, issued, edited, edited', repeated⟩

end Workshop

end Worksheet
