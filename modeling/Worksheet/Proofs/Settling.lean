import Worksheet.OneShot
import Worksheet.Proofs.Blocks
import Worksheet.Proofs.Keys
import Worksheet.Proofs.Merging
import Worksheet.Proofs.Reading
import Worksheet.Proofs.Repetition
/-! Settled reports. Behind the order of a text there come only reports that evaluations have ended,
one for each cell that waits, and the state is settled by the last of them and not before. -/
namespace Worksheet

open Calc (Section)
open Report (entriesOf orders told put)

namespace Report

variable {state r : Report} {rs early late : List Report} {k : Key} {waiting : List Key}

/-- The keys of the evaluations that are reported to have ended. -/
def finishedKeys (rs : List Report) : List Key := rs.filterMap finishedKey?

theorem finishedKeys_append (rs ss : List Report) :
    finishedKeys (rs ++ ss) = finishedKeys rs ++ finishedKeys ss := List.filterMap_append

theorem finishedKey?_eq (h : r.finishedKey? = some k) :
    ∃ status output, r = .finished k status output := by
  obtain ⟨order, entries, sorted⟩ := r
  simp only [finishedKey?] at h
  split at h
  · rename_i j status output
    cases h
    exact ⟨status, output, rfl⟩
  · cases h

theorem finishedKey?_isSome (only : told rs = []) (member : r ∈ rs) :
    ∃ k, r.finishedKey? = some k := by
  have kept := List.filter_eq_nil_iff.1 only r member
  exact Option.isSome_iff_exists.1 (by simpa [Option.isSome_iff_ne_none] using kept)

theorem length_finishedKeys (only : told rs = []) : (finishedKeys rs).length = rs.length := by
  have all : ∀ r ∈ rs, (finishedKey? r).isSome := by
    intro r member
    obtain ⟨k, key⟩ := finishedKey?_isSome only member
    rw [key]
    rfl
  rw [finishedKeys, List.length_filterMap_eq_countP, List.countP_eq_length]
  exact all

theorem entriesOf_finished (only : told rs = []) (other : k ∉ finishedKeys rs) :
    entriesOf k rs = [] := by
  refine List.filterMap_eq_nil_iff.2 fun r member => ?_
  obtain ⟨j, key⟩ := finishedKey?_isSome only member
  obtain ⟨status, output, rfl⟩ := finishedKey?_eq key
  have differ : k ≠ j := fun same => other (same ▸ List.mem_filterMap.2 ⟨_, member, key⟩)
  simp [finished, ofEntry, SortedMap.get?_insert_empty, differ]

/-- A state with an order, the reports behind it and the keys that are to follow: each evaluation is
reported once, and its key stands in the order without a status. -/
structure Awaits (state : Report) (rs : List Report) (waiting : List Key) : Prop where
  only : told rs = []
  once : (finishedKeys rs ++ waiting).Nodup
  unknown : ∀ k ∈ finishedKeys rs ++ waiting, state.status? k = none
  listed : ∀ k ∈ finishedKeys rs ++ waiting, k ∈ state.order.getD []

namespace Awaits

/-- A state that is settled awaits nothing. -/
theorem complete (h : Awaits state (early ++ late) waiting)
    (settled : (state.mergeAll early).settled = true) : late = [] ∧ waiting = [] := by
  have only := h.only
  rw [told_append, List.append_eq_nil_iff] at only
  obtain ⟨only_early, only_late⟩ := only
  have once := h.once
  rw [finishedKeys_append, List.append_assoc] at once
  have order : (state.mergeAll early).order = state.order := by
    rw [order_mergeAll, ← orders_told, only_early]
    rfl
  -- A key that is still to come has no status yet, although it stands in the order.
  have none_left : ∀ k, k ∉ finishedKeys late ++ waiting := by
    intro k member
    have here : k ∈ finishedKeys (early ++ late) ++ waiting := by
      rw [finishedKeys_append, List.append_assoc]
      exact List.mem_append_right _ member
    have apart : k ∉ finishedKeys early := fun told =>
      (List.nodup_append.1 once).2.2 k told k member rfl
    have listed := h.listed k here
    rw [← order] at listed
    have status : ((state.mergeAll early).status? k).isSome := by
      obtain ⟨keys, ordered, known⟩ := settled_iff.1 settled
      rw [ordered] at listed
      exact known k listed
    rw [status?_mergeAll, h.unknown k here, entriesOf_finished only_early apart] at status
    simp at status
  have nothing := List.eq_nil_iff_forall_not_mem.2 none_left
  obtain ⟨late_keys, none_waits⟩ := List.append_eq_nil_iff.1 nothing
  refine ⟨List.eq_nil_of_length_eq_zero ?_, none_waits⟩
  rw [← length_finishedKeys only_late, late_keys]
  rfl

theorem finish (h : Awaits state rs waiting) (waits : k ∈ waiting) (status : Status)
    (output : String) :
    Awaits state (rs ++ [.finished k status output]) (waiting.filter (· ≠ k)) := by
  have keys : finishedKeys (rs ++ [.finished k status output]) = finishedKeys rs ++ [k] :=
    finishedKeys_append rs _
  have same : ∀ j ∈ finishedKeys (rs ++ [.finished k status output]) ++ waiting.filter (· ≠ k),
      j ∈ finishedKeys rs ++ waiting := by
    intro j member
    rw [keys, List.append_assoc] at member
    rcases List.mem_append.1 member with told | member
    · exact List.mem_append_left _ told
    · refine List.mem_append_right _ ?_
      rcases List.mem_cons.1 member with rfl | left
      · exact waits
      · exact (List.mem_filter.1 left).1
  constructor
  · rw [told_append, h.only]
    rfl
  · obtain ⟨once_told, once_waiting, apart⟩ := List.nodup_append.1 h.once
    rw [keys, List.append_assoc]
    refine List.nodup_append.2 ⟨once_told, List.nodup_cons.2 ⟨by simp, once_waiting.filter _⟩, ?_⟩
    intro i told j member
    rcases List.mem_cons.1 member with rfl | left
    · exact apart i told j waits
    · exact apart i told j (List.mem_filter.1 left).1
  · exact fun j member => h.unknown j (same j member)
  · exact fun j member => h.listed j (same j member)

/-- Evaluating all cells that wait leaves nothing to come. -/
theorem finishAll {ev : Evaluator} {cs : Cells} (ordered : cs.Ordered) (sound : cs.Sound ev)
    {keys : List Key} (wait : cs.waiting = keys) (h : Awaits state rs keys) :
    Awaits state (rs ++ (cs.finishAll ev keys).1) [] := by
  induction keys generalizing cs rs with
  | nil =>
    rw [Cells.finishAll, List.append_nil]
    exact h
  | cons k more ih =>
    obtain ⟨c, hc, rfl, waits, calm⟩ := Cells.first_calm ordered wait
    obtain ⟨r, later, step⟩ := Cells.finish_of_calm ev ordered hc waits calm
    obtain ⟨d, hd, key, _, _, rfl, _, _⟩ := Cells.finished ordered step
    cases ordered.eq_of_key hd hc key
    have one := Cells.advance ordered sound step
    have next := h.finish (List.mem_cons_self ..) (cs.outcome ev c).status (cs.outcome ev c).output
    have rest : (c.key :: more).filter (· ≠ c.key) = later.waiting := by
      rw [one.waiting, wait]
    have tail : later.waiting = more := by
      have fresh := (List.nodup_cons.1 (List.nodup_append.1 h.once).2.1).1
      rw [← rest, List.filter_cons_of_neg (by simp)]
      exact List.filter_eq_self.2 fun j hj => decide_eq_true fun same => fresh (same ▸ hj)
    rw [rest, tail] at next
    simp only [Cells.finishAll, step]
    rw [List.append_cons]
    exact ih one.ordered one.sound tail next

end Awaits

end Report

namespace Cells

variable {ev : Evaluator} {cs : Cells}

theorem sound_of_waiting (ev : Evaluator) (wait : ∀ c ∈ cs.all, c.isWaiting = true) :
    cs.Sound ev where
  serves := by
    intro c hc still
    rw [wait c hc] at still
    cases still
  parents := by
    intro c hc still
    rw [wait c hc] at still
    cases still

theorem waiting_of_all (wait : ∀ c ∈ cs.all, c.isWaiting = true) : cs.waiting = cs.keys :=
  congrArg (List.map Cell.key) (List.filter_eq_self.2 wait)

theorem endings_of_waiting (wait : ∀ c ∈ cs.all, c.isWaiting = true) (k : Key) :
    cs.endings ev k = [] := by
  simp only [endings]
  cases found : cs.find? k with
  | none => rfl
  | some c => simp [wait c (find?_mem found).1]

theorem length_waiting_le (cs : Cells) : cs.waiting.length ≤ cs.size := by
  rw [waiting, List.length_map]
  exact List.length_filter_le _ _

theorem length_finishAll_le (ev : Evaluator) (cs : Cells) (keys : List Key) :
    (cs.finishAll ev keys).1.length ≤ keys.length := by
  induction keys generalizing cs with
  | nil => exact Nat.le_refl 0
  | cons k more ih =>
    simp only [finishAll]
    split
    · exact Nat.le_succ_of_le (ih cs)
    · exact Nat.succ_le_succ (ih _)

end Cells

namespace Desk

variable {running : Bool} {d d' last : Desk} {item : Section} {items : List Section} {e : Entered}
  {r : Revision} {reports : List Report}

theorem Added.size_le {outcome : Except Failure Entered}
    (add : Added d running item (d', outcome)) : d'.cells.size ≤ d.cells.size + 1 := by
  cases add with
  | started => simp [Cells.size, Cells.start]
  | _ => exact Nat.le_succ _

theorem Entering.size_le (h : Entering running d items r reports last) :
    last.cells.size ≤ d.cells.size + items.length := by
  induction h with
  | nil => exact Nat.le_refl _
  | cons added more ih =>
    have next := added.size_le
    rw [List.length_cons]
    omega

/-- No cell evaluates while items are taken in. -/
theorem Entering.waits (h : Entering running d items r reports last)
    (start : ∀ c ∈ d.cells.all, c.isWaiting = true) : ∀ c ∈ last.cells.all, c.isWaiting = true := by
  induction h with
  | nil => exact start
  | @cons d d' last item items e r reports added more ih =>
    refine ih fun c hc => ?_
    cases added with
    | broken => exact start c hc
    | reused => exact start c hc
    | started =>
      rcases List.mem_append.1 hc with hc | hc
      · exact start c hc
      · cases List.mem_singleton.1 hc
        rfl

/-- What holds of each item that is reported as broken, and of each whose instance is on record in the
end, holds item by item. -/
theorem Entering.each {P : Section → Placed → Prop} (h : Entering running d items r reports last)
    (broken : ∀ source err k, .rejected k source (Calc.ParseError.message err) ∈ reports →
      P (.broken source err) ⟨k, .broken⟩)
    (known : ∀ decl p recipe, .decl decl ∈ items → recipe.source = decl.source →
      (recipe, p.key) ∈ last.memo.entries → P (.decl decl) p) : List.Forall₂ P items r := by
  induction h with
  | nil => exact .nil
  | @cons d d' last item items e r reports added more ih =>
    refine .cons ?_ (ih (fun source err k told => broken source err k (List.mem_append_right _ told))
      fun decl p recipe member => known decl p recipe (List.mem_cons_of_mem _ member))
    cases item with
    | broken source err =>
      obtain ⟨_, rfl⟩ := added.of_broken
      exact broken source err _ (List.mem_append_left _ (List.mem_singleton.2 rfl))
    | decl decl =>
      have held := more.extends.entries.subset added.of_decl.1
      exact known decl _ _ (List.mem_cons_self ..) rfl held

end Desk

namespace Hub

/-- An observer whose queue has room for all that is published. -/
theorem publishAll_observer {h : Hub} {queue rs : List Report}
    (observer : h.observers = [⟨queue, true⟩]) (fits : queue.length + rs.length ≤ h.room) :
    rs.foldl publish h =
      { h with state := h.state.mergeAll rs, observers := [⟨queue ++ rs, true⟩] } := by
  induction rs generalizing h queue with
  | nil => simp [← observer, Report.mergeAll]
  | cons r rs ih =>
    rw [List.length_cons] at fits
    have offered : h.publish r =
        { h with state := h.state.merge r, observers := [⟨queue ++ [r], true⟩] } := by
      have room : queue.length < h.room := by omega
      simp only [publish, observer, List.map_cons, List.map_nil, Observer.offer, if_true, room]
    have fits' : (queue ++ [r]).length + rs.length ≤ (h.publish r).room := by
      rw [List.length_append, List.length_singleton, offered]
      exact Nat.le_trans (by omega) fits
    rw [List.foldl_cons, ih (by rw [offered]) fits', offered, List.append_assoc]
    rfl

end Hub

/-- What a worksheet tells about an item that it has taken in: a declaration has its source and what
its cell has come to, and one that is broken has its source and what is wrong with it. -/
def Live.Tells (ev : Evaluator) (l : Live) : Section → Placed → Prop
  | .broken source e, p => l.hub.state.entries.get? p.key =
      some { source := some source, status := some (.failed e.message) }
  | .decl decl, p => ∃ c ∈ l.cells.all, c.key = p.key ∧ c.decl = decl ∧
      l.hub.state.entries.get? p.key = some
        { source := some decl.source
          status := some (l.cells.outcome ev c).status
          output := (l.cells.outcome ev c).output }

namespace OneShot

variable {ev : Evaluator} {text : String} {l : Live} {r : Revision} {reports : List Report}

/-- A text that a new worksheet has taken in, while nothing has evaluated. -/
structure Prepared (text : String) (l : Live) (r : Revision) (reports : List Report) : Prop where
  edited : (Live.start (capacity text)).edit text = (l, .ok r)
  entered : Desk.Entering true .empty (Calc.parse text) r reports l.toDesk
  hub : l.hub = .behind (capacity text) (reports ++ [.ofOrder r.order])

theorem items_few (fits : capacity text < UInt64.size) :
    (Calc.parse text).length < UInt64.size := by
  have lines := Calc.length_parse text
  simp only [capacity] at fits
  omega

theorem exists_prepared (fits : capacity text < UInt64.size) :
    ∃ l r reports, Prepared text l r reports := by
  have few : (Live.start (capacity text)).memo.issued + (Calc.parse text).length < UInt64.size := by
    rw [show (Live.start (capacity text)).memo.issued = 0 from rfl, Nat.zero_add]
    exact items_few fits
  obtain ⟨l, r, taken⟩ := Live.addAll_ok (l := Live.start (capacity text)) rfl Desk.empty_agrees few
  obtain ⟨reports, entered, hub⟩ := Live.addAll_entering taken
  have before : l.hub = .behind (capacity text) reports :=
    hub.trans (Hub.publishAll_behind (capacity text) [] reports)
  have heard : l.hub.running = true := by
    rw [before]
    rfl
  refine ⟨_, r, reports, Live.edit_ok taken heard, entered, ?_⟩
  rw [before, Hub.publish_behind]

namespace Prepared

theorem prepare (h : Prepared text l r reports) :
    OneShot.prepare text = .ok { l with hub := l.hub.subscribe } := by
  rw [OneShot.prepare, h.edited]
  rfl

theorem few (h : Prepared text l r reports) (fits : capacity text < UInt64.size) :
    l.memo.issued < UInt64.size := by
  have issued := h.entered.issued_le
  have items := items_few fits
  rw [show Desk.empty.memo.issued = 0 from rfl, Nat.zero_add] at issued
  omega

theorem agrees (h : Prepared text l r reports) (fits : capacity text < UInt64.size) :
    l.toDesk.Agrees := h.entered.agrees (h.few fits) Desk.empty_agrees

theorem waits (h : Prepared text l r reports) : ∀ c ∈ l.cells.all, c.isWaiting = true :=
  h.entered.waits fun _ member => absurd member List.not_mem_nil

theorem keys (h : Prepared text l r reports) (fits : capacity text < UInt64.size) :
    l.cells.keys = r.startedKeys := by
  rw [← Desk.recordedKeys_eq (h.agrees fits), h.entered.recordedKeys]
  rfl

theorem announced (h : Prepared text l r reports) (fits : capacity text < UInt64.size) {c : Cell}
    (hc : c ∈ l.cells.all) : entriesOf c.key reports = [{ source := some c.decl.source }] := by
  have ledger := h.entered.ledger (h.few fits) Desk.empty_ledger
  rw [List.nil_append] at ledger
  exact (ledger.once _ _ (ledger.rows c.row (List.mem_map_of_mem hc))).2

theorem order (h : Prepared text l r reports) : l.hub.state.order = some r.order := by
  rw [h.hub, Hub.behind, Report.order_mergeAll, Report.orders_append,
    show orders [Report.ofOrder r.order] = [r.order] from rfl, List.getLast?_concat]
  rfl

theorem awaits (h : Prepared text l r reports) (fits : capacity text < UInt64.size) :
    Report.Awaits l.hub.state [] l.cells.waiting where
  only := rfl
  once := (h.agrees fits).ordered.waiting.imp StrictOrder.ne_of_lt
  unknown := by
    intro k waits
    rw [Cells.waiting_of_all h.waits] at waits
    obtain ⟨c, hc, rfl⟩ := List.mem_map.1 waits
    have silent : ¬ (l.hub.state.status? c.key).isSome := by
      rw [h.hub, Hub.behind, Report.status?_mergeAll, Report.entriesOf_append, h.announced fits hc]
      simp [Report.status?, Report.empty]
    simpa using silent
  listed := by
    intro k waits
    rw [Cells.waiting_of_all h.waits] at waits
    have started : k ∈ r.startedKeys := h.keys fits ▸ waits
    obtain ⟨p, hp, _, rfl⟩ := Revision.mem_startedKeys.1 started
    rw [h.order]
    exact List.mem_map_of_mem hp

/-- The reports of the evaluations, and the cells behind them. -/
theorem settles (ev : Evaluator) (h : Prepared text l r reports) (fits : capacity text < UInt64.size) :
    Report.Awaits l.hub.state (l.cells.settle ev).1 [] ∧ Cells.Settled ev l.cells (l.cells.settle ev) :=
  have ordered := (h.agrees fits).ordered
  have sound := Cells.sound_of_waiting ev h.waits
  ⟨(h.awaits fits).finishAll ordered sound rfl, Cells.finishAll_settled ordered sound rfl⟩

theorem state (ev : Evaluator) (h : Prepared text l r reports) :
    (l.settle ev).hub.state = l.hub.state.mergeAll (l.cells.settle ev).1 := by
  rw [Workshop.settle_behind l _ h.hub, h.hub, Hub.behind, Hub.behind, Report.mergeAll_append]

theorem rows (ev : Evaluator) (h : Prepared text l r reports) (fits : capacity text < UInt64.size) :
    (l.settle ev).cells.rows = l.cells.rows := by
  rw [← Cells.rows_idle, ← Cells.rows_idle l.cells]
  exact congrArg Cells.rows (h.settles ev fits).2.idle

theorem evaluated (ev : Evaluator) (h : Prepared text l r reports)
    (fits : capacity text < UInt64.size) : (l.settle ev).cells.Evaluated ev := by
  have settled := (h.settles ev fits).2
  exact ⟨(h.agrees fits).ordered.of_rows (h.rows ev fits), settled.sound,
    Cells.not_waiting_of_nil settled.waiting⟩

theorem ended (ev : Evaluator) (h : Prepared text l r reports) (fits : capacity text < UInt64.size)
    {c : Cell} (hc : c ∈ (l.settle ev).cells.all) :
    entriesOf c.key (l.cells.settle ev).1 = [Cells.ending ((l.settle ev).cells.outcome ev c)] := by
  have told := (h.settles ev fits).2.endings c.key
  rw [Cells.endings_of_waiting h.waits, List.nil_append] at told
  rw [← told]
  exact (h.evaluated ev fits).endings hc

/-- A cell that was started is still there when all cells have evaluated. -/
theorem cell (ev : Evaluator) (h : Prepared text l r reports) (fits : capacity text < UInt64.size)
    {b : Cell} (hb : b ∈ l.cells.all) :
    ∃ c ∈ (l.settle ev).cells.all, c.key = b.key ∧ c.decl = b.decl := by
  have known : b.key ∈ (l.settle ev).cells.keys :=
    Cells.keys_of_rows (h.rows ev fits) ▸ Cells.mem_keys hb
  obtain ⟨c, hc, key⟩ := List.mem_map.1 known
  have same := (h.settles ev fits).2.idle.symm
  exact ⟨c, hc, key, (Cells.decl_of_idle (h.evaluated ev fits).ordered same hb hc key.symm).1⟩

theorem order_settled (ev : Evaluator) (h : Prepared text l r reports)
    (fits : capacity text < UInt64.size) : (l.settle ev).hub.state.order = some r.order := by
  rw [h.state ev, Report.order_mergeAll, ← Report.orders_told, (h.settles ev fits).1.only, h.order]
  rfl

/-- What is known about each declaration in the end is its source and what it has come to. -/
theorem whole (ev : Evaluator) (h : Prepared text l r reports) (fits : capacity text < UInt64.size)
    {c : Cell} (hc : c ∈ (l.settle ev).cells.all) :
    (l.settle ev).hub.state.entries.get? c.key = some
      { source := some c.decl.source
        status := some ((l.settle ev).cells.outcome ev c).status
        output := ((l.settle ev).cells.outcome ev c).output } := by
  have row : c.row ∈ l.cells.rows := h.rows ev fits ▸ List.mem_map_of_mem hc
  obtain ⟨b, hb, same⟩ := List.mem_map.1 row
  obtain ⟨key, source, _⟩ := Row.mk.inj same
  have announced := h.announced fits hb
  rw [key, source] at announced
  rw [h.state ev, Report.get?_mergeAll, h.ended ev fits hc, h.hub, Hub.behind, Report.get?_mergeAll,
    Report.entriesOf_append, Report.entriesOf_ofOrder, List.append_nil, announced]
  simp [put, Report.empty, Entry.merge, Cells.ending]

/-- Each item of the text is told about in the end, once and in full. -/
theorem tells (ev : Evaluator) (h : Prepared text l r reports) (fits : capacity text < UInt64.size) :
    List.Forall₂ ((l.settle ev).Tells ev) (Calc.parse text) r := by
  have ledger := h.entered.ledger (h.few fits) Desk.empty_ledger
  rw [List.nil_append] at ledger
  have edited : Desk.Editing true .empty [text] [r] (reports ++ [.ofOrder r.order]) l.toDesk :=
    .cons h.entered (.nil _)
  refine h.entered.each ?_ ?_
  · intro source err k told
    have alone := (ledger.once k _ told).2
    have no_cell : k ∉ (l.settle ev).cells.keys := by
      intro known
      obtain ⟨c, hc, rfl⟩ := List.mem_map.1 known
      have row : c.row ∈ l.cells.rows := h.rows ev fits ▸ List.mem_map_of_mem hc
      have announced := (ledger.once _ _ (ledger.rows _ row)).2
      cases announced.symm.trans alone
    have silent : entriesOf k (l.cells.settle ev).1 = [] := by
      have told := (h.settles ev fits).2.endings k
      rw [Cells.endings_of_waiting h.waits, List.nil_append] at told
      rw [← told]
      exact Cells.endings_new no_cell
    show (l.settle ev).hub.state.entries.get? k = _
    rw [h.state ev, Report.get?_mergeAll, silent, h.hub, Hub.behind, Report.get?_mergeAll,
      Report.entriesOf_append, Report.entriesOf_ofOrder, List.append_nil, alone]
    rfl
  · intro decl p recipe member same held
    obtain ⟨b, hb, key, source, _⟩ := (h.agrees fits).cell_of_recorded held
    obtain ⟨c, hc, key', decl'⟩ := h.cell ev fits hb
    -- Both the cell and the item were read from their own source, and it is the same.
    have here : b.decl = decl := by
      have read := edited.read (h.few fits) b hb
      obtain ⟨text, _, item⟩ := List.mem_map.1 member
      have own := Calc.Section.source_ofSource (String.ofList text)
      rw [item, show (Section.decl decl).source = decl.source from rfl] at own
      rw [source, same, own, item] at read
      cases read
      rfl
    refine ⟨c, hc, key'.trans key, decl'.trans here, ?_⟩
    rw [← key, ← key', h.whole ev fits hc, decl', here]

theorem settled (ev : Evaluator) (h : Prepared text l r reports)
    (fits : capacity text < UInt64.size) : (l.settle ev).hub.state.settled = true := by
  refine Report.settled_iff.2 ⟨_, h.order_settled ev fits, fun k member => ?_⟩
  obtain ⟨p, hp, rfl⟩ := List.mem_map.1 member
  obtain ⟨i, at_i⟩ := List.mem_iff_getElem?.1 hp
  obtain ⟨item, _, tells⟩ := forall₂_at (h.tells ev fits) at_i
  cases item with
  | broken source e =>
    rw [Report.status?, show _ = _ from tells]
    rfl
  | decl decl =>
    obtain ⟨c, _, _, _, entry⟩ := tells
    rw [Report.status?, entry]
    rfl

/-- The observer of the worksheet has room for all that comes. -/
theorem observed (ev : Evaluator) (h : Prepared text l r reports) :
    (({ l with hub := l.hub.subscribe } : Live).settle ev).hub =
      ⟨true, capacity text, (l.settle ev).hub.state,
        [⟨l.hub.state :: (l.cells.settle ev).1, true⟩]⟩ := by
  have alone : l.hub.subscribe = ⟨true, capacity text, l.hub.state, [⟨[l.hub.state], true⟩]⟩ := by
    rw [h.hub]
    rfl
  have items := Calc.length_parse text
  have size : l.cells.size ≤ 0 + (Calc.parse text).length := h.entered.size_le
  have waiting := l.cells.length_waiting_le
  have reports := Cells.length_finishAll_le ev l.cells l.cells.waiting
  have fits : [l.hub.state].length + (l.cells.settle ev).1.length ≤
      Hub.room ⟨true, capacity text, l.hub.state, [⟨[l.hub.state], true⟩]⟩ := by
    show 1 + (l.cells.finishAll ev l.cells.waiting).1.length ≤ max (capacity text) 1
    rw [capacity]
    omega
  simp only [Live.settle, alone]
  rw [Hub.deliver_eq rfl, Hub.publishAll_observer rfl fits, ← h.state ev]
  rfl

end Prepared

/-- Reports are collected up to the last, as only that one settles the state. -/
theorem collect_awaited {held state report : Report} {early late : List Report}
    (h : Report.Awaits state (early ++ late) []) (next : held.merge report = state.mergeAll early)
    (settled : (state.mergeAll (early ++ late)).settled = true) :
    collect held (report :: late) = some (state.mergeAll (early ++ late)) := by
  induction late generalizing held report early with
  | nil =>
    rw [List.append_nil] at settled ⊢
    simp only [collect, next, settled, if_true]
  | cons first late ih =>
    have open_ : (state.mergeAll early).settled ≠ true := fun done =>
      List.cons_ne_nil _ _ (h.complete done).1
    rw [List.append_cons] at h settled ⊢
    rw [collect, next, if_neg open_]
    exact ih h (Report.mergeAll_append state early [first]).symm settled

/-- A text is evaluated to the state behind all its evaluations, unless they take too long. -/
theorem Prepared.evaluate (h : Prepared text l r reports) (fits : capacity text < UInt64.size)
    (limit : Nat) : OneShot.evaluate text limit =
      if ((l.settle (.calc ∅)).cells.endTime? ∅).any (limit ≤ ·) then .error (.timeout limit)
      else .ok (l.settle (.calc ∅)).hub.state := by
  have awaits := (h.settles (.calc ∅) fits).1
  have settled := h.settled (.calc ∅) fits
  rw [h.state] at settled
  have first : Report.empty.merge l.hub.state = l.hub.state.mergeAll [] := Report.empty_merge _
  have collected := collect_awaited awaits first settled
  have pending : (({ l with hub := l.hub.subscribe } : Live).settle (.calc ∅)).hub.pending 0 =
      (l.hub.state :: (l.cells.settle (.calc ∅)).1, true) := by
    rw [h.observed]
    rfl
  rw [OneShot.evaluate, h.prepare]
  simp only [bind, Except.bind, pending, h.state]
  split
  · rename_i late
    exact (if_pos late).symm
  · rename_i soon
    rw [collected]
    exact (if_neg soon).symm

end OneShot

end Worksheet
