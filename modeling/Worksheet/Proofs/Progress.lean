import Worksheet.Proofs.Settling
/-! What is left to do at a worksheet. Every move brings its texts closer to their end, and behind the
edit of the last text only the reports on cells that have not evaluated are still to come. -/
namespace Worksheet

open OneShot (Prepared)

/-- What a move is worth. A report that is taken in has yet to be received. -/
def Move.weight : Move → Nat
  | receive => 2
  | _ => 1

namespace Workshop

variable {ev : Evaluator} {text : String} {n : Nat} {s t : Workshop} {m : Move} {l : Live}
  {r : Revision} {reports : List Report}

/-- The worksheet without those who observe it. -/
def unobserved (s : Workshop) : Workshop := { s with hub := { s.hub with observers := [] } }

theorem Stepped.unobserved (step : Stepped ev s m t) : Stepped ev s.unobserved m t.unobserved := by
  cases step with
  | turn text more idle next => exact .turn text more idle next
  | add placed item rest d e call added => exact .add placed item rest d e call added
  | fail placed item rest d f call added => exact .fail placed item rest d f call added
  | close placed call heard => exact .close placed call heard
  | lose placed call deaf => exact .lose placed call deaf
  | finish key report cells heard finished => exact .finish key report cells heard finished
  | waste key report cells deaf finished => exact .waste key report cells deaf finished
  | receive report next heard => exact .receive report next heard

/-- Whether a move is possible does not depend on observers. -/
theorem step_unobserved (able : (s.unobserved.step ev m).isSome) : (s.step ev m).isSome := by
  obtain ⟨t, step⟩ := Option.isSome_iff_exists.1 able
  cases stepped step with
  | turn text more idle next =>
    have here : s.call = none ∧ s.texts = text :: more := ⟨idle, next⟩
    simp [Workshop.step, here]
  | add placed item rest d e call added =>
    have here : s.call = some (placed, item :: rest) ∧
      s.toDesk.add s.hub.running item = (d, .ok e) := ⟨call, added⟩
    simp [Workshop.step, here]
  | fail placed item rest d f call added =>
    have here : s.call = some (placed, item :: rest) ∧
      s.toDesk.add s.hub.running item = (d, .error f) := ⟨call, added⟩
    simp [Workshop.step, here]
  | close placed call heard =>
    have here : s.call = some (placed, []) ∧ s.hub.running = true := ⟨call, heard⟩
    simp [Workshop.step, here]
  | lose placed call deaf =>
    have here : s.call = some (placed, []) ∧ s.hub.running = false := ⟨call, deaf⟩
    simp [Workshop.step, here]
  | finish key report cells heard finished =>
    have here : s.cells.finish ev key = some (report, cells) := finished
    simp [Workshop.step, here]
  | waste key report cells deaf finished =>
    have here : s.cells.finish ev key = some (report, cells) := finished
    simp [Workshop.step, here]
  | receive report next heard =>
    have here : s.sent[s.taken]? = some report ∧ s.hub.running = true := ⟨next, heard⟩
    simp [Workshop.step, here]

/-- Only the hub's own move changes the hub, and what was sent stays sent. -/
theorem Stepped.kept (step : Stepped ev s m t) :
    (t.hub = s.hub ∧ t.taken = s.taken ∧ ∃ more, t.sent = s.sent ++ more) ∨
    (m = .receive ∧ ∃ report, s.sent[s.taken]? = some report ∧
      t = { s with hub := s.hub.publish report, taken := s.taken + 1 }) := by
  cases step with
  | receive report next heard => exact Or.inr ⟨rfl, report, next, rfl⟩
  | add placed item rest d e => exact Or.inl ⟨rfl, rfl, e.report.toList, rfl⟩
  | close placed => exact Or.inl ⟨rfl, rfl, [.ofOrder placed.order], rfl⟩
  | finish key report => exact Or.inl ⟨rfl, rfl, [report], rfl⟩
  | _ => exact Or.inl ⟨rfl, rfl, [], (List.append_nil _).symm⟩

/-- The items that are still to be placed. -/
def itemsLeft (s : Workshop) : Nat :=
  (s.texts.map fun text => (Calc.parse text).length).sum + s.call.elim 0 (·.2.length)

theorem Stepped.itemsLeft (step : Stepped ev s m t) :
    t.memo.issued + t.itemsLeft ≤ s.memo.issued + s.itemsLeft := by
  cases step with
  | turn text more idle next =>
    simp [Workshop.itemsLeft, idle, next, Desk.turn]
    omega
  | add placed item rest d e call added =>
    have issued := (Desk.Added.of_add added).issued
    simp [Workshop.itemsLeft, call, enter, send]
    omega
  | fail placed item rest d f call added =>
    have issued := (Desk.Added.of_add added).issued
    simp [Workshop.itemsLeft, call, endCall]
    omega
  | close placed call => simp [Workshop.itemsLeft, call, endCall, send]
  | lose placed call => simp [Workshop.itemsLeft, call, endCall]
  | _ => exact Nat.le_refl _

/-- What the moves that are still possible are worth in all. A cell that waits is worth three, since
its report is to be sent, taken in and received. -/
def effort (s : Workshop) : Nat :=
  (s.texts.map fun text => 4 + 6 * (Calc.parse text).length).sum +
    s.call.elim 0 (fun c => 3 + 6 * c.2.length) + 3 * s.cells.waiting.length +
    2 * (s.sent.length - s.taken)

@[simp] theorem effort_withHub (s : Workshop) (hub : Hub) :
    ({ s with hub := hub } : Workshop).effort = s.effort := rfl

end Workshop

namespace Desk

variable {running : Bool} {d d' : Desk} {item : Calc.Section} {e : Entered}

/-- An item leaves at most one report and one cell that waits. -/
theorem Added.work (add : Added d running item (d', .ok e)) :
    3 * d'.cells.waiting.length + 2 * e.report.toList.length ≤ 3 * d.cells.waiting.length + 5 := by
  cases add with
  | started decl =>
    have one : ∀ c : Cell, c.isWaiting = true → [c].filter Cell.isWaiting = [c] := fun c waits => by
      simp [waits]
    simp only [Cells.waiting, Cells.start, List.filter_append, List.map_append, List.length_append]
    rw [one _ rfl]
    simp
    omega
  | _ => simp

theorem Added.cells_of_error {f : Failure} (add : Added d running item (d', .error f)) :
    d'.cells = d.cells := by
  cases add with
  | lost => rfl
  | orphan => rfl

end Desk

namespace Workshop

variable {ev : Evaluator} {s t : Workshop} {m : Move} {text : String} {n : Nat} {l : Live}
  {r : Revision} {reports : List Report}

theorem Stepped.effort (step : Stepped ev s m t) (taken : s.taken ≤ s.sent.length) :
    t.effort + m.weight ≤ s.effort := by
  cases step with
  | turn text more idle next =>
    simp [Workshop.effort, idle, next, Desk.turn, Move.weight]
    omega
  | add placed item rest d e call added =>
    have work := (Desk.Added.of_add added).work
    simp [Workshop.effort, call, enter, send, Move.weight]
    omega
  | fail placed item rest d f call added =>
    have same := (Desk.Added.of_add added).cells_of_error
    simp [Workshop.effort, call, endCall, Move.weight, same]
  | close placed call =>
    simp [Workshop.effort, call, endCall, send, Move.weight]
    omega
  | lose placed call =>
    simp [Workshop.effort, call, endCall, Move.weight]
  | finish key report cells heard finished =>
    have fewer := (Cells.waiting_finish finished).2.2
    simp [Workshop.effort, send, Move.weight]
    omega
  | waste key report cells deaf finished =>
    have fewer := (Cells.waiting_finish finished).2.2
    simp [Workshop.effort, Move.weight]
    omega
  | receive report next =>
    have more := (List.getElem?_eq_some_iff.1 next).1
    simp [Workshop.effort, Move.weight]
    omega

/-- A worksheet that has taken in all its texts, behind a number of reports: what comes then are the
reports on the cells that have not evaluated by then, and there are fewer of them than items. -/
structure Requested (text : String) (s : Workshop) (n : Nat) : Prop where
  texts : s.texts = []
  call : s.call = none
  sent : n ≤ s.sent.length
  awaits : Report.Awaits (Report.empty.mergeAll (s.sent.take n)) (s.sent.drop n) s.cells.waiting
  few : (s.sent.drop n).length + s.cells.waiting.length ≤ (Calc.parse text).length

theorem Requested.withHub (h : s.Requested text n) (hub : Hub) :
    ({ s with hub := hub } : Workshop).Requested text n := ⟨h.texts, h.call, h.sent, h.awaits, h.few⟩

/-- What the desk has taken in does not depend on the cells and the hub. -/
theorem AtWork.plain_eq (h : s.AtWork ev (OneShot.capacity text) [text])
    (prepared : Prepared text l r reports) (last : s.texts = []) (idle : s.call = none) :
    s.plain (OneShot.capacity text) = l ∧ s.ended = [⟨r, none⟩] := by
  have taken := h.sequential last idle
  have once : (Live.start (OneShot.capacity text)).editEach [text] = (l, .ok [r]) := by
    simp only [Live.editEach, prepared.edited]
    rfl
  rw [once] at taken
  obtain ⟨same, ended⟩ := Prod.mk.inj taken
  refine ⟨same.symm, ?_⟩
  rw [h.ended_eq, ← Except.ok.inj ended]
  rfl

theorem AtWork.requested (h : s.AtWork ev (OneShot.capacity text) [text])
    (prepared : Prepared text l r reports) (fits : OneShot.capacity text < UInt64.size)
    (last : s.texts = []) (idle : s.call = none) : s.Requested text s.sent.length := by
  obtain ⟨rfl, _⟩ := h.plain_eq prepared last idle
  have awaits := prepared.awaits fits
  have started : ∀ k ∈ s.cells.waiting, k ∈ (s.plain (OneShot.capacity text)).cells.waiting := by
    intro k waits
    obtain ⟨c, hc, rfl⟩ := List.mem_map.1 waits
    have twin : { c with phase := .waiting } ∈ s.cells.idle.all :=
      List.mem_map_of_mem (f := fun c : Cell => { c with phase := .waiting }) (List.mem_filter.1 hc).1
    exact Cells.mem_waiting (c := { c with phase := .waiting }) twin rfl
  -- Nothing has been reported on the evaluation of a cell that waits.
  have unknown : ∀ k ∈ s.cells.waiting,
      (Report.empty.mergeAll s.sent).status? k = none := by
    intro k waits
    have silent := awaits.unknown k (started k waits)
    obtain ⟨c, hc, rfl⟩ := List.mem_map.1 waits
    obtain ⟨hc, waits⟩ := List.mem_filter.1 hc
    have none_ended : s.cells.endings ev c.key = [] := by
      simp [Cells.endings, Cells.find?_of_mem h.agrees.ordered.ascending hc, waits]
    rw [Report.status?, Report.get?_mergeAll, h.endings, none_ended, List.append_nil,
      ← Report.get?_mergeAll]
    exact silent
  have order : (Report.empty.mergeAll s.sent).order =
      (s.plain (OneShot.capacity text)).hub.state.order := by
    rw [Report.order_mergeAll, ← Report.orders_told, ← Report.order_mergeAll]
    rfl
  have size : s.cells.size ≤ 0 + (Calc.parse text).length := by
    have size := prepared.entered.size_le
    rwa [Cells.size, show (s.plain (OneShot.capacity text)).cells.all.length = s.cells.size from
      List.length_map _] at size
  have waiting := s.cells.length_waiting_le
  refine ⟨last, idle, Nat.le_refl _, ?_, ?_⟩
  · rw [List.take_length, List.drop_length]
    refine ⟨rfl, h.agrees.ordered.waiting.imp StrictOrder.ne_of_lt, unknown, fun k waits => ?_⟩
    rw [order]
    exact awaits.listed k (started k waits)
  · rw [List.drop_length, List.length_nil]
    omega

theorem Stepped.requested (step : Stepped ev s m t) (ordered : s.cells.Ordered)
    (heard : s.hub.running = true) (h : s.Requested text n) : t.Requested text n := by
  cases step with
  | turn text' more idle next => cases h.texts.symm.trans next
  | add placed item rest d e call added => cases h.call.symm.trans call
  | fail placed item rest d f call added => cases h.call.symm.trans call
  | close placed call => cases h.call.symm.trans call
  | lose placed call => cases h.call.symm.trans call
  | waste key report cells deaf => cases heard.symm.trans deaf
  | receive report next => exact ⟨h.texts, h.call, h.sent, h.awaits, h.few⟩
  | finish key report cells heard finished =>
    obtain ⟨waits, rest, fewer⟩ := Cells.waiting_finish finished
    obtain ⟨c, _, _, _, _, rfl, _, _⟩ := Cells.finished ordered finished
    have few := h.few
    constructor
    · exact h.texts
    · exact h.call
    · exact Nat.le_trans h.sent (List.length_append ▸ Nat.le_add_right _ _)
    · simp only [send, List.take_append_of_le_length h.sent, List.drop_append_of_le_length h.sent,
        rest]
      exact h.awaits.finish waits _ _
    · simp only [send, List.drop_append_of_le_length h.sent, List.length_append,
        List.length_singleton]
      omega

end Workshop

end Worksheet
