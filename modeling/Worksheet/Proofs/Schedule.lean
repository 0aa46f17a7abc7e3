import Worksheet.Proofs.Agreement
import Worksheet.Proofs.Evaluation
/-! Runs in which the hub goes on and no cell is stopped. Cells evaluate whenever they can and the
hub is late by as much as it likes, but the end is always that of the worksheet that first takes in
all texts and then evaluates its cells in ascending order. -/
namespace Worksheet

open Calc (Decl Section)
open Report (entriesOf orders told)

namespace Hub

/-- The hub behind these reports, if nothing observes it. -/
def behind (capacity : Nat) (rs : List Report) : Hub :=
  ⟨true, capacity, Report.empty.mergeAll rs, []⟩

theorem publish_behind (capacity : Nat) (rs : List Report) (r : Report) :
    (behind capacity rs).publish r = behind capacity (rs ++ [r]) := by
  simp only [behind, Report.mergeAll_append]
  rfl

theorem publishAll_behind (capacity : Nat) (rs ss : List Report) :
    ss.foldl publish (behind capacity rs) = behind capacity (rs ++ ss) := by
  induction ss generalizing rs with
  | nil => rw [List.append_nil]; rfl
  | cons r ss ih =>
    rw [List.foldl_cons, publish_behind, ih, List.append_assoc]
    rfl

theorem publishAll_running (h : Hub) (rs : List Report) :
    (rs.foldl publish h).running = h.running := by
  induction rs generalizing h with
  | nil => rfl
  | cons r rs ih => exact ih (h.publish r)

theorem deliver_eq {h : Hub} (running : h.running = true) (rs : List Report) :
    rs.foldl deliver h = rs.foldl publish h := by
  induction rs generalizing h with
  | nil => rfl
  | cons r rs ih =>
    have here : h.deliver r = h.publish r := if_pos running
    rw [List.foldl_cons, List.foldl_cons, here]
    exact ih running

end Hub

namespace Cells

variable {ev : Evaluator} {cs : Cells}

theorem find?_idle (cs : Cells) (k : Key) :
    cs.idle.find? k = (cs.find? k).map fun c => { c with phase := .waiting } := by
  simp only [idle, find?, List.find?_map]
  rfl

theorem idle_start (cs : Cells) (k : Key) (decl : Decl) (parents : List Key) :
    (cs.start k decl parents).idle = cs.idle.start k decl parents := by
  simp [idle, start]

theorem idle_idle (cs : Cells) : cs.idle.idle = cs.idle := by
  simp only [idle, List.map_map]
  rfl

theorem sound_idle (ev : Evaluator) (cs : Cells) : cs.idle.Sound ev := by
  have waits : ∀ c ∈ cs.idle.all, c.isWaiting = true := by
    intro c hc
    obtain ⟨b, _, rfl⟩ := List.mem_map.1 hc
    rfl
  constructor
  · intro c hc still
    rw [waits c hc] at still
    cases still
  · intro c hc still
    rw [waits c hc] at still
    cases still

theorem endings_idle (cs : Cells) (k : Key) : cs.idle.endings ev k = [] := by
  simp only [endings, find?_idle]
  cases cs.find? k with
  | none => rfl
  | some c => rfl

theorem waiting_idle (cs : Cells) : cs.idle.waiting = cs.idle.keys := by
  refine congrArg (List.map Cell.key) (List.filter_eq_self.2 ?_)
  intro c hc
  obtain ⟨b, _, rfl⟩ := List.mem_map.1 hc
  rfl

theorem find?_start (cs : Cells) (k j : Key) (decl : Decl) (parents : List Key) :
    (cs.start k decl parents).find? j =
      (cs.find? j).or (if k = j then some ⟨k, decl, parents, .waiting⟩ else none) := by
  simp only [start, find?, List.find?_append, List.find?_cons, List.find?_nil]
  by_cases same : k = j
  · simp [same]
  · simp [same]

/-- A new cell changes nothing for those that have evaluated. -/
theorem outcome_start {c : Cell} (calm : cs.Calm c) (k : Key) (decl : Decl) (parents : List Key) :
    (cs.start k decl parents).outcome ev c = cs.outcome ev c := by
  refine congrArg _ (input_congr fun p parent => ?_)
  obtain ⟨q, hq, key, _⟩ := calm p parent
  have known : (cs.find? p).isSome := find?_isSome_iff.2 (key ▸ mem_keys hq)
  obtain ⟨b, found⟩ := Option.isSome_iff_exists.1 known
  simp only [servedOr, find?_start, found, Option.some_or]

theorem Sound.start (sound : cs.Sound ev) (k : Key) (decl : Decl) (parents : List Key) :
    (cs.start k decl parents).Sound ev := by
  have old : ∀ c ∈ (cs.start k decl parents).all, c.isWaiting = false → c ∈ cs.all := by
    intro c hc still
    rcases List.mem_append.1 hc with hc | hc
    · exact hc
    · cases List.mem_singleton.1 hc
      cases still
  constructor
  · intro c hc still
    have member := old c hc still
    rw [outcome_start (sound.parents c member still)]
    exact sound.serves c member still
  · intro c hc still p parent
    obtain ⟨q, hq, key, calm⟩ := sound.parents c (old c hc still) still p parent
    exact ⟨q, List.mem_append_left _ hq, key, calm⟩

theorem endings_start (sound : cs.Sound ev) (k : Key) (decl : Decl) (parents : List Key) (j : Key) :
    (cs.start k decl parents).endings ev j = cs.endings ev j := by
  simp only [endings, find?_start]
  cases found : cs.find? j with
  | none =>
    by_cases same : k = j
    · simp only [if_pos same, Option.none_or]
      rfl
    · simp only [if_neg same, Option.none_or]
  | some c =>
    simp only [Option.some_or]
    cases still : c.isWaiting with
    | true => rfl
    | false =>
      have calm := sound.parents c (find?_mem found).1 still
      simp only [outcome_start calm]

theorem endings_new {k : Key} (new : k ∉ cs.keys) : cs.endings ev k = [] := by
  simp only [endings, find?_eq_none_iff.2 new]

end Cells

namespace Desk

def idle (d : Desk) : Desk := { d with cells := d.cells.idle }

/-- Taking in an item does not look at what the cells are doing. -/
theorem add_idle (d : Desk) (running : Bool) (item : Section) :
    d.idle.add running item = ((d.add running item).1.idle, (d.add running item).2) := by
  cases item with
  | broken source e =>
    simp only [add, addBroken]
    cases running with
    | true => rfl
    | false => rfl
  | decl decl =>
    have recipe : d.idle.recipe decl = d.recipe decl := rfl
    have memo : d.idle.memo = d.memo := rfl
    simp only [add, addDecl, recipe, memo]
    cases d.memo.lookup (d.recipe decl) with
    | some key => rfl
    | none =>
      have missing : ∀ p, (d.idle.cells.find? p).isNone = (d.cells.find? p).isNone := by
        intro p
        simp [idle, Cells.find?_idle]
      simp only [addNew, missing]
      cases (d.recipe decl).parents.toList.find? fun p => (d.cells.find? p).isNone with
      | some p => rfl
      | none =>
        cases running with
        | false => rfl
        | true => simp only [idle, if_true, Cells.idle_start]

/-- A report about a new key may change places with what has been reported about evaluations. -/
theorem Agrees.entries_commute {ev : Evaluator} {d : Desk} (h : d.Agrees)
    (few : d.memo.issued < UInt64.size) (e : Entry) (k : Key) :
    d.cells.endings ev k ++ entriesOf k [.ofEntry d.memo.nextKey e] =
      entriesOf k [.ofEntry d.memo.nextKey e] ++ d.cells.endings ev k := by
  rw [Report.entriesOf_ofEntry]
  by_cases same : k = d.memo.nextKey
  · have new : d.memo.nextKey ∉ d.cells.keys := fun known =>
      StrictOrder.irrefl d.memo.nextKey (h.below_nextKey few known)
    rw [same, Cells.endings_new new, List.append_nil, List.nil_append]
  · rw [if_neg same, List.append_nil, List.nil_append]

/-- What taking in an item means for the cells that have evaluated, and for the reports. -/
structure Quiet (ev : Evaluator) (d d' : Desk) (e : Entered) : Prop where
  sound : d'.cells.Sound ev
  endings : ∀ k, d.cells.endings ev k ++ entriesOf k e.report.toList =
    entriesOf k e.report.toList ++ d'.cells.endings ev k
  told : told e.report.toList = e.report.toList
  orders : orders e.report.toList = []

theorem Agrees.quiet {ev : Evaluator} {d d' : Desk} {item : Section} {running : Bool} {e : Entered}
    (h : d.Agrees) (sound : d.cells.Sound ev) (add : Added d running item (d', .ok e))
    (few : d'.memo.issued < UInt64.size) : Quiet ev d d' e := by
  cases add with
  | broken source e =>
    constructor
    · exact sound
    · exact h.entries_commute (Nat.lt_of_succ_lt few) _
    · rfl
    · rfl
  | reused decl key held =>
    constructor
    · exact sound
    · exact fun k => List.append_nil _
    · rfl
    · rfl
  | started decl new parents =>
    constructor
    · exact sound.start d.memo.nextKey decl (d.recipe decl).parents.toList
    · intro k
      rw [Cells.endings_start sound]
      exact h.entries_commute (Nat.lt_of_succ_lt few) _ k
    · rfl
    · rfl

end Desk

namespace Live

/-- What comes of the rest of the texts, behind those that have been taken in. -/
def goOn (done : List Revision) (l : Live) (texts : List String) :
    Live × Except Failure (List Revision) :=
  ((l.editEach texts).1, (l.editEach texts).2.map (done ++ ·))

theorem goOn_start (l : Live) (texts : List String) : l.goOn [] texts = l.editEach texts := by
  simp only [goOn, List.nil_append]
  obtain ⟨last, out⟩ := l.editEach texts
  cases out with
  | ok rs => rfl
  | error f => rfl

def finishText (done : List Revision) (out : Live × Except Failure Revision)
    (texts : List String) : Live × Except Failure (List Revision) :=
  match out with
  | (l, .ok r) => l.goOn (done ++ [r]) texts
  | (l, .error f) => (l, .error f)

theorem goOn_cons (done : List Revision) (l : Live) (text : String) (more : List String) :
    l.goOn done (text :: more) = finishText done (l.edit text) more := by
  simp only [goOn, editEach]
  obtain ⟨l', out⟩ := l.edit text
  cases out with
  | error f => rfl
  | ok r =>
    simp only [finishText, goOn]
    cases (l'.editEach more).2 with
    | error f => rfl
    | ok rs => simp [Except.map]

theorem complete_cons {l l' : Live} {item : Section} {e : Placed}
    (added : l.add item = (l', .ok e)) (placed : Revision) (rest : List Section) :
    l.complete placed (item :: rest) = l'.complete (placed ++ [e]) rest := by
  simp only [complete, addAll, added]
  obtain ⟨last, out⟩ := l'.addAll rest
  cases out with
  | error f => rfl
  | ok more => simp [Except.map]

theorem complete_nil {l : Live} (running : l.hub.running = true) (placed : Revision) :
    l.complete placed [] = ({ l with hub := l.hub.publish (.ofOrder placed.order) }, .ok placed) := by
  simp only [complete, addAll, close, running, if_true, List.append_nil]

end Live

namespace Workshop

variable {ev : Evaluator} {capacity : Nat} {texts : List String} {s t : Workshop} {m : Move}

/-- The worksheet that has taken in as much, while no cell has evaluated. -/
def plain (capacity : Nat) (s : Workshop) : Live := ⟨s.toDesk.idle, .behind capacity (told s.sent)⟩

/-- What comes of that worksheet. No move changes it. -/
def prospect (capacity : Nat) (s : Workshop) : Live × Except Failure (List Revision) :=
  match s.call with
  | none => (s.plain capacity).goOn (s.ended.map Call.placed) s.texts
  | some (placed, rest) =>
    Live.finishText (s.ended.map Call.placed) ((s.plain capacity).complete placed rest) s.texts

/-- What holds in every state of every run that nothing puts an end to. -/
structure AtWork (ev : Evaluator) (capacity : Nat) (texts : List String) (s : Workshop) : Prop where
  agrees : s.toDesk.Agrees
  sound : s.cells.Sound ev
  hub : s.hub = .behind capacity (s.sent.take s.taken)
  taken : s.taken ≤ s.sent.length
  endings : ∀ k, entriesOf k s.sent = entriesOf k (told s.sent) ++ s.cells.endings ev k
  orders : orders s.sent = s.ended.map (·.placed.order)
  clean : ∀ call ∈ s.ended, call.failure = none
  prospect : s.prospect capacity = (Live.start capacity).editEach texts

theorem start_atWork : (start capacity texts).AtWork ev capacity texts where
  agrees := Desk.empty_agrees
  sound := ⟨by simp [start, Desk.empty, Cells.empty], by simp [start, Desk.empty, Cells.empty]⟩
  hub := rfl
  taken := Nat.le_refl _
  endings := fun _ => rfl
  orders := rfl
  clean := by simp [start]
  prospect := Live.goOn_start _ _

namespace AtWork

theorem running (h : s.AtWork ev capacity texts) : s.hub.running = true := by
  rw [h.hub]
  rfl

theorem not_deaf (h : s.AtWork ev capacity texts) : s.hub.running ≠ false := by
  rw [h.running]
  exact Bool.noConfusion

theorem hub_send (h : s.AtWork ev capacity texts) (rs : List Report) :
    s.hub = .behind capacity ((s.sent ++ rs).take s.taken) ∧
      s.taken ≤ (s.sent ++ rs).length := by
  rw [List.take_append_of_le_length h.taken, List.length_append]
  exact ⟨h.hub, Nat.le_add_right_of_le h.taken⟩

theorem turn (h : s.AtWork ev capacity texts) {text : String} {more : List String}
    (idle : s.call = none) (next : s.texts = text :: more) :
    ({ s with toDesk := s.toDesk.turn, texts := more, call := some ([], Calc.parse text) } :
      Workshop).AtWork ev capacity texts where
  agrees := h.agrees.turn
  sound := h.sound
  hub := h.hub
  taken := h.taken
  endings := h.endings
  orders := h.orders
  clean := h.clean
  prospect := by
    have before := h.prospect
    simp only [Workshop.prospect, idle, next, Live.goOn_cons] at before
    exact before

theorem add (h : s.AtWork ev capacity texts) {placed : Revision} {item : Section}
    {rest : List Section} {d : Desk} {e : Entered} (call : s.call = some (placed, item :: rest))
    (added : s.toDesk.add s.hub.running item = (d, .ok e)) (few : d.memo.issued < UInt64.size) :
    (s.enter d placed rest e).AtWork ev capacity texts := by
  have kept := Desk.Added.of_add added
  have quiet := h.agrees.quiet h.sound kept few
  obtain ⟨hub, taken⟩ := h.hub_send e.report.toList
  constructor
  · exact h.agrees.added kept few
  · exact quiet.sound
  · exact hub
  · exact taken
  · intro k
    have before := h.endings k
    simp only [enter, send, Report.entriesOf_append, Report.told_append, quiet.told, before,
      List.append_assoc, quiet.endings k]
  · have before := h.orders
    simp only [enter, send, Report.orders_append, quiet.orders, before, List.append_nil]
  · exact h.clean
  · have before := h.prospect
    have item_plain : (s.plain capacity).add item =
        ((s.enter d placed rest e).plain capacity, .ok e.placed) := by
      rw [h.running] at added
      have told_report := quiet.told
      simp only [Live.add, plain, Hub.behind, Desk.add_idle, added, enter, send,
        Report.told_append, told_report]
      cases e.report with
      | none => simp
      | some r => exact congrArg (fun hub => (Live.mk d.idle hub, _)) (Hub.publish_behind ..)
    simp only [Workshop.prospect, call, Live.complete_cons item_plain] at before
    exact before

theorem close (h : s.AtWork ev capacity texts) {placed : Revision}
    (call : s.call = some (placed, [])) :
    ((s.endCall placed none).send [.ofOrder placed.order]).AtWork ev capacity texts := by
  obtain ⟨hub, taken⟩ := h.hub_send [.ofOrder placed.order]
  constructor
  · exact h.agrees
  · exact h.sound
  · exact hub
  · exact taken
  · intro k
    have before := h.endings k
    simp only [endCall, send, Report.entriesOf_append, Report.told_append, before,
      Report.told_ofOrder, Report.entriesOf_ofOrder, List.append_nil]
  · have before := h.orders
    simp only [endCall, send, Report.orders_append, before, List.map_append]
    rfl
  · intro c hc
    rcases List.mem_append.1 hc with hc | hc
    · exact h.clean c hc
    · cases List.mem_singleton.1 hc
      rfl
  · have before := h.prospect
    have text_plain : (s.plain capacity).complete placed [] =
        (((s.endCall placed none).send [.ofOrder placed.order]).plain capacity, .ok placed) := by
      rw [Live.complete_nil rfl]
      simp only [plain, endCall, send, Report.told_append, Report.told_ofOrder,
        Hub.publish_behind]
    simp only [Workshop.prospect, call, text_plain, Live.finishText] at before
    simp only [Workshop.prospect, endCall, send, List.map_append]
    exact before

theorem finish (h : s.AtWork ev capacity texts) {key : Key} {report : Report} {cells : Cells}
    (finished : s.cells.finish ev key = some (report, cells)) :
    ({ s with cells := cells }.send [report] : Workshop).AtWork ev capacity texts := by
  have one := Cells.advance h.agrees.ordered h.sound finished
  obtain ⟨hub, taken⟩ := h.hub_send [report]
  have no_order : Report.orders [report] = [] := by
    rw [← Report.orders_told, one.told]
    rfl
  constructor
  · exact h.agrees.withCells (Cells.rows_of_finish finished)
  · exact one.sound
  · exact hub
  · exact taken
  · intro k
    have before := h.endings k
    simp only [send, Report.entriesOf_append, Report.told_append, one.told, one.endings, before,
      List.append_nil, List.append_assoc]
  · have before := h.orders
    simp only [send, Report.orders_append, no_order, before, List.append_nil]
  · exact h.clean
  · have before := h.prospect
    have same : ({ s with cells := cells }.send [report] : Workshop).plain capacity =
        s.plain capacity := by
      simp only [plain, send, Desk.idle, one.idle, Report.told_append, one.told, List.append_nil]
    simp only [Workshop.prospect, same]
    exact before

theorem receive (h : s.AtWork ev capacity texts) {report : Report}
    (next : s.sent[s.taken]? = some report) :
    ({ s with hub := s.hub.publish report, taken := s.taken + 1 } : Workshop).AtWork
      ev capacity texts where
  agrees := h.agrees
  sound := h.sound
  hub := by
    rw [h.hub, Hub.publish_behind, List.take_add_one, next]
    rfl
  taken := (List.getElem?_eq_some_iff.1 next).1
  endings := h.endings
  orders := h.orders
  clean := h.clean
  prospect := h.prospect

end AtWork

theorem Stepped.atWork (step : Stepped ev s m t) (h : s.AtWork ev capacity texts)
    (few : t.memo.issued < UInt64.size) : t.AtWork ev capacity texts := by
  cases step with
  | turn text more idle next => exact h.turn idle next
  | add placed item rest d e call added => exact h.add call added few
  | fail placed item rest d f call added =>
    obtain ⟨_, closed, _⟩ := h.agrees.failure (.of_add added)
    exact absurd closed h.not_deaf
  | close placed call => exact h.close call
  | lose placed call deaf => exact absurd deaf h.not_deaf
  | finish key report cells heard finished => exact h.finish finished
  | waste key report cells deaf => exact absurd deaf h.not_deaf
  | receive report next => exact h.receive next

theorem atWork_of_work {moves : List Move} (work : (start capacity texts).work ev moves = some s)
    (few : s.memo.issued < UInt64.size) : s.AtWork ev capacity texts :=
  work_induction (fun _ _ _ h step few => step.atWork h few) work few start_atWork

theorem AtWork.sequential (h : s.AtWork ev capacity texts) (last : s.texts = [])
    (idle : s.call = none) : (Live.start capacity).editEach texts =
      (s.plain capacity, .ok (s.ended.map Call.placed)) := by
  have before := h.prospect
  simp only [Workshop.prospect, idle, last] at before
  rw [← before]
  exact congrArg (fun rs => (s.plain capacity, Except.ok rs)) (List.append_nil _)

theorem AtWork.ended_eq (h : s.AtWork ev capacity texts) :
    s.ended = (s.ended.map Call.placed).map (Call.mk · none) := by
  have clean : ∀ call ∈ s.ended, Call.mk call.placed none = call := by
    intro call hc
    rw [← h.clean call hc]
  rw [List.map_map, ← List.map_id s.ended, List.map_map]
  exact (List.map_congr_left clean).symm

theorem settle_behind (l : Live) (rs : List Report) (hub : l.hub = .behind capacity rs) :
    (l.settle ev).hub = .behind capacity (rs ++ (l.cells.settle ev).1) := by
  simp only [Live.settle, hub]
  rw [Hub.deliver_eq rfl, Hub.publishAll_behind]

theorem AtWork.hub_done (h : s.AtWork ev capacity texts) (done : s.Done) :
    s.hub = .behind capacity s.sent := by
  have whole := List.take_append_drop s.taken s.sent
  rw [show s.sent.drop s.taken = [] from done.inbox, List.append_nil] at whole
  rw [h.hub, whole]

theorem AtWork.settled (h : s.AtWork ev capacity texts) (done : s.Done) :
    s.cells.all = ((s.plain capacity).settle ev).cells.all ∧
      s.hub = ((s.plain capacity).settle ev).hub := by
  have ordered : s.cells.idle.Ordered := h.agrees.ordered.of_rows (Cells.rows_idle s.cells)
  have settled := Cells.finishAll_settled ordered (Cells.sound_idle ev s.cells) rfl
  have all : s.cells.all = (s.cells.idle.settle ev).2.all :=
    Cells.Sound.unique h.agrees.ordered (by rw [Cells.settle, settled.idle, Cells.idle_idle])
      h.sound settled.sound done.cells (Cells.not_waiting_of_nil settled.waiting)
  refine ⟨all, ?_⟩
  have reports : Report.orders (s.cells.idle.settle ev).1 = [] := by
    rw [← Report.orders_told, Cells.settle, settled.told]
    rfl
  have endings : ∀ k, s.cells.endings ev k = entriesOf k (s.cells.idle.settle ev).1 := by
    intro k
    have merged := settled.endings k
    rw [Cells.endings_idle, List.nil_append] at merged
    rw [← Cells.settle] at merged
    rw [← merged]
    exact Cells.endings_congr all k
  rw [h.hub_done done, settle_behind (s.plain capacity) (told s.sent) rfl]
  refine congrArg (Hub.mk true capacity · []) (Report.mergeAll_congr rfl ?_ ?_)
  · rw [Report.orders_append, Report.orders_told]
    simp only [plain, Desk.idle, reports, List.append_nil]
  · intro k
    rw [h.endings k, Report.entriesOf_append, endings k]
    rfl

theorem AtWork.ready (h : s.AtWork ev capacity texts) (some_waits : s.cells.waiting ≠ []) :
    ∃ c ∈ s.cells.all, c.isWaiting = true ∧
      (∀ p ∈ c.parents, ∃ q, s.cells.find? p = some q ∧ q.served?.isSome) ∧
      (s.step ev (.finish c.key)).isSome := by
  obtain ⟨k, more, waiting⟩ := List.exists_cons_of_ne_nil some_waits
  obtain ⟨c, hc, _, waits, calm⟩ := Cells.first_calm h.agrees.ordered waiting
  refine ⟨c, hc, waits, ?_, ?_⟩
  · intro p parent
    obtain ⟨q, hq, rfl, still⟩ := calm p parent
    refine ⟨q, Cells.find?_of_mem h.agrees.ordered.ascending hq, ?_⟩
    rw [Cell.served?, h.sound.serves q hq still]
    rfl
  · obtain ⟨r, later, finished⟩ := Cells.finish_of_calm ev h.agrees.ordered hc waits calm
    simp only [step, finished]
    rfl

theorem AtWork.goes_on (h : s.AtWork ev capacity texts) (unfinished : ¬ s.Done) :
    ∃ m, (s.step ev m).isSome := by
  cases call : s.call with
  | some c =>
    obtain ⟨placed, rest⟩ := c
    cases rest with
    | nil => exact ⟨.close, by simp only [step, call, h.running]; rfl⟩
    | cons item rest =>
      refine ⟨.add, ?_⟩
      simp only [step, call]
      split
      · rfl
      · rfl
  | none =>
    cases texts_left : s.texts with
    | cons text more => exact ⟨.turn, by simp only [step, call, texts_left]; rfl⟩
    | nil =>
      by_cases calm : s.cells.waiting = []
      · have inbox : s.inbox ≠ [] := fun inbox =>
          unfinished ⟨texts_left, call, Cells.not_waiting_of_nil calm, inbox⟩
        have more : s.taken < s.sent.length := by
          refine Nat.lt_of_not_le fun all_taken => inbox ?_
          exact List.drop_eq_nil_of_le all_taken
        refine ⟨.receive, ?_⟩
        simp only [step, List.getElem?_eq_getElem more, h.running]
        rfl
      · obtain ⟨c, _, _, _, able⟩ := h.ready calm
        exact ⟨_, able⟩

/-- No schedule gets stuck, and all schedules end alike: as the worksheet that first takes in all
texts and then evaluates its cells, each one once, in ascending order. -/
theorem schedules_agree (ev : Evaluator) (capacity : Nat) (texts : List String)
    (moves : List Move) (s : Workshop) (work : (start capacity texts).work ev moves = some s)
    (few : s.memo.issued < UInt64.size) :
    ((∃ c ∈ s.cells.all, c.isWaiting = true) →
      ∃ c ∈ s.cells.all, c.isWaiting = true ∧
        (∀ p ∈ c.parents, ∃ q, s.cells.find? p = some q ∧ q.served?.isSome) ∧
        (s.step ev (.finish c.key)).isSome) ∧
    (¬ s.Done → ∃ m, (s.step ev m).isSome) ∧
    (s.Done → ∃ l revisions, (Live.start capacity).editEach texts = (l, .ok revisions) ∧
      l.cells.waiting = l.cells.keys ∧ l.cells.keys.Pairwise (· < ·) ∧
      (l.settle ev).cells.calls = l.cells.keys ∧ (l.settle ev).cells.waiting = [] ∧
      s.ended = revisions.map (Call.mk · none) ∧ s.memo = l.memo ∧ s.scope = l.scope ∧
      s.cells.all = (l.settle ev).cells.all ∧ s.hub = (l.settle ev).hub) := by
  have h := atWork_of_work work few
  refine ⟨?_, h.goes_on, ?_⟩
  · rintro ⟨c, hc, waits⟩
    exact h.ready (List.ne_nil_of_mem (Cells.mem_waiting hc waits))
  · intro done
    have ordered : s.cells.idle.Ordered := h.agrees.ordered.of_rows (Cells.rows_idle s.cells)
    have settled := Cells.finishAll_settled ordered (Cells.sound_idle ev s.cells) rfl
    have waiting := Cells.waiting_idle s.cells
    obtain ⟨all, hub⟩ := h.settled done
    refine ⟨s.plain capacity, _, h.sequential done.texts done.call, waiting, ordered.ascending,
      ?_, settled.waiting, h.ended_eq, rfl, rfl, all, hub⟩
    exact settled.calls.trans waiting

theorem schedules_agree_when_eager : ∃ (s : Workshop) (l : Live) (revisions : List Revision),
    (start 4 ["a = 1\nb = a", "a = 1"]).work (.calc ∅)
      [.turn, .add, .finish ⟨0⟩, .add, .close, .turn, .receive, .add, .finish ⟨1⟩, .close,
        .receive, .receive, .receive, .receive, .receive] = some s ∧
    s.Done ∧ revisions.map Revision.order = [[⟨0⟩, ⟨1⟩], [⟨0⟩]] ∧
    (Live.start 4).editEach ["a = 1\nb = a", "a = 1"] = (l, .ok revisions) ∧
    s.hub = (l.settle (.calc ∅)).hub := by
  have ends : ((start 4 ["a = 1\nb = a", "a = 1"]).work (.calc ∅)
      [.turn, .add, .finish ⟨0⟩, .add, .close, .turn, .receive, .add, .finish ⟨1⟩, .close,
        .receive, .receive, .receive, .receive, .receive]).isSome = true := by cbv
  have few : (Option.get _ ends).memo.issued < UInt64.size := by
    have issued : (Option.get _ ends).memo.issued = 2 := by cbv
    rw [issued]
    decide
  have waiting : (Option.get _ ends).cells.waiting = [] := by cbv
  have done : (Option.get _ ends).Done :=
    ⟨by cbv, by cbv, Cells.not_waiting_of_nil waiting, by cbv⟩
  have orders : (Option.get _ ends).ended.map (·.placed.order) = [[⟨0⟩, ⟨1⟩], [⟨0⟩]] := by cbv
  have run := (Option.some_get ends).symm
  obtain ⟨l, revisions, edited, _, _, _, _, ended, _, _, _, hub⟩ :=
    (schedules_agree (.calc ∅) 4 _ _ _ run few).2.2 done
  refine ⟨_, l, revisions, run, done, ?_, edited, hub⟩
  rw [ended, List.map_map] at orders
  exact orders

end Workshop

end Worksheet
