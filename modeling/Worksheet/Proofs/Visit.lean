import Worksheet.Proofs.Progress
/-! A visit to a worksheet. The visitor hands in one text, asks to observe behind the edit and receives
until what it has merged is settled. Cells evaluate at any time meanwhile, and the visitor may be as
late as it likes: it misses nothing, and what it returns is the state behind all evaluations. -/
namespace Worksheet

open OneShot (Prepared)

/-- A state and all reports since come to the same as all reports. -/
theorem Report.mergeAll_late {rs : List Report} {n m : Nat} (late : n ≤ m) :
    empty.mergeAll (empty.mergeAll (rs.take n) :: (rs.take m).drop n) =
      empty.mergeAll (rs.take m) := by
  have early : (rs.take m).take n = rs.take n := by rw [List.take_take, Nat.min_eq_left late]
  rw [mergeAll_cons, empty_merge, ← early, ← mergeAll_append, List.take_append_drop]

theorem Observer.offer_length (o : Observer) (room : Nat) (r : Report) :
    (o.offer room r).queue.length ≤ o.queue.length + 1 := by
  simp only [offer]
  split
  · split
    · exact Nat.le_of_eq List.length_append
    · exact Nat.le_succ _
  · exact Nat.le_succ _

/-- A worksheet with a visitor. -/
structure Visit extends Workshop where
  /-- How many reports had been sent when the visitor asked to observe. -/
  asked : Option Nat
  /-- The merge of what the visitor has received. -/
  merged : Report
  /-- What the visitor has returned. -/
  outcome : Option (Except Failure Report)

namespace Visit

inductive Event
  /-- Something goes on at the worksheet. -/
  | work (move : Move)
  /-- The edit is over and the visitor asks to observe. -/
  | ask
  /-- The hub gets to the request. -/
  | attach
  /-- The visitor receives a report. -/
  | next
  /-- The visitor has waited too long. -/
  | expire

def start (text : String) : Visit where
  toWorkshop := .start (OneShot.capacity text) [text]
  asked := none
  merged := .empty
  outcome := none

/-- The request is the next thing for the hub to deal with. -/
def atRequest (s : Visit) : Bool := s.hub.observers.isEmpty && s.asked == some s.taken

/-- The hub deals with what has been sent, requests among it, in the order in which it was sent. -/
def blocked (s : Visit) : Move → Bool
  | .receive => s.atRequest
  | _ => false

def receive (s : Visit) (r : Report) : Visit :=
  let merged := s.merged.merge r
  { s with
    hub := s.hub.receive 0
    merged := merged
    outcome := if merged.settled then some (.ok merged) else none }

def handle (ev : Evaluator) (limit : Nat) (s : Visit) (e : Event) : Option Visit :=
  if s.outcome.isSome then none
  else
    match e with
    | .work m =>
      if s.blocked m then none
      else (s.toWorkshop.step ev m).map fun w => { s with toWorkshop := w }
    | .ask =>
      match s.asked, s.texts, s.call, s.ended with
      | none, [], none, [⟨_, none⟩] =>
        if s.hub.running then some { s with asked := some s.sent.length }
        else some { s with outcome := some (.error .hubClosed) }
      | none, [], none, [⟨_, some f⟩] => some { s with outcome := some (.error f) }
      | _, _, _, _ => none
    | .attach => if s.atRequest then some { s with hub := s.hub.subscribe } else none
    | .next =>
      if s.hub.observers.isEmpty then none
      else
        match s.hub.receipt 0 with
        | .report r => some (s.receive r)
        | .nothing => none
        | .ended => some { s with outcome := some (.error .hubClosed) }
    | .expire =>
      if s.hub.observers.isEmpty then none
      else some { s with outcome := some (.error (.timeout limit)) }

def run (ev : Evaluator) (limit : Nat) (s : Visit) : List Event → Option Visit
  | [] => some s
  | e :: more => (s.handle ev limit e).bind fun s => s.run ev limit more

variable {ev : Evaluator} {limit : Nat} {text : String} {s t : Visit} {e : Event} {l : Live}
  {r : Revision} {reports : List Report}

/-- All that an event can do to a visit that goes on. -/
inductive Handled (ev : Evaluator) (limit : Nat) (s : Visit) : Event → Visit → Prop
  | work (m : Move) (w : Workshop) (free : s.blocked m = false)
      (step : Workshop.Stepped ev s.toWorkshop m w) :
      Handled ev limit s (.work m) { s with toWorkshop := w }
  | ask (r : Revision) (first : s.asked = none) (last : s.texts = []) (idle : s.call = none)
      (ended : s.ended = [⟨r, none⟩]) (heard : s.hub.running = true) :
      Handled ev limit s .ask { s with asked := some s.sent.length }
  | deaf (deaf : s.hub.running = false) :
      Handled ev limit s .ask { s with outcome := some (.error .hubClosed) }
  | failed (r : Revision) (f : Failure) (ended : s.ended = [⟨r, some f⟩]) :
      Handled ev limit s .ask { s with outcome := some (.error f) }
  | attach (there : s.atRequest = true) :
      Handled ev limit s .attach { s with hub := s.hub.subscribe }
  | next (r : Report) (got : s.hub.receipt 0 = .report r) : Handled ev limit s .next (s.receive r)
  | lost (present : s.hub.observers ≠ []) (got : s.hub.receipt 0 = .ended) :
      Handled ev limit s .next { s with outcome := some (.error .hubClosed) }
  | expire : Handled ev limit s .expire { s with outcome := some (.error (.timeout limit)) }

theorem handled (h : s.handle ev limit e = some t) : s.outcome = none ∧ Handled ev limit s e t := by
  simp only [handle] at h
  split at h
  · cases h
  · rename_i going
    refine ⟨by simpa using going, ?_⟩
    cases e with
    | work m =>
      simp only at h
      split at h
      · cases h
      · rename_i free
        obtain ⟨w, step, rfl⟩ := Option.map_eq_some_iff.1 h
        exact .work m w (Bool.eq_false_iff.2 free) (Workshop.stepped step)
    | ask =>
      simp only at h
      split at h
      · rename_i r first last idle ended
        split at h
        · rename_i heard
          cases h
          exact .ask r first last idle ended heard
        · rename_i deaf
          cases h
          exact .deaf (Bool.eq_false_iff.2 deaf)
      · rename_i r f _ _ _ ended
        cases h
        exact .failed r f ended
      · cases h
    | attach =>
      simp only at h
      split at h
      · rename_i there
        cases h
        exact .attach there
      · cases h
    | next =>
      simp only at h
      split at h
      · cases h
      · rename_i present
        split at h
        · rename_i r got
          cases h
          exact .next r got
        · cases h
        · rename_i got
          cases h
          exact .lost (fun alone => present (List.isEmpty_iff.2 alone)) got
    | expire =>
      simp only at h
      split at h
      · cases h
      · cases h
        exact .expire

/-- Where a visitor is. One that observes has received, or has yet to receive, the state at its
request and all reports since. -/
inductive View (text : String) (s : Visit) : Prop
  | apart (unasked : s.asked = none) (alone : s.hub.observers = []) (fresh : s.merged = .empty)
  | waits (n : Nat) (asked : s.asked = some n) (alone : s.hub.observers = [])
      (fresh : s.merged = .empty) (early : s.taken ≤ n) (requested : s.Requested text n)
  | reads (n : Nat) (seen queue : List Report) (asked : s.asked = some n)
      (there : s.hub.observers = [⟨queue, true⟩]) (merged : s.merged = Report.empty.mergeAll seen)
      (gapless : seen ++ queue =
        Report.empty.mergeAll (s.sent.take n) :: (s.sent.take s.taken).drop n)
      (late : n ≤ s.taken) (requested : s.Requested text n)

/-- What holds all the time of a visit. -/
structure Hosted (ev : Evaluator) (limit : Nat) (text : String) (s : Visit) : Prop where
  atWork : s.unobserved.AtWork ev (OneShot.capacity text) [text]
  few : s.memo.issued + s.itemsLeft ≤ (Calc.parse text).length
  view : s.View text
  unsettled : s.outcome = none → s.merged.settled = false
  failed : ∀ f, s.outcome = some (.error f) → f = .timeout limit
  returned : ∀ r, s.outcome = some (.ok r) → s.Done ∧ r = s.hub.state

theorem start_hosted : (start text).Hosted ev limit text where
  atWork := Workshop.start_atWork
  few := by simp [start, Workshop.start, Workshop.itemsLeft, Desk.empty, Memo.empty]
  view := .apart rfl rfl rfl
  unsettled := fun _ => rfl
  failed := fun _ none_yet => by cases none_yet
  returned := fun _ none_yet => by cases none_yet

namespace View

variable {w : Workshop} {m : Move} {queue : List Report}

/-- The queue of a visitor has room for the state and for one report on each item. -/
theorem room (view : s.View text) (there : s.hub.observers = [⟨queue, true⟩]) :
    queue.length < OneShot.capacity text := by
  cases view with
  | apart _ alone => cases alone.symm.trans there
  | waits _ _ alone => cases alone.symm.trans there
  | reads n seen queue' asked there' merged gapless late requested =>
    cases there.symm.trans there'
    have length := congrArg List.length gapless
    have few := requested.few
    have items := Calc.length_parse text
    rw [List.length_append, List.length_cons, List.length_drop, List.length_take] at length
    rw [List.length_drop] at few
    rw [OneShot.capacity]
    omega

theorem work (view : s.View text) (step : Workshop.Stepped ev s.toWorkshop m w)
    (free : s.blocked m = false) (ordered : s.cells.Ordered) (heard : s.hub.running = true)
    (capacity : s.hub.capacity = OneShot.capacity text) (taken_le : s.taken ≤ s.sent.length) :
    ({ s with toWorkshop := w } : Visit).View text := by
  cases view with
  | apart unasked alone fresh =>
    rcases step.kept with ⟨hub, _, _⟩ | ⟨rfl, report, next, rfl⟩
    · exact .apart unasked (hub ▸ alone) fresh
    · exact .apart unasked (by simp [Hub.publish, alone]) fresh
  | waits n asked alone fresh early requested =>
    have kept := step.requested ordered heard requested
    rcases step.kept with ⟨hub, taken, _⟩ | ⟨rfl, report, next, rfl⟩
    · exact .waits n asked (hub ▸ alone) fresh (taken ▸ early) kept
    · have other : n ≠ s.taken := by
        simpa [blocked, atRequest, asked, alone] using free
      exact .waits n asked (by simp [Hub.publish, alone]) fresh (by show s.taken + 1 ≤ n; omega) kept
  | reads n seen queue asked there merged gapless late requested =>
    have kept := step.requested ordered heard requested
    have room := (View.reads n seen queue asked there merged gapless late requested).room there
    rcases step.kept with ⟨hub, taken, more, sent⟩ | ⟨rfl, report, next, rfl⟩
    · refine .reads n seen queue asked (hub ▸ there) merged ?_ (taken ▸ late) kept
      show _ = Report.empty.mergeAll (w.sent.take n) :: (w.sent.take w.taken).drop n
      rw [sent, taken, List.take_append_of_le_length requested.sent,
        List.take_append_of_le_length taken_le]
      exact gapless
    · have roomy : queue.length < s.hub.room := by
        rw [Hub.room, capacity]
        omega
      have offered : (s.hub.publish report).observers = [⟨queue ++ [report], true⟩] := by
        simp [Hub.publish, there, Observer.offer, roomy]
      refine .reads n seen (queue ++ [report]) asked offered merged ?_ (Nat.le_succ_of_le late) kept
      show _ = Report.empty.mergeAll (s.sent.take n) :: (s.sent.take (s.taken + 1)).drop n
      have reached : n ≤ (s.sent.take s.taken).length := by
        rw [List.length_take]
        omega
      rw [← List.append_assoc, gapless, List.take_add_one, next,
        List.drop_append_of_le_length reached]
      rfl

end View

namespace Hosted

theorem heard (h : s.Hosted ev limit text) : s.hub.running = true := h.atWork.running

theorem capacity (h : s.Hosted ev limit text) : s.hub.capacity = OneShot.capacity text :=
  congrArg Hub.capacity h.atWork.hub

theorem state (h : s.Hosted ev limit text) :
    s.hub.state = Report.empty.mergeAll (s.sent.take s.taken) :=
  congrArg Hub.state h.atWork.hub

theorem ordered (h : s.Hosted ev limit text) : s.cells.Ordered := h.atWork.agrees.ordered

theorem work (h : s.Hosted ev limit text) (fits : OneShot.capacity text < UInt64.size)
    (going : s.outcome = none) {m : Move} {w : Workshop} (free : s.blocked m = false)
    (step : Workshop.Stepped ev s.toWorkshop m w) :
    ({ s with toWorkshop := w } : Visit).Hosted ev limit text where
  atWork := by
    have items := OneShot.items_few fits
    have few := h.few
    have left := step.itemsLeft
    exact step.unobserved.atWork h.atWork (by show w.memo.issued < _; omega)
  few := Nat.le_trans step.itemsLeft h.few
  view := h.view.work step free h.ordered h.heard h.capacity h.atWork.taken
  unsettled := h.unsettled
  failed := h.failed
  returned := fun r returned => by cases going.symm.trans returned

/-- The visitor asks. -/
theorem ask (h : s.Hosted ev limit text) (fits : OneShot.capacity text < UInt64.size)
    (first : s.asked = none) (last : s.texts = []) (idle : s.call = none) :
    ({ s with asked := some s.sent.length } : Visit).Hosted ev limit text where
  atWork := h.atWork
  few := h.few
  view := by
    obtain ⟨l, r, reports, prepared⟩ := OneShot.exists_prepared fits
    have requested := h.atWork.requested prepared fits last idle
    cases h.view with
    | apart _ alone fresh =>
      exact .waits s.sent.length rfl alone fresh h.atWork.taken (requested.withHub s.hub)
    | waits n asked => cases first.symm.trans asked
    | reads n seen queue asked => cases first.symm.trans asked
  unsettled := h.unsettled
  failed := h.failed
  returned := h.returned

theorem attach (h : s.Hosted ev limit text) (going : s.outcome = none)
    (there : s.atRequest = true) :
    ({ s with hub := s.hub.subscribe } : Visit).Hosted ev limit text where
  atWork := h.atWork
  few := h.few
  view := by
    obtain ⟨alone, asked⟩ := Bool.and_eq_true_iff.1 there
    have asked : s.asked = some s.taken := by simpa using asked
    have alone : s.hub.observers = [] := List.isEmpty_iff.1 alone
    cases h.view with
    | apart unasked => cases unasked.symm.trans asked
    | waits n asked' _ fresh early requested =>
      cases asked.symm.trans asked'
      have here : s.hub.subscribe.observers = [⟨[s.hub.state], true⟩] := by
        simp [Hub.subscribe, alone]
      refine .reads s.taken [] _ asked here fresh ?_ (Nat.le_refl _) (requested.withHub _)
      show [s.hub.state] = _ :: (s.sent.take s.taken).drop s.taken
      rw [h.state, List.drop_eq_nil_of_le (List.length_take_le _ _)]
    | reads n seen queue _ there' => cases alone.symm.trans there'
  unsettled := h.unsettled
  failed := h.failed
  returned := fun r returned => by cases going.symm.trans returned

/-- What a visitor has merged is settled only when nothing is left to come. -/
theorem settled (h : s.Hosted ev limit text) {n : Nat} {seen queue : List Report}
    (gapless : seen ++ queue =
      Report.empty.mergeAll (s.sent.take n) :: (s.sent.take s.taken).drop n)
    (late : n ≤ s.taken) (requested : s.Requested text n)
    (settled : (Report.empty.mergeAll seen).settled = true) :
    s.Done ∧ Report.empty.mergeAll seen = s.hub.state := by
  cases seen with
  | nil => cases settled
  | cons snapshot early =>
    obtain ⟨rfl, tail⟩ := List.cons.inj gapless
    have rest : s.sent.drop n = early ++ (queue ++ s.sent.drop s.taken) := by
      rw [← List.append_assoc, show early ++ queue = _ from tail]
      conv => lhs; rw [← List.take_append_drop s.taken s.sent]
      refine List.drop_append_of_le_length ?_
      rw [List.length_take]
      exact Nat.le_min.2 ⟨late, Nat.le_trans late h.atWork.taken⟩
    have awaits := requested.awaits
    rw [rest] at awaits
    rw [Report.mergeAll_cons, Report.empty_merge] at settled
    obtain ⟨nothing, none_waits⟩ := awaits.complete settled
    obtain ⟨drained, inbox⟩ := List.append_eq_nil_iff.1 nothing
    refine ⟨⟨requested.texts, requested.call, Cells.not_waiting_of_nil none_waits, inbox⟩, ?_⟩
    rw [drained, List.append_nil] at gapless
    rw [gapless, h.state, Report.mergeAll_late late]

theorem next (h : s.Hosted ev limit text) {r : Report}
    (got : s.hub.receipt 0 = .report r) : (s.receive r).Hosted ev limit text := by
  cases h.view with
  | apart _ alone => simp [Hub.receipt, alone] at got
  | waits _ _ alone => simp [Hub.receipt, alone] at got
  | reads n seen queue asked there merged gapless late requested =>
    cases queue with
    | nil => simp [Hub.receipt, there, Observer.next] at got
    | cons first rest =>
      obtain rfl : first = r := by simpa [Hub.receipt, there, Observer.next] using got
      rw [List.append_cons] at gapless
      have merged' : s.merged.merge first = Report.empty.mergeAll (seen ++ [first]) := by
        rw [merged, Report.mergeAll_append]
        rfl
      have there' : (s.hub.receive 0).observers = [⟨rest, true⟩] := by
        simp [Hub.receive, there, Observer.next]
      constructor
      · exact h.atWork
      · exact h.few
      · exact .reads n (seen ++ [first]) rest asked there' merged' gapless late
          (requested.withHub _)
      · intro going_on
        by_contra settled
        simp only [receive, Bool.not_eq_false] at going_on settled
        rw [if_pos settled] at going_on
        cases going_on
      · intro f failed
        simp only [receive] at failed
        split at failed
        · cases failed
        · cases failed
      · intro r returned
        simp only [receive] at returned
        split at returned
        · rename_i settled
          cases returned
          rw [merged'] at settled
          obtain ⟨done, same⟩ := h.settled gapless late requested settled
          exact ⟨⟨done.texts, done.call, done.cells, done.inbox⟩, merged'.trans same⟩
        · cases returned

theorem clean (h : s.Hosted ev limit text) {f : Failure} : s.ended ≠ [⟨r, some f⟩] := by
  intro ended
  have here : (⟨r, some f⟩ : Call) ∈ s.ended := ended ▸ List.mem_cons_self ..
  cases h.atWork.clean _ here

/-- The stream of reports to the visitor does not end. -/
theorem not_lost (h : s.Hosted ev limit text) (present : s.hub.observers ≠ []) :
    s.hub.receipt 0 ≠ .ended := by
  cases h.view with
  | apart _ alone => exact absurd alone present
  | waits _ _ alone => exact absurd alone present
  | reads n seen queue asked there =>
    cases queue with
    | nil => simp [Hub.receipt, there, Observer.next]
    | cons first rest => simp [Hub.receipt, there, Observer.next]

theorem handled (h : s.Hosted ev limit text) (fits : OneShot.capacity text < UInt64.size)
    (going : s.outcome = none) (step : Handled ev limit s e t) : t.Hosted ev limit text := by
  cases step with
  | work m w free step => exact h.work fits going free step
  | ask r first last idle => exact h.ask fits first last idle
  | deaf deaf => cases h.heard.symm.trans deaf
  | failed r f ended => exact absurd ended h.clean
  | attach there => exact h.attach going there
  | next r got => exact h.next got
  | lost present got => exact absurd got (h.not_lost present)
  | expire =>
    constructor
    · exact h.atWork
    · exact h.few
    · cases h.view with
      | apart unasked alone fresh => exact .apart unasked alone fresh
      | waits n asked alone fresh early requested =>
        exact .waits n asked alone fresh early requested
      | reads n seen queue asked there merged gapless late requested =>
        exact .reads n seen queue asked there merged gapless late requested
    · intro going_on
      cases going_on
    · intro f failed
      cases failed
      rfl
    · intro r returned
      cases returned

/-- Only the time limit makes a visit fail. -/
theorem expired (h : s.Hosted ev limit text) (going : s.outcome = none)
    (step : Handled ev limit s e t) {f : Failure} (failed : t.outcome = some (.error f)) :
    e = .expire := by
  cases step with
  | work m w free step => cases going.symm.trans failed
  | ask r first last idle => cases going.symm.trans failed
  | deaf deaf => cases h.heard.symm.trans deaf
  | failed r f ended => exact absurd ended h.clean
  | attach there => cases going.symm.trans failed
  | next r got =>
    simp only [receive] at failed
    split at failed
    · cases failed
    · cases failed
  | lost present got => exact absurd got (h.not_lost present)
  | expire => rfl

/-- The state at the end is that of the worksheet whose cells evaluate behind the edit. -/
theorem final (h : s.Hosted ev limit text) (prepared : Prepared text l r reports) (done : s.Done) :
    s.hub.state = (l.settle ev).hub.state := by
  have done' : s.unobserved.Done := ⟨done.texts, done.call, done.cells, done.inbox⟩
  obtain ⟨same, _⟩ := h.atWork.plain_eq prepared done'.texts done'.call
  have state := congrArg Hub.state (h.atWork.settled done').2
  rw [← same]
  exact state

/-- A visit that has not returned goes on, and needs no time limit to do so. -/
theorem goes_on (h : s.Hosted ev limit text) (fits : OneShot.capacity text < UInt64.size)
    (going : s.outcome = none) : ∃ e, e ≠ .expire ∧ (s.handle ev limit e).isSome := by
  have attaches : s.atRequest = true → (s.handle ev limit .attach).isSome := fun there => by
    simp [handle, going, there]
  by_cases done : s.unobserved.Done
  · obtain ⟨l, r, reports, prepared⟩ := OneShot.exists_prepared fits
    have last : s.texts = [] ∧ s.call = none := ⟨done.texts, done.call⟩
    have ended : s.ended = [⟨r, none⟩] := (h.atWork.plain_eq prepared last.1 last.2).2
    cases h.view with
    | apart unasked =>
      exact ⟨.ask, Event.noConfusion, by simp [handle, going, unasked, last, ended, h.heard]⟩
    | waits n asked alone fresh early requested =>
      have all : s.sent.length ≤ s.taken := List.drop_eq_nil_iff.1 done.inbox
      have here : n = s.taken := by
        have sent := requested.sent
        omega
      refine ⟨.attach, Event.noConfusion, attaches ?_⟩
      simp [atRequest, alone, asked, here]
    | reads n seen queue asked there merged gapless late requested =>
      cases queue with
      | cons first rest =>
        refine ⟨.next, Event.noConfusion, ?_⟩
        simp [handle, going, there, Hub.receipt, Observer.next]
      | nil =>
        -- The visitor has caught up with a state that is settled, so it has returned.
        rw [List.append_nil] at gapless
        have caught : s.merged = (l.settle ev).hub.state := by
          rw [merged, gapless, Report.mergeAll_late late, ← h.state]
          exact h.final prepared ⟨done.texts, done.call, done.cells, done.inbox⟩
        have unsettled := h.unsettled going
        rw [caught, prepared.settled ev fits] at unsettled
        cases unsettled
  · obtain ⟨m, able⟩ := h.atWork.goes_on done
    have able := Workshop.step_unobserved able
    cases free : s.blocked m with
    | true =>
      refine ⟨.attach, Event.noConfusion, attaches ?_⟩
      cases m with
      | receive => exact free
      | _ => cases free
    | false =>
      refine ⟨.work m, Event.noConfusion, ?_⟩
      simpa [handle, going, free] using able

end Hosted

/-- What is left of the way to an observer. -/
def distance (s : Visit) : Nat :=
  if s.asked = none then 3 else if s.hub.observers = [] then 2 else 0

/-- What the events that are still possible are worth in all. -/
def effort (s : Visit) : Nat :=
  s.toWorkshop.effort + (s.hub.observers.map (·.queue.length)).sum + s.distance +
    if s.outcome = none then 1 else 0

theorem start_effort (text : String) :
    (start text).effort = 6 * (Calc.parse text).length + 8 := by
  simp [effort, distance, start, Workshop.start, Workshop.effort, Desk.empty, Cells.empty,
    Cells.waiting, Hub.start]
  omega

/-- Every event brings a visit closer to its end. -/
theorem Hosted.effort (h : s.Hosted ev limit text) (going : s.outcome = none)
    (step : Handled ev limit s e t) : t.effort < s.effort := by
  cases step with
  | work m w free step =>
    have less := step.effort h.atWork.taken
    rcases step.kept with ⟨hub, _, _⟩ | ⟨rfl, report, next, rfl⟩
    · have one : 1 ≤ m.weight := by
        cases m with
        | receive => decide
        | _ => exact Nat.le_refl 1
      simp only [Visit.effort, distance, hub]
      omega
    · -- A report that the hub has taken in is received once, as there is one observer.
      have queued : ((s.hub.publish report).observers.map (·.queue.length)).sum ≤
          (s.hub.observers.map (·.queue.length)).sum + 1 := by
        cases h.view with
        | apart _ alone => simp [Hub.publish, alone]
        | waits _ _ alone => simp [Hub.publish, alone]
        | reads n seen queue asked there =>
          simpa [Hub.publish, there] using Observer.offer_length _ _ _
      have there : (s.hub.publish report).observers = [] ↔ s.hub.observers = [] :=
        List.map_eq_nil_iff
      have worth : Move.weight .receive = 2 := rfl
      simp only [Visit.effort, distance, there]
      omega
  | ask r first last idle =>
    simp [Visit.effort, distance, first]
    split <;> omega
  | deaf deaf => simp [Visit.effort, distance, going]
  | failed r f ended => simp [Visit.effort, distance, going]
  | attach there =>
    obtain ⟨alone, asked⟩ := Bool.and_eq_true_iff.1 there
    have asked : s.asked = some s.taken := by simpa using asked
    have alone : s.hub.observers = [] := List.isEmpty_iff.1 alone
    simp [Visit.effort, distance, asked, alone, Hub.subscribe]
  | next r got =>
    cases h.view with
    | apart _ alone => simp [Hub.receipt, alone] at got
    | waits _ _ alone => simp [Hub.receipt, alone] at got
    | reads n seen queue asked there =>
      cases queue with
      | nil => simp [Hub.receipt, there, Observer.next] at got
      | cons first rest =>
        simp [Visit.effort, distance, receive, asked, there, Hub.receive, Observer.next, going]
        split <;> omega
  | lost present got => simp [Visit.effort, distance, going]
  | expire => simp [Visit.effort, distance, going]

/-- What a run of a visit keeps, and how long it can be. -/
structure Ran (ev : Evaluator) (limit : Nat) (text : String) (s : Visit) (events : List Event)
    (t : Visit) : Prop where
  hosted : t.Hosted ev limit text
  brief : t.effort + events.length ≤ s.effort
  expired : ∀ f, t.outcome = some (.error f) → s.outcome = some (.error f) ∨ .expire ∈ events

theorem Hosted.run (h : s.Hosted ev limit text) (fits : OneShot.capacity text < UInt64.size)
    {events : List Event} (run : s.run ev limit events = some t) :
    Ran ev limit text s events t := by
  induction events generalizing s with
  | nil =>
    cases run
    exact ⟨h, Nat.le_refl _, fun f failed => Or.inl failed⟩
  | cons e more ih =>
    obtain ⟨u, first, rest⟩ := Option.bind_eq_some_iff.1 run
    obtain ⟨going, step⟩ := Visit.handled first
    have others := ih (h.handled fits going step) rest
    have less := h.effort going step
    have brief := others.brief
    refine ⟨others.hosted, by rw [List.length_cons]; omega, fun f failed => Or.inr ?_⟩
    rcases others.expired f failed with here | member
    · cases h.expired going step here
      exact List.mem_cons_self ..
    · exact List.mem_cons_of_mem _ member

/-- The law of a visit that some events have led to. -/
structure Complete (ev : Evaluator) (limit : Nat) (text : String) (final : Report)
    (events : List Event) (s : Visit) : Prop where
  /-- The visitor is never left behind, and its queue is never full. -/
  attached : ∀ o ∈ s.hub.observers, o.attached = true ∧ o.queue.length < OneShot.capacity text
  /-- Nothing but the time limit makes it fail. -/
  failed : ∀ f, s.outcome = some (.error f) → f = .timeout limit ∧ .expire ∈ events
  /-- What it returns is the state behind all evaluations. -/
  returned : ∀ r, s.outcome = some (.ok r) → s.Done ∧ s.hub.state = final ∧ r = final
  /-- It goes on until it returns, and needs no time limit to do so. -/
  goes_on : s.outcome = none → ∃ e, e ≠ .expire ∧ (s.handle ev limit e).isSome
  stops : .expire ∉ events → (∀ e, e ≠ .expire → s.handle ev limit e = none) →
    s.outcome = some (.ok final)
  brief : events.length ≤ 6 * (Text.lines text.toList).length + 8

theorem complete_of_run (prepared : Prepared text l r reports)
    (fits : OneShot.capacity text < UInt64.size) {events : List Event}
    (run : (start text).run ev limit events = some s) :
    Complete ev limit text (l.settle ev).hub.state events s := by
  have ran := start_hosted.run fits run
  have h := ran.hosted
  have failed : ∀ f, s.outcome = some (.error f) → f = .timeout limit ∧ .expire ∈ events := by
    intro f failed
    refine ⟨h.failed f failed, (ran.expired f failed).resolve_left ?_⟩
    exact fun none_yet => by cases none_yet
  have returned : ∀ state, s.outcome = some (.ok state) →
      s.Done ∧ s.hub.state = (l.settle ev).hub.state ∧ state = (l.settle ev).hub.state := by
    intro state returned
    obtain ⟨done, same⟩ := h.returned state returned
    have final := h.final prepared done
    exact ⟨done, final, same.trans final⟩
  constructor
  · intro o member
    cases h.view with
    | apart _ alone => cases alone ▸ member
    | waits _ _ alone => cases alone ▸ member
    | reads n seen queue asked there merged gapless late requested =>
      have room := h.view.room there
      rw [there, List.mem_singleton] at member
      subst member
      exact ⟨rfl, room⟩
  · exact failed
  · exact returned
  · exact h.goes_on fits
  · intro soon still
    cases out : s.outcome with
    | none =>
      obtain ⟨e, other, able⟩ := h.goes_on fits out
      rw [still e other] at able
      cases able
    | some result =>
      cases result with
      | error f => exact absurd (failed f out).2 soon
      | ok r => rw [(returned r out).2.2]
  · have brief := ran.brief
    have items := Calc.length_parse text
    rw [start_effort] at brief
    omega

/-- A text is evaluated once: the evaluation ends with a settled state that tells about each item in
full, whatever happens when, and the program's own evaluation is one of these visits. -/
theorem one_shot_complete (ev : Evaluator) (limit : Nat) (text : String)
    (fits : OneShot.capacity text < UInt64.size) :
    ∃ (l : Live) (r : Revision),
      (Live.start (OneShot.capacity text)).edit text = (l, .ok r) ∧
      (l.settle ev).hub.state.order = some r.order ∧
      (l.settle ev).hub.state.settled = true ∧
      List.Forall₂ ((l.settle ev).Tells ev) (Calc.parse text) r ∧
      OneShot.evaluate text limit =
        (if ((l.settle (.calc ∅)).cells.endTime? ∅).any (limit ≤ ·) then .error (.timeout limit)
        else .ok (l.settle (.calc ∅)).hub.state) ∧
      ∀ (events : List Event) (s : Visit), (start text).run ev limit events = some s →
        Complete ev limit text (l.settle ev).hub.state events s := by
  obtain ⟨l, r, reports, prepared⟩ := OneShot.exists_prepared fits
  refine ⟨l, r, prepared.edited, prepared.order_settled ev fits, prepared.settled ev fits,
    prepared.tells ev fits, prepared.evaluate fits limit, ?_⟩
  intro events s run
  exact complete_of_run prepared fits run

theorem one_shot_complete_when_late : ∃ (s : Visit) (l : Live) (r : Revision),
    (start "a = 1\nb = a\nc = (").run (.calc ∅) 9
      [.work .turn, .work .add, .work (.finish ⟨0⟩), .work .add, .work .add, .work .close,
        .work .receive, .ask, .work (.finish ⟨1⟩), .work .receive, .work .receive, .work .receive,
        .work .receive, .attach, .work .receive, .next, .next] = some s ∧
    (Live.start 5).edit "a = 1\nb = a\nc = (" = (l, .ok r) ∧
    s.outcome = some (.ok (l.settle (.calc ∅)).hub.state) := by
  have ends : ((start "a = 1\nb = a\nc = (").run (.calc ∅) 9
      [.work .turn, .work .add, .work (.finish ⟨0⟩), .work .add, .work .add, .work .close,
        .work .receive, .ask, .work (.finish ⟨1⟩), .work .receive, .work .receive, .work .receive,
        .work .receive, .attach, .work .receive, .next, .next]).isSome = true := by cbv
  have ok : (Option.get _ ends).outcome.map Except.isOk = some true := by cbv
  have fits : OneShot.capacity "a = 1\nb = a\nc = (" < UInt64.size := by
    have lines : OneShot.capacity "a = 1\nb = a\nc = (" = 5 := by cbv
    rw [lines]
    decide
  have run := (Option.some_get ends).symm
  obtain ⟨l, r, edited, _, _, _, _, complete⟩ := one_shot_complete (.calc ∅) 9 _ fits
  obtain ⟨out, returned, good⟩ := Option.map_eq_some_iff.1 ok
  cases out with
  | error f => cases good
  | ok state =>
    obtain ⟨_, _, rfl⟩ := (complete _ _ run).returned state returned
    exact ⟨_, l, r, run, edited, returned⟩

end Visit

end Worksheet
