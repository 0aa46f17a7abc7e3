import Worksheet.Proofs.Stream
/-! Observers of a hub. Commands and what observers do come in any order. An observer sees the state
at the moment it came and then every report, in order, until its queue is full or it goes away; and
it sees the same whatever other observers do. -/
namespace Worksheet

namespace Hub

/-- What reaches a hub: the commands in its inbox, and what its observers do. -/
inductive Event
  | publish (report : Report)
  | subscribe
  | snapshot
  | receive (number : Nat)
  | detach (number : Nat)
  deriving DecidableEq

def Event.published? : Event → Option Report
  | publish r => some r
  | _ => none

/-- What the observer of a number notices of an event. -/
def Event.noticed? (number : Nat) : Event → Option Notice
  | publish r => some (.report r)
  | receive k => if k = number then some .receive else none
  | detach k => if k = number then some .leave else none
  | _ => none

def published (events : List Event) : List Report := events.filterMap Event.published?

def noticed (number : Nat) (events : List Event) : List Notice :=
  events.filterMap (Event.noticed? number)

/-- How many observers have come. -/
def arrivals (events : List Event) : Nat := events.count .subscribe

def handle (h : Hub) : Event → Hub
  | .publish r => h.publish r
  | .subscribe => h.subscribe
  | .snapshot => h
  | .receive number => h.receive number
  | .detach number => h.detach number

def run (h : Hub) (events : List Event) : Hub := events.foldl handle h

/-- What the observer of a number gets, each time it asks. -/
def answers (number : Nat) (h : Hub) : List Event → List Receipt
  | [] => []
  | e :: more =>
    (if e = .receive number then [h.receipt number] else []) ++ answers number (h.handle e) more

def received (number : Nat) (h : Hub) (events : List Event) : List Report :=
  (h.answers number events).filterMap Receipt.report?

variable {h : Hub} {n : Nat} {o : Observer} {events : List Event}

theorem run_append (h : Hub) (events more : List Event) :
    h.run (events ++ more) = (h.run events).run more := List.foldl_append

theorem room_handle (h : Hub) (e : Event) : (h.handle e).room = h.room := by
  cases e with
  | publish r => rfl
  | subscribe => rfl
  | snapshot => rfl
  | receive number => rfl
  | detach number => rfl

theorem room_run (h : Hub) (events : List Event) : (h.run events).room = h.room := by
  induction events generalizing h with
  | nil => rfl
  | cons e more ih => exact (ih (h.handle e)).trans (h.room_handle e)

theorem state_run (h : Hub) (events : List Event) :
    (h.run events).state = h.state.mergeAll (published events) := by
  induction events generalizing h with
  | nil => rfl
  | cons e more ih =>
    refine (ih (h.handle e)).trans ?_
    cases e with
    | publish r => rfl
    | subscribe => rfl
    | snapshot => rfl
    | receive number => rfl
    | detach number => rfl

theorem observers_run (h : Hub) (events : List Event) :
    (h.run events).observers.length = h.observers.length + arrivals events := by
  induction events generalizing h with
  | nil => rfl
  | cons e more ih =>
    refine (ih (h.handle e)).trans ?_
    cases e with
    | publish r => simp [handle, publish, arrivals]
    | subscribe => simp [handle, subscribe, arrivals]; omega
    | snapshot => simp [handle, arrivals]
    | receive number => simp [handle, receive, arrivals]
    | detach number => simp [handle, detach, arrivals]

/-- An event changes an observer by what the observer notices of it. -/
theorem observer_handle (there : h.observers[n]? = some o) (e : Event) :
    (h.handle e).observers[n]? = some (o.follow h.room (e.noticed? n).toList) := by
  cases e with
  | publish r => simp [handle, publish, there, Event.noticed?, Observer.follow, Observer.notice]
  | subscribe =>
    have known : n < h.observers.length := (List.getElem?_eq_some_iff.1 there).1
    exact (List.getElem?_append_left known).trans there
  | snapshot => exact there
  | receive k =>
    by_cases same : k = n
    · simp [handle, receive, there, Event.noticed?, same, Observer.follow, Observer.notice]
    · simp [handle, receive, there, Event.noticed?, same, Observer.follow]
  | detach k =>
    by_cases same : k = n
    · simp [handle, detach, there, Event.noticed?, same, Observer.follow, Observer.notice]
    · simp [handle, detach, there, Event.noticed?, same, Observer.follow]

theorem noticed_cons (n : Nat) (e : Event) (more : List Event) :
    noticed n (e :: more) = (e.noticed? n).toList ++ noticed n more := by
  rw [noticed, List.filterMap_cons]
  cases e.noticed? n with
  | none => rfl
  | some x => rfl

/-- An observer is what it has noticed makes of it, and nothing else. -/
theorem observer_run (there : h.observers[n]? = some o) (events : List Event) :
    (h.run events).observers[n]? = some (o.follow h.room (noticed n events)) := by
  induction events generalizing h o with
  | nil => exact there
  | cons e more ih =>
    have rest := ih (observer_handle there e)
    rw [room_handle] at rest
    rw [noticed_cons, Observer.follow_append]
    exact rest

theorem answers_run (there : h.observers[n]? = some o) (events : List Event) :
    h.answers n events = o.receipts h.room (noticed n events) := by
  induction events generalizing h o with
  | nil => rfl
  | cons e more ih =>
    have rest := ih (observer_handle there e)
    rw [room_handle] at rest
    rw [answers, rest, noticed_cons, Observer.receipts_append]
    refine congrArg (· ++ _) ?_
    cases e with
    | publish r => rfl
    | subscribe => rfl
    | snapshot => rfl
    | detach k =>
      by_cases same : k = n
      · simp [Event.noticed?, same, Observer.receipts, Observer.answer]
      · simp [Event.noticed?, same, Observer.receipts]
    | receive k =>
      by_cases same : k = n
      · simp [Event.noticed?, same, Observer.receipts, Observer.answer, receipt, there]
      · simp [Event.noticed?, same, Observer.receipts]

theorem received_run (there : h.observers[n]? = some o) (events : List Event) :
    h.received n events = o.received h.room (noticed n events) := by
  rw [received, answers_run there]
  rfl

theorem reports_noticed (n : Nat) (events : List Event) :
    (noticed n events).filterMap Notice.report? = published events := by
  rw [noticed, published, List.filterMap_filterMap]
  refine congrArg (List.filterMap · events) (funext fun e => ?_)
  cases e with
  | publish r => rfl
  | subscribe => rfl
  | snapshot => rfl
  | receive k =>
    by_cases same : k = n
    · simp [Event.noticed?, Event.published?, same, Notice.report?]
    · simp [Event.noticed?, Event.published?, same]
  | detach k =>
    by_cases same : k = n
    · simp [Event.noticed?, Event.published?, same, Notice.report?]
    · simp [Event.noticed?, Event.published?, same]

theorem noticed_append (n : Nat) (events more : List Event) :
    noticed n (events ++ more) = noticed n events ++ noticed n more := List.filterMap_append

theorem leave_noticed : Notice.leave ∈ noticed n events ↔ Event.detach n ∈ events := by
  rw [noticed, List.mem_filterMap]
  constructor
  · rintro ⟨e, member, here⟩
    cases e with
    | detach k =>
      simp only [Event.noticed?] at here
      split at here
      · rename_i same
        exact same ▸ member
      · cases here
    | receive k =>
      simp only [Event.noticed?] at here
      split at here
      · cases here
      · cases here
    | publish r => cases here
    | subscribe => cases here
    | snapshot => cases here
  · intro member
    exact ⟨_, member, if_pos rfl⟩

theorem asked_noticed (n : Nat) (events : List Event) :
    Observer.asked (noticed n events) = events.count (.receive n) := by
  induction events with
  | nil => rfl
  | cons e more ih =>
    have split : Observer.asked (noticed n (e :: more)) =
        Observer.asked (noticed n more) + Observer.asked (e.noticed? n).toList := by
      rw [noticed_cons, Observer.asked, List.count_append, Nat.add_comm]
      rfl
    rw [split, ih, List.count_cons]
    refine congrArg _ ?_
    cases e with
    | publish r => rfl
    | subscribe => rfl
    | snapshot => rfl
    | detach k =>
      by_cases same : k = n
      · simp [Event.noticed?, same, Observer.asked]
      · simp [Event.noticed?, same, Observer.asked]
    | receive k =>
      by_cases same : k = n
      · simp [Event.noticed?, same, Observer.asked]
      · simp [Event.noticed?, same, Observer.asked]

theorem drain_receive (h : Hub) (n : Nat) : (h.receive n).drain n = h.drain n := by
  refine congrArg (Hub.mk h.running h.capacity h.state) (List.ext_getElem? fun i => ?_)
  simp only [receive, List.getElem?_modify]
  cases h.observers[i]? with
  | none => rfl
  | some o =>
    by_cases same : n = i
    · simp [same, Observer.next_attached]
    · simp [same]

/-- To drain an observer is to let it receive all that is queued. -/
theorem drain_eq_run (there : h.observers[n]? = some o) :
    h.run (List.replicate o.queue.length (.receive n)) = h.drain n ∧
      h.received n (List.replicate o.queue.length (.receive n)) = (h.pending n).1 := by
  have pending : (h.pending n).1 = o.queue := by simp [Hub.pending, there]
  rw [pending]
  clear pending
  obtain ⟨queue, held⟩ : ∃ queue, o.queue = queue := ⟨_, rfl⟩
  induction queue generalizing h o with
  | nil =>
    rw [held]
    refine ⟨congrArg (Hub.mk h.running h.capacity h.state) (List.ext_getElem? fun i => ?_), rfl⟩
    rw [List.getElem?_modify]
    by_cases same : n = i
    · subst same
      obtain ⟨queue, attached⟩ := o
      cases held
      simp [there]
    · simp [same]
  | cons r rest ih =>
    have taken := Observer.next_of_queued held
    have next : (h.handle (.receive n)).observers[n]? = some { o with queue := rest } := by
      simp [handle, receive, there, taken]
    obtain ⟨all, got⟩ := ih next rfl
    have first : h.receipt n = .report r := by simp [receipt, there, taken]
    have times : List.replicate o.queue.length (Event.receive n) =
        .receive n :: List.replicate rest.length (.receive n) := by
      rw [held, List.length_cons, List.replicate_succ]
    rw [times, held]
    refine ⟨all.trans (drain_receive h n), ?_⟩
    rw [received, answers, if_pos rfl, first, List.singleton_append]
    exact congrArg (r :: ·) got

/-- What an observer noticed before a report is what it noticed of the events before that one. -/
theorem noticed_report {early late : List Notice} {r : Report}
    (split : noticed n events = early ++ .report r :: late) :
    ∃ before after, events = before ++ .publish r :: after ∧ noticed n before = early := by
  obtain ⟨before, others, rfl, here, rest⟩ := List.filterMap_eq_append_iff.1 split
  obtain ⟨silent, e, after, rfl, none_seen, seen, _⟩ := List.filterMap_eq_cons_iff.1 rest
  have sent : e = .publish r := by
    cases e with
    | publish r' =>
      cases seen
      rfl
    | subscribe => cases seen
    | snapshot => cases seen
    | receive k =>
      simp only [Event.noticed?] at seen
      split at seen
      · cases seen
      · cases seen
    | detach k =>
      simp only [Event.noticed?] at seen
      split at seen
      · cases seen
      · cases seen
  subst sent
  refine ⟨before ++ silent, after, by simp, ?_⟩
  have here : noticed n before = early := here
  rw [noticed_append, here]
  have nothing : noticed n silent = [] := List.filterMap_eq_nil_iff.2 none_seen
  rw [nothing, List.append_nil]

theorem exists_arrival (few : n < arrivals events) :
    ∃ before after, events = before ++ .subscribe :: after ∧ arrivals before = n := by
  induction events generalizing n with
  | nil => exact absurd few (Nat.not_lt_zero n)
  | cons e more ih =>
    by_cases here : e = .subscribe
    · subst here
      cases n with
      | zero => exact ⟨[], more, rfl, rfl⟩
      | succ n =>
        have count : arrivals (.subscribe :: more) = arrivals more + 1 := List.count_cons_self
        rw [count] at few
        obtain ⟨before, after, rfl, number⟩ := ih (Nat.lt_of_succ_lt_succ few)
        refine ⟨.subscribe :: before, after, rfl, ?_⟩
        rw [← number]
        exact List.count_cons_self
    · have count : ∀ events, arrivals (e :: events) = arrivals events := fun _ =>
        List.count_cons_of_ne here
      rw [count] at few
      obtain ⟨before, after, rfl, number⟩ := ih few
      exact ⟨e :: before, after, rfl, (count before).trans number⟩

/-- The hub when an observer has come, behind some events. -/
def joined (capacity : Nat) (before : List Event) : Hub :=
  ((start capacity).run before).subscribe

/-- What an observer has received that came behind some events and before others. -/
def stream (capacity : Nat) (before after : List Event) : List Report :=
  (joined capacity before).received (arrivals before) after

/-- The law of an observer that came behind some events and before others. Its number is the count of
those that came before it. -/
structure Served (capacity : Nat) (before after : List Event) (o : Observer) : Prop where
  bounded : o.queue.length ≤ max capacity 1
  /-- While it is attached: the state when it came, then every report since. -/
  gapless : o.attached = true → stream capacity before after ++ o.queue =
    ((start capacity).run before).state :: published after
  merged : o.attached = true →
    Report.empty.mergeAll (stream capacity before after ++ o.queue) =
      ((start capacity).run (before ++ .subscribe :: after)).state
  /-- If it did not go away, the first report that it misses came when its queue was full. -/
  behind : o.attached = false → .detach (arrivals before) ∉ after →
    ∃ early r late full, after = early ++ .publish r :: late ∧
      ((joined capacity before).run early).observers[arrivals before]? = some full ∧
      full.attached = true ∧ full.queue.length = max capacity 1 ∧
      stream capacity before after ++ o.queue =
        ((start capacity).run before).state :: published early
  /-- Then it gets what is queued, in order, and the end. -/
  ends : o.attached = false → ∀ more, .detach (arrivals before) ∉ more →
    ((joined capacity before).run after).answers (arrivals before) more =
      (o.queue.take (more.count (.receive (arrivals before)))).map .report ++
        List.replicate (more.count (.receive (arrivals before)) - o.queue.length) .ended
  /-- From when it goes away, nothing comes to it. -/
  gone : ∀ early late, after = early ++ .detach (arrivals before) :: late →
    stream capacity before after = stream capacity before early ∧ o = ⟨[], false⟩
  /-- What else goes on at the hub changes neither the state nor what the observer gets. -/
  apart : ∀ before' after', published before' = published before →
    noticed (arrivals before') after' = noticed (arrivals before) after →
    ((start capacity).run (before' ++ .subscribe :: after')).state =
        ((start capacity).run (before ++ .subscribe :: after)).state ∧
      ((joined capacity before').run after').observers[arrivals before']? = some o ∧
      (joined capacity before').answers (arrivals before') after' =
        (joined capacity before).answers (arrivals before) after

section Stream

variable {capacity : Nat} {before after : List Event}

theorem joined_room (capacity : Nat) (before : List Event) :
    (joined capacity before).room = max capacity 1 := room_run (start capacity) before

theorem joined_observer (capacity : Nat) (before : List Event) :
    (joined capacity before).observers[arrivals before]? =
      some ⟨[((start capacity).run before).state], true⟩ := by
  have count := observers_run (start capacity) before
  rw [show (start capacity).observers.length = 0 from rfl, Nat.zero_add] at count
  rw [joined, subscribe, ← count]
  exact List.getElem?_concat_length

theorem run_joined (capacity : Nat) (before after : List Event) :
    (start capacity).run (before ++ .subscribe :: after) = (joined capacity before).run after :=
  run_append (start capacity) before (.subscribe :: after)

theorem state_joined (capacity : Nat) (before after : List Event) :
    ((joined capacity before).run after).state =
      ((start capacity).run before).state.mergeAll (published after) :=
  state_run (joined capacity before) after

/-- The observer that came, behind more events. -/
def newcomer (capacity : Nat) (before after : List Event) : Observer :=
  (⟨[((start capacity).run before).state], true⟩ : Observer).follow (max capacity 1)
    (noticed (arrivals before) after)

theorem newcomer_there (capacity : Nat) (before after : List Event) :
    ((joined capacity before).run after).observers[arrivals before]? =
      some (newcomer capacity before after) := by
  rw [observer_run (joined_observer capacity before), joined_room]
  rfl

theorem stream_eq (capacity : Nat) (before after : List Event) : stream capacity before after =
    (⟨[((start capacity).run before).state], true⟩ : Observer).received (max capacity 1)
      (noticed (arrivals before) after) := by
  rw [stream, received_run (joined_observer capacity before), joined_room]

/-- The snapshot that an observer starts with always fits. -/
theorem snapshot_fits (capacity : Nat) (before : List Event) :
    (⟨[((start capacity).run before).state], true⟩ : Observer).queue.length ≤ max capacity 1 :=
  Nat.le_max_right capacity 1

theorem newcomer_gapless (still : (newcomer capacity before after).attached = true) :
    stream capacity before after ++ (newcomer capacity before after).queue =
      ((start capacity).run before).state :: published after := by
  have all := (Observer.follow_attached still).2
  rw [reports_noticed] at all
  rw [stream_eq]
  exact all

theorem newcomer_served (capacity : Nat) (before after : List Event) :
    Served capacity before after (newcomer capacity before after) where
  bounded := Observer.follow_length (snapshot_fits capacity before)
  gapless := newcomer_gapless
  merged := by
    intro still
    rw [newcomer_gapless still, Report.mergeAll_cons, Report.empty_merge, run_joined,
      state_joined]
  behind := by
    intro left stays
    obtain ⟨early, r, late, split, still, full, all⟩ :=
      Observer.left_behind rfl (snapshot_fits capacity before)
        (fun gone => stays (leave_noticed.1 gone)) left
    obtain ⟨first, rest, rfl, here⟩ := noticed_report split
    subst here
    refine ⟨first, r, rest, newcomer capacity before first, rfl, ?_, still, full, ?_⟩
    · exact newcomer_there capacity before first
    · rw [reports_noticed] at all
      rw [stream_eq]
      exact all
  ends := by
    intro left more stays
    have got := (Observer.receipts_left (max capacity 1) left
      fun gone => stays (leave_noticed.1 gone)).1
    rw [answers_run (newcomer_there capacity before after), room_run, joined_room, got,
      asked_noticed]
  gone := by
    rintro early late rfl
    have split : noticed (arrivals before) (early ++ .detach (arrivals before) :: late) =
        noticed (arrivals before) early ++ .leave :: noticed (arrivals before) late := by
      rw [noticed_append, noticed_cons, Event.noticed?, if_pos rfl]
      rfl
    rw [stream_eq, stream_eq, newcomer, split]
    exact Observer.received_leave _ _
  apart := by
    intro before' after' told same
    have reports : published after' = published after := by
      rw [← reports_noticed (arrivals before') after', same, reports_noticed]
    have state : ((start capacity).run before').state = ((start capacity).run before).state := by
      rw [state_run, state_run, told]
    refine ⟨?_, ?_, ?_⟩
    · rw [run_joined, run_joined, state_joined, state_joined, state, reports]
    · rw [newcomer_there, newcomer, newcomer, state, same]
    · rw [answers_run (joined_observer capacity before'), joined_room, state, same,
        answers_run (joined_observer capacity before), joined_room]

end Stream

/-- Every observer of every hub is served: whatever the capacity, and however commands and what
observers do follow each other. -/
theorem observers_served (capacity : Nat) (events : List Event) (n : Nat) (o : Observer)
    (there : ((start capacity).run events).observers[n]? = some o) :
    ∃ before after, events = before ++ .subscribe :: after ∧ arrivals before = n ∧
      Served capacity before after o := by
  have known : n < arrivals events := by
    have few := (List.getElem?_eq_some_iff.1 there).1
    rw [observers_run] at few
    exact Nat.lt_of_lt_of_eq few (Nat.zero_add _)
  obtain ⟨before, after, rfl, rfl⟩ := exists_arrival known
  refine ⟨before, after, rfl, rfl, ?_⟩
  rw [run_joined, newcomer_there] at there
  cases Option.some.inj there
  exact newcomer_served capacity before after

theorem observers_served_when_full : ∃ o before after,
    ((start 0).run [.subscribe, .publish (.ofOrder [⟨0⟩]), .subscribe, .receive 1,
      .publish (.ofOrder [⟨1⟩]), .receive 0]).observers[0]? = some o ∧
    o.attached = false ∧ o.queue = [] ∧ Served 0 before after o := by
  have there : ((start 0).run [.subscribe, .publish (.ofOrder [⟨0⟩]), .subscribe, .receive 1,
      .publish (.ofOrder [⟨1⟩]), .receive 0]).observers[0]? = some ⟨[], false⟩ := by decide
  obtain ⟨before, after, _, _, served⟩ := observers_served 0 _ 0 _ there
  exact ⟨_, before, after, there, rfl, rfl, served⟩

end Hub

end Worksheet
