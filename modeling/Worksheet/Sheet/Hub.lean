import Worksheet.Report
/-! The hub merges every published report into one state and passes it on to observers. An observer
first gets the state at the moment it came; one whose queue is full is left behind. -/
namespace Worksheet

structure Observer where
  /-- What has been sent and not yet received, the oldest first. -/
  queue : List Report
  attached : Bool
  deriving DecidableEq

/-- What an observer gets when it asks for one more report. -/
inductive Receipt
  | report (report : Report)
  /-- Nothing is queued, but more may come. -/
  | nothing
  | ended
  deriving DecidableEq

namespace Observer

/-- Sends a report, if there is room for it; otherwise the observer is left behind for good. -/
def offer (room : Nat) (r : Report) (o : Observer) : Observer :=
  if o.attached then
    if o.queue.length < room then { o with queue := o.queue ++ [r] }
    else { o with attached := false }
  else o

/-- Asks for the oldest report in the queue. -/
def next (o : Observer) : Receipt × Observer :=
  match o.queue with
  | r :: rest => (.report r, { o with queue := rest })
  | [] => (if o.attached then .nothing else .ended, o)

end Observer

structure Hub where
  running : Bool
  capacity : Nat
  state : Report
  /-- All observers that ever came, numbered from zero. -/
  observers : List Observer

namespace Hub

/-- A hub that keeps so many reports for each observer. No queue can be made for more than
`2 ^ 61 - 1` reports, so larger capacities are outside this model. -/
def start (capacity : Nat) : Hub := ⟨true, capacity, .empty, []⟩

/-- A queue always has room for one report. -/
def room (h : Hub) : Nat := max h.capacity 1

def publish (h : Hub) (r : Report) : Hub :=
  { h with state := h.state.merge r, observers := h.observers.map (·.offer h.room r) }

def deliver (h : Hub) (r : Report) : Hub := if h.running then h.publish r else h

/-- Takes on an observer, whose number is the count of those before it. Its queue is made here, where
a capacity above `2 ^ 61 - 1` would be refused: that no observer comes then is not modelled. -/
def subscribe (h : Hub) : Hub := { h with observers := h.observers ++ [⟨[h.state], true⟩] }

def stop (h : Hub) : Hub := { h with running := false }

/-- What the observer of a number has not received yet, and whether more may come. -/
def pending (h : Hub) (number : Nat) : List Report × Bool :=
  match h.observers[number]? with
  | some o => (o.queue, o.attached)
  | none => ([], false)

/-- What the observer of a number gets when it asks for one report. -/
def receipt (h : Hub) (number : Nat) : Receipt :=
  match h.observers[number]? with
  | some o => o.next.1
  | none => .ended

def receive (h : Hub) (number : Nat) : Hub :=
  { h with observers := h.observers.modify number fun o => o.next.2 }

def drain (h : Hub) (number : Nat) : Hub :=
  { h with observers := h.observers.modify number fun o => { o with queue := [] } }

def detach (h : Hub) (number : Nat) : Hub :=
  { h with observers := h.observers.modify number fun _ => ⟨[], false⟩ }

end Hub

namespace Report

/-- The key of a report that an evaluation has ended. -/
def finishedKey? (r : Report) : Option Key :=
  match r.order, r.entries.toList with
  | none, [(k, ⟨none, some _, _⟩)] => some k
  | _, _ => none

/-- Puts a report in front of others, behind those of evaluations with a smaller key. -/
def place (r : Report) : List Report → List Report
  | [] => [r]
  | s :: rest =>
    match r.finishedKey?, s.finishedKey? with
    | some k, some j => if j < k then s :: place r rest else r :: s :: rest
    | _, _ => r :: s :: rest

/-- Cells end in no fixed order. This puts each run of their reports in the order of their keys. -/
def inKeyOrder (rs : List Report) : List Report := rs.foldr place []

end Report

end Worksheet
