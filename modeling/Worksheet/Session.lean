import Worksheet.Http
import Worksheet.Sheet.Live
/-! A session with a worksheet: requests in a row, with names for the observers and streams that are
still open. Cells evaluate only when a request looks at what they have done. -/
namespace Worksheet

open Calc (Decl Env)

/-- An open body: a feed, or a text until it has been taken. -/
inductive Stream
  | feed (number : Nat)
  | text (content : Option String)
  deriving DecidableEq, Repr

inductive Request
  | edit (text : String)
  /-- Ends the editing and stops all cells. -/
  | shutdown
  | start (key : Key) (decl : Decl) (parents : List Key)
  | stop (key : Key)
  | snapshot
  | env (key : Key)
  | counts
  | publish (report : Except Json.Fault Report)
  | subscribe (name : String)
  | drain (name : String)
  | detach (name : String)
  | fetch (method target : String)
  | openStream (name target : String)
  | frames (name : String)

inductive Served
  | env (env : Env)
  | stopped
  | unknown

inductive Answer
  | nothing
  | flag (value : Bool)
  | key (key : Key)
  | failure (failure : Failure)
  | fault (fault : Json.Fault)
  | revision (revision : Revision) (cells : Nat)
  | ended
  | state (report : Report)
  | served (served : Served)
  | counts (counts : SortedMap String Nat)
  | updates (reports : List Report) (closed : Bool)
  | noObserver
  | response (response : Http.Response) (body : String)
  | opened (response : Http.Response)
  | chunks (chunks : List String) (closed : Bool)
  | noStream

structure Session where
  live : Live
  editing : Bool
  observers : SortedMap String Nat
  streams : SortedMap String Stream

namespace Request

/-- Whether the cells that wait evaluate before the request is answered. -/
def settles : Request → Bool
  | edit _ => false
  | shutdown => false
  | start .. => false
  | stop _ => false
  | _ => true

end Request

namespace Session

def start (capacity : Nat) : Session := ⟨.start capacity, true, ∅, ∅⟩

def startClosed (capacity : Nat) : Session :=
  let s := start capacity
  { s with live.hub := s.live.hub.stop }

def settle (ev : Evaluator) (s : Session) : Session := { s with live := s.live.settle ev }

def withHub (s : Session) (h : Hub) : Session := { s with live.hub := h }

def serve (s : Session) (key : Key) : Served :=
  match s.live.cells.find? key with
  | none => .unknown
  | some c =>
    match c.served? with
    | some env => .env env
    | none => .stopped

def closeObserver (s : Session) (name : String) : Session × Bool :=
  match s.observers.get? name with
  | none => (s, false)
  | some number =>
    ({ s with live.hub := s.live.hub.detach number, observers := s.observers.erase name }, true)

def closeStream (s : Session) (name : String) : Session × Bool :=
  match s.streams.get? name with
  | none => (s, false)
  | some (.text _) => ({ s with streams := s.streams.erase name }, true)
  | some (.feed number) =>
    ({ s with live.hub := s.live.hub.detach number, streams := s.streams.erase name }, true)

def feedChunks (s : Session) (number : Nat) : List String × Bool :=
  let (reports, attached) := s.live.hub.pending number
  ((Report.inKeyOrder reports).map Report.frame, !attached)

def answer (s : Session) : Request → Session × Answer
  | .edit text =>
    if s.editing then
      match s.live.edit text with
      | (live, .ok r) => ({ s with live := live }, .revision r live.cells.size)
      | (live, .error e) => ({ s with live := live }, .failure e)
    else (s, .ended)
  | .shutdown => ({ s with live := s.live.shutdown, editing := false }, .nothing)
  | .start key decl parents =>
    ({ s with live.cells := s.live.cells.start key decl parents }, .key key)
  | .stop key =>
    ({ s with live.cells := s.live.cells.stop key }, .flag (s.live.cells.find? key).isSome)
  | .snapshot =>
    match s.live.snapshot with
    | .ok r => (s, .state r)
    | .error e => (s, .failure e)
  | .env key => (s, .served (s.serve key))
  | .counts => (s, .counts s.live.cells.callCounts)
  | .publish (.error f) => (s, .fault f)
  | .publish (.ok r) =>
    if s.live.hub.running then (s.withHub (s.live.hub.publish r), .nothing)
    else (s, .failure .hubClosed)
  | .subscribe name =>
    if s.live.hub.running then
      let (s, _) := s.closeObserver name
      let number := s.live.hub.observers.length
      ({ s with
          live.hub := s.live.hub.subscribe
          observers := s.observers.insert name number }, .nothing)
    else (s, .failure .hubClosed)
  | .drain name =>
    match s.observers.get? name with
    | none => (s, .noObserver)
    | some number =>
      let (reports, attached) := s.live.hub.pending number
      (s.withHub (s.live.hub.drain number), .updates (Report.inKeyOrder reports) (!attached))
  | .detach name =>
    let (s, observer) := s.closeObserver name
    let (s, stream) := s.closeStream name
    (s, .flag (observer || stream))
  | .fetch method target =>
    let (hub, r) := Http.respond s.live.hub method target
    match r.body with
    | .text content => (s.withHub hub, .response r content)
    | .feed number =>
      let (chunks, _) := (s.withHub hub).feedChunks number
      (s.withHub (hub.detach number), .response r (String.join chunks))
  | .openStream name target =>
    let (s, _) := s.closeStream name
    let (hub, r) := Http.respond s.live.hub "GET" target
    let stream :=
      match r.body with
      | .text content => .text (some content)
      | .feed number => .feed number
    let s := s.withHub hub
    ({ s with streams := s.streams.insert name stream }, .opened r)
  | .frames name =>
    match s.streams.get? name with
    | none => (s, .noStream)
    | some (.text content) =>
      ({ s with streams := s.streams.insert name (.text none) }, .chunks content.toList true)
    | some (.feed number) =>
      let (chunks, closed) := s.feedChunks number
      (s.withHub (s.live.hub.drain number), .chunks chunks closed)

/-- Answers a request, after the cells have evaluated if it looks at them. -/
def step (ev : Evaluator) (s : Session) (r : Request) : Session × Answer :=
  (if r.settles then s.settle ev else s).answer r

def run (ev : Evaluator) (s : Session) : List Request → List Answer
  | [] => []
  | r :: more =>
    let (s, a) := s.step ev r
    a :: s.run ev more

end Session

end Worksheet
