import Worksheet.Failure
import Worksheet.Report.Wire
import Worksheet.Sheet.Hub
/-! The hub over HTTP: `/snapshot` is the merged state, and `/events` is a stream that starts with it
and goes on with each report. -/
namespace Worksheet.Http

inductive Body
  | text (content : String)
  | feed (number : Nat)
  deriving DecidableEq, Repr

structure Response where
  status : Nat
  contentType : Option String
  cacheControl : Option String
  body : Body
  deriving DecidableEq, Repr

def plainText : String := "text/plain; charset=utf-8"

def notFound : Response := ⟨404, some plainText, none, .text "not found\n"⟩

def notAllowed : Response := ⟨405, none, none, .text ""⟩

def unavailable : Response := ⟨503, some plainText, none, .text Failure.hubClosed.message⟩

def path (target : List Char) : List Char := target.takeWhile fun c => c ≠ '?' && c ≠ '#'

inductive Route
  | events
  | snapshot
  deriving DecidableEq, Repr

def Route.ofTarget? (target : String) : Option Route :=
  match String.ofList (path target.toList) with
  | "/events" => some .events
  | "/snapshot" => some .snapshot
  | _ => none

def fetch (h : Hub) (route : Route) : Hub × Response :=
  if h.running then
    match route with
    | .events =>
      (h.subscribe, ⟨200, some "text/event-stream", some "no-cache", .feed h.observers.length⟩)
    | .snapshot => (h, ⟨200, some "application/json", none, .text h.state.encode⟩)
  else (h, unavailable)

/-- Without its body, a stream has no reader and its observer goes away. -/
def withoutBody (h : Hub) (r : Response) : Hub × Response :=
  match r.body with
  | .feed number => (h.detach number, { r with body := .text "" })
  | .text _ => (h, { r with body := .text "" })

/-- Answers a request. A target without a route is not found by any method. -/
def respond (h : Hub) (method target : String) : Hub × Response :=
  match Route.ofTarget? target with
  | none => (h, notFound)
  | some route =>
    match method with
    | "GET" => fetch h route
    | "HEAD" =>
      let (h, r) := fetch h route
      withoutBody h r
    | _ => (h, notAllowed)

end Worksheet.Http
