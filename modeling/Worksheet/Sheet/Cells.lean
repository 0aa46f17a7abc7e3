import Worksheet.Calc.Eval
import Worksheet.Report
/-! Cells. A cell evaluates one declaration instance, once, when all cells it reads from have ended
or were stopped; from then on it serves the environment that the declaration handed on. -/
namespace Worksheet

open Calc (Decl Env Yield)

inductive Outcome
  | done (yield : Yield)
  | failed (message : String)
  /-- The evaluator broke down, with or without a text. -/
  | panicked (text : Option String)

namespace Outcome

def status : Outcome → Status
  | done _ => .complete
  | failed m => .failed m
  | panicked text => .failed ("evaluation panicked: " ++ text.getD "unknown panic")

def output : Outcome → String
  | done y => y.output
  | _ => ""

/-- The environment to serve; a failure serves the fallback. -/
def served (fallback : Env) : Outcome → Env
  | done y => y.env
  | _ => fallback

end Outcome

/-- An evaluator, with the environment that stands in for one that is missing. -/
structure Evaluator where
  fallback : Env
  evaluate : Decl → Env → Outcome

def Evaluator.calc (fallback : Env) : Evaluator where
  fallback := fallback
  evaluate d env :=
    match d.evaluate env with
    | .ok y => .done y
    | .error e => .failed e.message

inductive Phase
  | waiting
  | serving (env : Env)
  | stopped

structure Cell where
  key : Key
  decl : Decl
  /-- The cells it reads from, in the order in which their environments are merged. -/
  parents : List Key
  phase : Phase

namespace Cell

def isWaiting (c : Cell) : Bool :=
  match c.phase with
  | .waiting => true
  | _ => false

def served? (c : Cell) : Option Env :=
  match c.phase with
  | .serving env => some env
  | _ => none

end Cell

structure Cells where
  /-- All cells, the first one started first. -/
  all : List Cell
  /-- The evaluations so far, by the keys of their cells. -/
  calls : List Key

namespace Cells

def empty : Cells := ⟨[], []⟩

instance : Inhabited Cells := ⟨empty⟩

def find? (cs : Cells) (key : Key) : Option Cell := cs.all.find? (·.key = key)

def size (cs : Cells) : Nat := cs.all.length

def start (cs : Cells) (key : Key) (decl : Decl) (parents : List Key) : Cells :=
  { cs with all := cs.all ++ [⟨key, decl, parents, .waiting⟩] }

def setPhase (cs : Cells) (key : Key) (phase : Phase) : Cells :=
  { cs with all := cs.all.map fun c => if c.key = key then { c with phase := phase } else c }

def stop (cs : Cells) (key : Key) : Cells := cs.setPhase key .stopped

def stopAll (cs : Cells) : Cells :=
  { cs with all := cs.all.map fun c => { c with phase := .stopped } }

/-- What a parent hands on: the fallback if it was stopped. -/
def servedOr (cs : Cells) (fallback : Env) (key : Key) : Env :=
  ((cs.find? key).bind Cell.served?).getD fallback

/-- The environment for a declaration: the merge of what its parents hand on, where the value of a
later parent counts. -/
def input (cs : Cells) (fallback : Env) (parents : List Key) : Env :=
  parents.foldl (fun env p => env.union (cs.servedOr fallback p)) ∅

def ready (cs : Cells) (c : Cell) : Bool :=
  c.parents.all fun p => !(cs.find? p).any Cell.isWaiting

/-- Evaluates a cell that waits and whose parents do not, and reports how it ended. -/
def finish (ev : Evaluator) (cs : Cells) (key : Key) : Option (Report × Cells) := do
  let c ← cs.find? key
  if c.isWaiting && cs.ready c then
    let outcome := ev.evaluate c.decl (cs.input ev.fallback c.parents)
    let later := cs.setPhase key (.serving (outcome.served ev.fallback))
    some (.finished key outcome.status outcome.output, { later with calls := cs.calls ++ [key] })
  else none

/-- Evaluates the given cells in turn, as far as they can be. -/
def finishAll (ev : Evaluator) (cs : Cells) : List Key → List Report × Cells
  | [] => ([], cs)
  | key :: more =>
    match cs.finish ev key with
    | none => finishAll ev cs more
    | some (report, later) =>
      let (reports, last) := finishAll ev later more
      (report :: reports, last)

def waiting (cs : Cells) : List Key := (cs.all.filter Cell.isWaiting).map Cell.key

def settle (ev : Evaluator) (cs : Cells) : List Report × Cells := cs.finishAll ev cs.waiting

def callCounts (cs : Cells) : SortedMap String Nat :=
  (cs.calls.filterMap cs.find?).foldl (fun m c => m.insertWith (· + ·) c.decl.source 1) ∅

end Cells

end Worksheet
