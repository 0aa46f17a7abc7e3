import Worksheet.Calc.Pause
import Worksheet.Sheet.Live
import Worksheet.Text.Lines
/-! Evaluating a text once, as an observer of a worksheet that is edited a single time. -/
namespace Worksheet

namespace Cells

/-- When each cell has ended, in milliseconds, if cells only wait for their parents and for the
sleeps of their own evaluation. -/
def endTimes (cs : Cells) (fallback : Calc.Env) : SortedMap Key Nat :=
  cs.all.foldl (fun times c =>
    let begin := (c.parents.filterMap times.get?).foldl max 0
    let pause := Calc.pause (cs.input fallback c.parents) c.decl.item.expr
    times.insert c.key (begin + pause)) ∅

def endTime? (cs : Cells) (fallback : Calc.Env) : Option Nat :=
  ((cs.endTimes fallback).toList.map (·.2)).max?

end Cells

namespace OneShot

/-- The merge of the received reports up to the first that settles it. -/
def collect (state : Report) : List Report → Option Report
  | [] => none
  | r :: more =>
    let state := state.merge r
    if state.settled then some state else collect state more

/-- How many reports can still come to an observer of a text: one for each of its items, behind the
state at the beginning. No text has more items than lines. -/
def capacity (text : String) : Nat := (Text.lines text.toList).length + 2

/-- The worksheet of a text, before any cell has evaluated, and its one observer. -/
def prepare (text : String) : Except Failure Live :=
  let (live, outcome) := (Live.start (capacity text)).edit text
  outcome.map fun _ => { live with hub := live.hub.subscribe }

/-- The settled report of a text. Cells that are not done before the limit, in milliseconds, are too
late. -/
def evaluate (text : String) (limit : Nat) : Except Failure Report := do
  let ev := Evaluator.calc ∅
  let live := (← prepare text).settle ev
  if (live.cells.endTime? ev.fallback).any (limit ≤ ·) then .error (.timeout limit)
  else
    match collect .empty (live.hub.pending 0).1 with
    | some state => .ok state
    | none => .error .hubClosed

/-- How long the evaluation of a text takes, in milliseconds, or the limit if that is less. -/
def duration (text : String) (limit : Nat) : Nat :=
  match prepare text with
  | .error _ => 0
  | .ok live =>
    let ev := Evaluator.calc ∅
    min limit (((live.settle ev).cells.endTime? ev.fallback).getD 0)

end OneShot

end Worksheet
