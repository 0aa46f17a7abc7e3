import Worksheet.Sheet.Desk
import Worksheet.Sheet.Hub
/-! A worksheet under edit. Each edit is read as a whole, but only declaration instances never seen
before get a key and a cell. -/
namespace Worksheet

open Calc (Section)

structure Live extends Desk where
  hub : Hub

namespace Live

def start (capacity : Nat) : Live := ⟨.empty, .start capacity⟩

/-- Takes in an item and publishes what there is to report about it. -/
def add (l : Live) (item : Section) : Live × Except Failure Placed :=
  match l.toDesk.add l.hub.running item with
  | (d, .ok e) => (⟨d, e.report.elim l.hub l.hub.publish⟩, .ok e.placed)
  | (d, .error f) => (⟨d, l.hub⟩, .error f)

def addAll (l : Live) : List Section → Live × Except Failure Revision
  | [] => (l, .ok [])
  | item :: more =>
    match l.add item with
    | (l, .error e) => (l, .error e)
    | (l, .ok placed) =>
      let (l, rest) := l.addAll more
      (l, rest.map (placed :: ·))

/-- Publishes the order of a text whose items have been taken in. -/
def close (l : Live) (r : Revision) : Live × Except Failure Revision :=
  if l.hub.running then ({ l with hub := l.hub.publish (.ofOrder r.order) }, .ok r)
  else (l, .error .hubClosed)

/-- Takes in the rest of a text, behind items that have been placed. -/
def complete (l : Live) (placed : Revision) (rest : List Section) : Live × Except Failure Revision :=
  match l.addAll rest with
  | (l, .error e) => (l, .error e)
  | (l, .ok more) => l.close (placed ++ more)

def edit (l : Live) (text : String) : Live × Except Failure Revision :=
  ({ l with toDesk := l.toDesk.turn } : Live).complete [] (Calc.parse text)

def editEach (l : Live) : List String → Live × Except Failure (List Revision)
  | [] => (l, .ok [])
  | text :: more =>
    match l.edit text with
    | (l, .error e) => (l, .error e)
    | (l, .ok r) =>
      let (l, rest) := l.editEach more
      (l, rest.map (r :: ·))

def editAll (l : Live) (texts : List String) : Live × Except Failure Unit :=
  let (l, outcome) := l.editEach texts
  (l, outcome.map fun _ => ())

def settle (ev : Evaluator) (l : Live) : Live :=
  let (reports, cells) := l.cells.settle ev
  { l with cells := cells, hub := reports.foldl Hub.deliver l.hub }

def shutdown (l : Live) : Live := { l with cells := l.cells.stopAll }

def snapshot (l : Live) : Except Failure Report :=
  if l.hub.running then .ok l.hub.state else .error .hubClosed

end Live

end Worksheet
