import Worksheet.Failure
import Worksheet.Sheet.Cells
import Worksheet.Sheet.Memo
import Worksheet.Sheet.Scope
/-! The desk takes in the items of texts, one after another. Each item leaves a report for the hub,
and fails if the hub takes no reports any more. -/
namespace Worksheet

open Calc (Decl Section)

inductive Placement
  | broken
  | reused
  | started
  deriving DecidableEq, Repr

structure Placed where
  key : Key
  placement : Placement
  deriving DecidableEq, Repr

/-- What an edit did: its items in order. -/
abbrev Revision := List Placed

namespace Revision

def order (r : Revision) : List Key := r.map Placed.key

def count (r : Revision) (p : Placement) : Nat := (r.filter (·.placement = p)).length

end Revision

/-- An item that has been taken in, with what there is to report about it. -/
structure Entered where
  placed : Placed
  report : Option Report

structure Desk where
  memo : Memo
  scope : Scope
  cells : Cells

namespace Desk

def empty : Desk := ⟨.empty, ∅, .empty⟩

/-- Begins a text. The names of the text before it mean nothing any more. -/
def turn (d : Desk) : Desk := { d with scope := ∅ }

/-- The instance of a declaration that stands at this place of a text. -/
def recipe (d : Desk) (decl : Decl) : Recipe := ⟨decl.source, Scope.resolve d.scope decl.free⟩

/-- Takes in a text that cannot be read. It gets a new key each time. -/
def addBroken (d : Desk) (running : Bool) (source message : String) :
    Desk × Except Failure Entered :=
  let key := d.memo.nextKey
  let d := { d with memo := d.memo.issue }
  if running then (d, .ok ⟨⟨key, .broken⟩, some (.rejected key source message)⟩)
  else (d, .error .hubClosed)

/-- Gives a declaration instance a key and a cell. It is recorded only when its cell exists. -/
def addNew (d : Desk) (running : Bool) (decl : Decl) (parents : KeySet) :
    Desk × Except Failure Entered :=
  match parents.toList.find? fun p => (d.cells.find? p).isNone with
  | some p => (d, .error (.unknownParent p))
  | none =>
    let key := d.memo.nextKey
    let d := { d with memo := d.memo.issue }
    if running then
      let (memo, held) := d.memo.insert ⟨decl.source, parents⟩ key
      ({ memo := memo
         cells := d.cells.start key decl parents.toList
         scope := Scope.bind d.scope decl.bound held },
        .ok ⟨⟨held, .started⟩, some (.announced key decl.source)⟩)
    else (d, .error .hubClosed)

def addDecl (d : Desk) (running : Bool) (decl : Decl) : Desk × Except Failure Entered :=
  match d.memo.lookup (d.recipe decl) with
  | some key =>
    ({ d with scope := Scope.bind d.scope decl.bound key }, .ok ⟨⟨key, .reused⟩, none⟩)
  | none => d.addNew running decl (d.recipe decl).parents

def add (d : Desk) (running : Bool) : Section → Desk × Except Failure Entered
  | .broken source e => d.addBroken running source e.message
  | .decl decl => d.addDecl running decl

end Desk

end Worksheet
