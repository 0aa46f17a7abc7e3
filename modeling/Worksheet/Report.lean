import Worksheet.Key
/-! Reports. A report is an update, and the merge of all updates so far is a report too: an order of
keys, if one is known, and what is known about each key. -/
namespace Worksheet

inductive Status
  | complete
  | failed (message : String)
  deriving DecidableEq, Repr

structure Entry where
  source : Option String := none
  status : Option Status := none
  output : String := ""
  deriving DecidableEq, Repr

namespace Entry

/-- A later source or status replaces an earlier one; output goes behind what is there. -/
def merge (old new : Entry) : Entry where
  source := new.source.or old.source
  status := new.status.or old.status
  output := old.output ++ new.output

end Entry

structure Report where
  order : Option (List Key)
  entries : SortedMap Key Entry
  deriving DecidableEq

namespace Report

def empty : Report := ⟨none, ∅⟩

instance : Inhabited Report := ⟨empty⟩

def ofOrder (keys : List Key) : Report := ⟨some keys, ∅⟩

def ofEntry (key : Key) (entry : Entry) : Report := ⟨none, (∅ : SortedMap Key Entry).insert key entry⟩

def announced (key : Key) (source : String) : Report := ofEntry key { source := some source }

def finished (key : Key) (status : Status) (output : String) : Report :=
  ofEntry key { status := some status, output := output }

def rejected (key : Key) (source message : String) : Report :=
  ofEntry key { source := some source, status := some (.failed message) }

def merge (state update : Report) : Report where
  order := update.order.or state.order
  entries := state.entries.mergeWith Entry.merge update.entries

def mergeAll (state : Report) (updates : List Report) : Report := updates.foldl merge state

def status? (r : Report) (key : Key) : Option Status := (r.entries.get? key).bind Entry.status

/-- There is an order, and each of its keys has a status. -/
def settled (r : Report) : Bool :=
  match r.order with
  | some keys => keys.all fun k => (r.status? k).isSome
  | none => false

def ordered (r : Report) : List (Key × Option Entry) :=
  (r.order.getD []).map fun k => (k, r.entries.get? k)

end Report

end Worksheet
