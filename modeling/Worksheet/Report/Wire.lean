import Worksheet.Json.Shape
import Worksheet.Json.Tree
import Worksheet.Report
/-! Reports as JSON: an array of the order, or `null`, and of the entries as pairs of a key and a
record. -/
namespace Worksheet

open Json

namespace Key

def toTree (k : Key) : Tree := .whole k.val.toNat

def read : Reader Key := readWhole.map Key.mk

end Key

namespace Status

def toTree : Status → Tree
  | complete => .object [("complete", .null)]
  | failed message => .object [("failed", .string message)]

/-- Takes the value of a status whose name has been read. -/
def readNamed (name : String) : Except Fault (Reader Status) :=
  match name with
  | "complete" => .ok (readNull.map fun _ => .complete)
  | "failed" => .ok (readString.map .failed)
  | _ => .error .mismatched

/-- Takes a status: an object with a single member. A name without a value is a mismatch. -/
def read : Reader Status := spaced fun text =>
  match text with
  | [] => .error .truncated
  | '{' :: rest => do
    let name ← readString rest
    let read ← readNamed name.value
    let colon := name.next (← readColon name.rest)
    let t := colon.next (← read colon.rest)
    return ((t.next (← readMark '}' malformed t.rest)).as t.value).behind '{'
  | '"' :: rest => .error (wrongKind ('"' :: rest))
  | _ => .error .malformed

end Status

def optionTree (f : α → Tree) : Option α → Tree
  | none => .null
  | some a => f a

namespace Entry

def toTree (e : Entry) : Tree :=
  .object [
    ("source", optionTree .string e.source),
    ("status", optionTree Status.toTree e.status),
    ("output", .string e.output)]

structure Draft where
  source : Option (Option String) := none
  status : Option (Option Status) := none
  output : Option String := none

namespace Draft

/-- A field that is read twice is a mismatch; a member of another name is passed over. -/
def members : Members Draft := fun d name =>
  match name with
  | "source" =>
    if d.source.isSome then .error .mismatched
    else .ok ((readOption readString).map fun v => { d with source := some v })
  | "status" =>
    if d.status.isSome then .error .mismatched
    else .ok ((readOption Status.read).map fun v => { d with status := some v })
  | "output" =>
    if d.output.isSome then .error .mismatched
    else .ok (readString.map fun v => { d with output := some v })
  | _ => .ok (skipMemberValue d)

def finish (d : Draft) : Entry := ⟨d.source.getD none, d.status.getD none, d.output.getD ""⟩

end Draft

/-- Takes the fields in order; the output may be left out. -/
def readFields : Reader Entry := fun text => do
  let source ← readElement true (readOption readString) text
  let status := source.next (← readElement false (readOption Status.read) source.rest)
  match ← elementAhead false status.rest with
  | none => return status.as ⟨source.value, status.value, ""⟩
  | some r =>
    let output := r.next (← readString r.rest)
    return (status.next output).map (⟨source.value, status.value, ·⟩)

def read : Reader Entry := readRecord Draft.members {} (fun d => .ok d.finish) readFields

end Entry

structure Order where
  keys : List Key

namespace Order

def toTree (o : Order) : Tree := .object [("val", .array (o.keys.map Key.toTree))]

def members : Members (Option (List Key)) := fun d name =>
  match name with
  | "val" =>
    if d.isSome then .error .mismatched else .ok ((readArray Key.read).map some)
  | _ => .ok (skipMemberValue d)

def finish : Option (List Key) → Except Fault Order
  | some keys => .ok ⟨keys⟩
  | none => .error .mismatched

def readFields : Reader Order := (readElement true (readArray Key.read)).map Order.mk

def read : Reader Order := readRecord members none finish readFields

end Order

namespace Report

def pairTree (p : Key × Entry) : Tree := .array [p.1.toTree, p.2.toTree]

def toTree (r : Report) : Tree :=
  .array [optionTree (fun keys => (Order.mk keys).toTree) r.order,
    .array (r.entries.toList.map pairTree)]

def readTwo (first : Reader α) (second : Reader β) : Reader (α × β) := fun text => do
  let start ← readMark '[' wrongKind text
  let a := start.next (← readElement true first start.rest)
  let b := a.next (← readElement false second a.rest)
  return (b.next (← closeArray b.rest)).as (a.value, b.value)

/-- Takes a report. Of two pairs with one key the later counts. -/
def read : Reader Report :=
  (readTwo (readOption Order.read) (readArray (readTwo Key.read Entry.read))).map
    fun p => ⟨p.1.map Order.keys, SortedMap.ofList p.2⟩

def encode (r : Report) : String := r.toTree.text .compact

def decode (text : String) : Except Fault Report := readAll read text.toList

def frame (r : Report) : String := "data:" ++ r.encode ++ "\n\n"

end Report

end Worksheet
