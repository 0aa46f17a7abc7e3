import Worksheet.Proofs.Desk
import Worksheet.Sheet.Live
/-! A worksheet whose parts work side by side. The desk takes in its texts item by item, cells
evaluate when they can, and the hub takes reports from its inbox in the order in which they were
sent. A run is a list of moves, and any move that is possible may be the next one. -/
namespace Worksheet

open Calc (Section)

/-- An edit that has ended, and what stopped it if it did not get to its order. -/
structure Call where
  placed : Revision
  failure : Option Failure

structure Workshop extends Desk where
  /-- The texts that have not been begun. -/
  texts : List String
  /-- The text on the desk: what has been placed, and the items to come. -/
  call : Option (Revision × List Section)
  ended : List Call
  hub : Hub
  /-- All reports that were sent, the first one first. -/
  sent : List Report
  taken : Nat

inductive Move
  | turn
  | add
  | close
  | finish (key : Key)
  | receive

/-- The moves of a worksheet at work, and what can put an end to them. -/
inductive Event
  | move (move : Move)
  | halt
  | shutdown

namespace Workshop

def start (capacity : Nat) (texts : List String) : Workshop where
  toDesk := .empty
  texts := texts
  call := none
  ended := []
  hub := .start capacity
  sent := []
  taken := 0

def inbox (s : Workshop) : List Report := s.sent.drop s.taken

def send (s : Workshop) (reports : List Report) : Workshop := { s with sent := s.sent ++ reports }

/-- Puts the desk back after an item, with the item in its place. -/
def enter (s : Workshop) (d : Desk) (placed : Revision) (rest : List Section) (e : Entered) :
    Workshop :=
  { s with toDesk := d, call := some (placed ++ [e.placed], rest) }.send e.report.toList

def endCall (s : Workshop) (placed : Revision) (failure : Option Failure) : Workshop :=
  { s with call := none, ended := s.ended ++ [⟨placed, failure⟩] }

def step (ev : Evaluator) (s : Workshop) : Move → Option Workshop
  | .turn =>
    match s.call, s.texts with
    | none, text :: more =>
      some { s with toDesk := s.toDesk.turn, texts := more, call := some ([], Calc.parse text) }
    | _, _ => none
  | .add =>
    match s.call with
    | some (placed, item :: rest) =>
      match s.toDesk.add s.hub.running item with
      | (d, .ok e) => some (s.enter d placed rest e)
      | (d, .error f) => some ({ s with toDesk := d }.endCall placed (some f))
    | _ => none
  | .close =>
    match s.call with
    | some (placed, []) =>
      if s.hub.running then some ((s.endCall placed none).send [.ofOrder placed.order])
      else some (s.endCall placed (some .hubClosed))
    | _ => none
  | .finish key =>
    match s.cells.finish ev key with
    | some (report, cells) =>
      let s := { s with cells := cells }
      some (if s.hub.running then s.send [report] else s)
    | none => none
  | .receive =>
    match s.sent[s.taken]? with
    | some report =>
      if s.hub.running then some { s with hub := s.hub.publish report, taken := s.taken + 1 }
      else none
    | none => none

def handle (ev : Evaluator) (s : Workshop) : Event → Option Workshop
  | .move m => s.step ev m
  | .halt => some { s with hub := s.hub.stop }
  | .shutdown =>
    match s.call with
    | none => some { s with texts := [], cells := s.cells.stopAll }
    | some _ => none

def run (ev : Evaluator) (s : Workshop) : List Event → Option Workshop
  | [] => some s
  | e :: more => (s.handle ev e).bind fun s => s.run ev more

/-- A run in which the hub goes on and no cell is stopped. -/
def work (ev : Evaluator) (s : Workshop) (moves : List Move) : Option Workshop :=
  s.run ev (moves.map .move)

/-- All that a move can do. -/
inductive Stepped (ev : Evaluator) (s : Workshop) : Move → Workshop → Prop
  | turn (text : String) (more : List String) (idle : s.call = none)
      (next : s.texts = text :: more) :
      Stepped ev s .turn
        { s with toDesk := s.toDesk.turn, texts := more, call := some ([], Calc.parse text) }
  | add (placed : Revision) (item : Section) (rest : List Section) (d : Desk) (e : Entered)
      (call : s.call = some (placed, item :: rest))
      (added : s.toDesk.add s.hub.running item = (d, .ok e)) :
      Stepped ev s .add (s.enter d placed rest e)
  | fail (placed : Revision) (item : Section) (rest : List Section) (d : Desk) (f : Failure)
      (call : s.call = some (placed, item :: rest))
      (added : s.toDesk.add s.hub.running item = (d, .error f)) :
      Stepped ev s .add ({ s with toDesk := d }.endCall placed (some f))
  | close (placed : Revision) (call : s.call = some (placed, [])) (heard : s.hub.running = true) :
      Stepped ev s .close ((s.endCall placed none).send [.ofOrder placed.order])
  | lose (placed : Revision) (call : s.call = some (placed, [])) (deaf : s.hub.running = false) :
      Stepped ev s .close (s.endCall placed (some .hubClosed))
  | finish (key : Key) (report : Report) (cells : Cells) (heard : s.hub.running = true)
      (finished : s.cells.finish ev key = some (report, cells)) :
      Stepped ev s (.finish key) ({ s with cells := cells }.send [report])
  | waste (key : Key) (report : Report) (cells : Cells) (deaf : s.hub.running = false)
      (finished : s.cells.finish ev key = some (report, cells)) :
      Stepped ev s (.finish key) { s with cells := cells }
  | receive (report : Report) (next : s.sent[s.taken]? = some report)
      (heard : s.hub.running = true) :
      Stepped ev s .receive { s with hub := s.hub.publish report, taken := s.taken + 1 }

theorem stepped {ev : Evaluator} {s t : Workshop} {m : Move} (h : s.step ev m = some t) :
    Stepped ev s m t := by
  cases m with
  | turn =>
    simp only [step] at h
    split at h
    · cases h
      exact .turn _ _ ‹_› ‹_›
    · cases h
  | add =>
    simp only [step] at h
    split at h
    · rename_i placed item rest call
      split at h
      · rename_i d e result
        cases h
        exact .add placed item rest d e call result
      · rename_i d f result
        cases h
        exact .fail placed item rest d f call result
    · cases h
  | close =>
    simp only [step] at h
    split at h
    · rename_i placed call
      split at h
      · cases h
        exact .close placed call ‹_›
      · cases h
        exact .lose placed call (Bool.eq_false_iff.2 ‹_›)
    · cases h
  | finish key =>
    simp only [step] at h
    split at h
    · rename_i report cells finished
      split at h
      · cases h
        exact .finish key report cells ‹_› finished
      · cases h
        exact .waste key report cells (Bool.eq_false_iff.2 ‹_›) finished
    · cases h
  | receive =>
    simp only [step] at h
    split at h
    · split at h
      · cases h
        exact .receive _ ‹_› ‹_›
      · cases h
    · cases h

theorem Stepped.issued {ev : Evaluator} {s t : Workshop} {m : Move} (h : Stepped ev s m t) :
    t.memo.issued = s.memo.issued ∨ t.memo.issued = s.memo.issued + 1 := by
  cases h with
  | add _ _ _ _ _ _ added => exact (Desk.Added.of_add added).issued
  | fail _ _ _ _ _ _ added => exact (Desk.Added.of_add added).issued
  | _ => exact Or.inl rfl

theorem handle_issued {ev : Evaluator} {s t : Workshop} {e : Event} (h : s.handle ev e = some t) :
    t.memo.issued = s.memo.issued ∨ t.memo.issued = s.memo.issued + 1 := by
  cases e with
  | move m => exact (stepped h).issued
  | halt => cases h; exact Or.inl rfl
  | shutdown =>
    simp only [handle] at h
    split at h
    · cases h; exact Or.inl rfl
    · cases h

theorem run_issued {ev : Evaluator} {s t : Workshop} {events : List Event}
    (h : s.run ev events = some t) : s.memo.issued ≤ t.memo.issued := by
  induction events generalizing s with
  | nil => exact Option.some.inj h ▸ Nat.le_refl _
  | cons e more ih =>
    obtain ⟨u, first, rest⟩ := Option.bind_eq_some_iff.1 h
    have next := handle_issued first
    have others := ih rest
    omega

/-- What holds at the start and is kept by every event holds after every run. Keys are only ever
added, so a run that gives out few of them has done so all along. -/
theorem run_induction {P : Workshop → Prop} {ev : Evaluator}
    (keep : ∀ s e t, P s → s.handle ev e = some t → t.memo.issued < UInt64.size → P t)
    {s t : Workshop} {events : List Event} (h : s.run ev events = some t)
    (few : t.memo.issued < UInt64.size) (start : P s) : P t := by
  induction events generalizing s with
  | nil => exact Option.some.inj h ▸ start
  | cons e more ih =>
    obtain ⟨u, first, rest⟩ := Option.bind_eq_some_iff.1 h
    exact ih rest (keep s e u start first (Nat.lt_of_le_of_lt (run_issued rest) few))

theorem work_induction {P : Workshop → Prop} {ev : Evaluator}
    (keep : ∀ s m t, P s → Stepped ev s m t → t.memo.issued < UInt64.size → P t)
    {s t : Workshop} {moves : List Move} (h : s.work ev moves = some t)
    (few : t.memo.issued < UInt64.size) (start : P s) : P t := by
  induction moves generalizing s with
  | nil => exact Option.some.inj h ▸ start
  | cons m more ih =>
    obtain ⟨u, first, rest⟩ := Option.bind_eq_some_iff.1 h
    exact ih rest (keep s m u start (stepped first) (Nat.lt_of_le_of_lt (run_issued rest) few))

/-- All texts are taken in, all cells have evaluated and the hub has taken all reports. -/
structure Done (s : Workshop) : Prop where
  texts : s.texts = []
  call : s.call = none
  cells : ∀ c ∈ s.cells.all, c.isWaiting = false
  inbox : s.inbox = []

end Workshop

end Worksheet
