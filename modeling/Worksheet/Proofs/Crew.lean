import Worksheet.Proofs.Round
import Worksheet.Proofs.Schedule
import Worksheet.Session
/-! Cells that are started and stopped by hand, between evaluations. A cell that is not stopped before
it evaluates does so once, on what its parents hand on by then, and the fallback stands in for those
that were stopped. What was reported stays, and what was stopped in time never reports. -/
namespace Worksheet

open Calc (Decl Env)
open Report (about entriesOf)

theorem Cells.find?_stopAll (cs : Cells) (k : Key) :
    cs.stopAll.find? k = (cs.find? k).map fun c => { c with phase := .stopped } := by
  simp only [stopAll, find?, List.find?_map]
  rfl

theorem Hub.publishAll_state (h : Hub) (rs : List Report) :
    (rs.foldl publish h).state = h.state.mergeAll rs := by
  induction rs generalizing h with
  | nil => rfl
  | cons r rs ih => exact ih (h.publish r)

namespace Cell

/-- The cell, behind events that may have stopped it. -/
def ifStopped (c : Cell) (stopped : Bool) : Cell :=
  if stopped then { c with phase := .stopped } else c

end Cell

/-- A worksheet whose cells are started and stopped by hand. -/
structure Crew extends Live where
  /-- All reports that were published, the first one first. -/
  told : List Report

namespace Crew

inductive Event
  | start (key : Key) (decl : Decl) (parents : List Key)
  | stop (key : Key)
  | shutdown
  /-- Cells evaluate, in this order as far as they can, until none of them waits. -/
  | settle (order : List Key)

namespace Event

/-- Whether an event stops the cell of a key, if there is one. -/
def stops (key : Key) : Event → Bool
  | stop k => k = key
  | shutdown => true
  | _ => false

def settles : Event → Bool
  | settle _ => true
  | _ => false

end Event

def start (capacity : Nat) : Crew := ⟨.start capacity, []⟩

def publish (s : Crew) (reports : List Report) : Crew :=
  { s with hub := reports.foldl Hub.deliver s.hub, told := s.told ++ reports }

/-- A key is used once, and the parents of a cell are there when it starts. -/
def handle (ev : Evaluator) (s : Crew) : Event → Option Crew
  | .start key decl parents =>
    if key ∉ s.cells.keys ∧ ∀ p ∈ parents, p ∈ s.cells.keys then
      some { s with cells := s.cells.start key decl parents }
    else none
  | .stop key => some { s with cells := s.cells.stop key }
  | .shutdown => some { s with toLive := s.toLive.shutdown }
  | .settle order =>
    let (reports, cells) := s.cells.finishAll ev order
    if cells.waiting = [] then some ({ s with cells := cells }.publish reports) else none

def run (ev : Evaluator) (s : Crew) : List Event → Option Crew
  | [] => some s
  | e :: more => (s.handle ev e).bind fun s => s.run ev more

variable {ev : Evaluator} {s t : Crew} {e : Event} {events : List Event} {k : Key} {c : Cell}

/-- All that an event can do. -/
inductive Handled (ev : Evaluator) (s : Crew) : Event → Crew → Prop
  | start (key : Key) (decl : Decl) (parents : List Key) (new : key ∉ s.cells.keys)
      (known : ∀ p ∈ parents, p ∈ s.cells.keys) :
      Handled ev s (.start key decl parents) { s with cells := s.cells.start key decl parents }
  | stop (key : Key) : Handled ev s (.stop key) { s with cells := s.cells.stop key }
  | shutdown : Handled ev s .shutdown { s with cells := s.cells.stopAll }
  | settle (order : List Key) (reports : List Report) (cells : Cells)
      (worked : Cells.Worked ev s.cells reports cells) (settled : cells.waiting = []) :
      Handled ev s (.settle order) ({ s with cells := cells }.publish reports)

theorem handled (h : s.handle ev e = some t) : Handled ev s e t := by
  cases e with
  | start key decl parents =>
    simp only [handle] at h
    split at h
    · rename_i fits
      cases h
      exact .start key decl parents fits.1 fits.2
    · cases h
  | stop key =>
    cases h
    exact .stop key
  | shutdown =>
    cases h
    exact .shutdown
  | settle order =>
    simp only [handle] at h
    split at h
    · rename_i settled
      cases h
      exact .settle order _ _ (Cells.Worked.finishAll ev s.cells order) settled
    · cases h

theorem run_append (early late : List Event) :
    s.run ev (early ++ late) = (s.run ev early).bind fun s => s.run ev late := by
  induction early generalizing s with
  | nil => rfl
  | cons e early ih =>
    simp only [List.cons_append, run]
    cases s.handle ev e with
    | none => rfl
    | some t => exact ih

/-- What holds all the time. -/
structure Kept (s : Crew) : Prop where
  arranged : s.cells.Arranged
  heard : s.hub.running = true
  state : s.hub.state = Report.empty.mergeAll s.told
  unknown : ∀ k, k ∉ s.cells.keys → about k s.told = [] ∧ s.cells.calls.count k = 0

theorem start_kept (capacity : Nat) : (start capacity).Kept where
  arranged := ⟨List.nodup_nil, fun before r after split => by cases before <;> cases split⟩
  heard := rfl
  state := rfl
  unknown := fun _ _ => ⟨rfl, rfl⟩

theorem Kept.of_rows (h : s.Kept) {cells : Cells} (rows : cells.rows = s.cells.rows)
    (calls : cells.calls = s.cells.calls) : ({ s with cells := cells } : Crew).Kept where
  arranged := h.arranged.of_rows rows
  heard := h.heard
  state := h.state
  unknown := by
    intro k new
    obtain ⟨silent, uncalled⟩ := h.unknown k (Cells.keys_of_rows rows ▸ new)
    exact ⟨silent, calls ▸ uncalled⟩

theorem Handled.kept (step : Handled ev s e t) (h : s.Kept) : t.Kept := by
  cases step with
  | start key decl parents new known =>
    refine ⟨h.arranged.start new known, h.heard, h.state, fun k hk => h.unknown k fun old => hk ?_⟩
    rw [show _ = s.cells.keys ++ [key] from Cells.keys_start ..]
    exact List.mem_append_left _ old
  | stop key => exact h.of_rows (Cells.rows_setPhase ..) rfl
  | shutdown => exact h.of_rows (Cells.rows_stopAll _) rfl
  | settle order reports cells worked settled =>
    have hub : reports.foldl Hub.deliver s.hub = reports.foldl Hub.publish s.hub :=
      Hub.deliver_eq h.heard reports
    constructor
    · exact h.arranged.of_rows worked.rows
    · show (reports.foldl Hub.deliver s.hub).running = true
      rw [hub, Hub.publishAll_running]
      exact h.heard
    · show (reports.foldl Hub.deliver s.hub).state = Report.empty.mergeAll (s.told ++ reports)
      rw [hub, Hub.publishAll_state, h.state, Report.mergeAll_append]
    · intro k new
      have new : k ∉ s.cells.keys := worked.keys ▸ new
      obtain ⟨silent, uncalled⟩ := h.unknown k new
      have nothing := worked.unknown k new
      refine ⟨?_, ?_⟩
      · show about k (s.told ++ reports) = []
        rw [Report.about_append, silent, nothing]
        rfl
      · show cells.calls.count k = 0
        rw [worked.calls, uncalled, nothing]
        rfl

theorem kept_of_run (h : s.Kept) (run : s.run ev events = some t) : t.Kept := by
  induction events generalizing s with
  | nil =>
    cases run
    exact h
  | cons e more ih =>
    obtain ⟨u, first, rest⟩ := Option.bind_eq_some_iff.1 run
    exact ih ((handled first).kept h) rest

/-- An event in which a cell does not evaluate: the cell is stopped or stays as it is, and it does not
report. -/
theorem Handled.quiet (step : Handled ev s e t) (found : s.cells.find? k = some c)
    (quiet : e.settles = false ∨ c.isWaiting = false) :
    t.cells.find? k = some (c.ifStopped (e.stops k)) ∧ about k t.told = about k s.told ∧
      t.cells.calls.count k = s.cells.calls.count k := by
  obtain ⟨_, rfl⟩ := Cells.find?_mem found
  cases step with
  | start key decl parents new known =>
    refine ⟨?_, rfl, rfl⟩
    rw [Cells.find?_start, found]
    rfl
  | stop key =>
    refine ⟨?_, rfl, rfl⟩
    rw [Cells.stop, Cells.find?_setPhase, found]
    by_cases here : c.key = key
    · simp [Event.stops, Cell.ifStopped, here]
    · simp [Event.stops, Cell.ifStopped, here, Ne.symm here]
  | shutdown =>
    refine ⟨?_, rfl, rfl⟩
    rw [Cells.find?_stopAll, found]
    rfl
  | settle order reports cells worked settled =>
    obtain ⟨found', silent⟩ := worked.still c.key c found (quiet.resolve_left Bool.noConfusion)
    refine ⟨found', ?_, ?_⟩
    · show about c.key (s.told ++ reports) = _
      rw [Report.about_append, silent, List.append_nil]
    · show cells.calls.count c.key = _
      rw [worked.calls, silent]
      rfl

/-- An event stops a cell or leaves it as far from being stopped as it was. -/
theorem Handled.phase (step : Handled ev s e t) (found : s.cells.find? k = some c) :
    ∃ c', t.cells.find? k = some c' ∧ (c'.phase = .stopped ↔ c.phase = .stopped ∨ e.stops k) := by
  by_cases quiet : e.settles = false ∨ c.isWaiting = false
  · refine ⟨_, (step.quiet found quiet).1, ?_⟩
    cases e.stops k with
    | true => simp [Cell.ifStopped]
    | false => simp [Cell.ifStopped]
  · rw [not_or, Bool.not_eq_false, Bool.not_eq_false] at quiet
    obtain ⟨settles, waits⟩ := quiet
    have begun : c.phase ≠ .stopped := by
      intro stopped
      rw [Cell.isWaiting, stopped] at waits
      cases waits
    cases step with
    | settle order reports cells worked settled =>
      rcases worked.waits k c found waits with ⟨found', _⟩ | ended
      · exact ⟨c, found', by simp [Event.stops]⟩
      · obtain ⟨_, rfl⟩ := Cells.find?_mem found
        exact ⟨_, ended.serves, by simp [Event.stops, begun]⟩
    | _ => cases settles

theorem Handled.keys (step : Handled ev s e t) (known : k ∈ t.cells.keys) :
    k ∈ s.cells.keys ∨ ∃ decl parents, e = .start k decl parents := by
  cases step with
  | start key decl parents =>
    rw [Cells.keys_start] at known
    rcases List.mem_append.1 known with old | here
    · exact Or.inl old
    · cases List.mem_singleton.1 here
      exact Or.inr ⟨decl, parents, rfl⟩
  | stop key => exact Or.inl (Cells.keys_of_rows (Cells.rows_setPhase ..) ▸ known)
  | shutdown => exact Or.inl (Cells.keys_of_rows (Cells.rows_stopAll _) ▸ known)
  | settle order reports cells worked => exact Or.inl (worked.keys ▸ known)

/-- What a request for the environment of a cell is answered with, in every session that has come as
far. -/
def serves (ev : Evaluator) (s : Crew) (k : Key) (served : Served) : Prop :=
  ∀ x : Session, x.live = s.toLive → (x.step ev (.env k)).2 = .served served

/-- What has been reported about a key is what the hub has on it. -/
theorem Kept.get?_state (h : s.Kept) (k : Key) : s.hub.state.entries.get? k =
    (entriesOf k (about k s.told)).foldl Report.put none := by
  rw [h.state, Report.get?_mergeAll, Report.entriesOf_about]
  rfl

section Law

variable {capacity : Nat} {before after : List Event} {decl : Decl} {parents : List Key}

end Law

end Crew

end Worksheet
