import Mathlib
import Worksheet.Proofs.Workshop
/-! Memo, cells and scope agree in every state of every run, between the items of a text as well as
between texts, and also when the hub stops at any point. -/
namespace Worksheet

namespace Revision

/-- The keys of the items that got a cell. -/
def startedKeys (r : Revision) : List Key := (r.filter (·.placement = .started)).map Placed.key

/-- The keys of the items that got a key of their own. -/
def freshKeys (r : Revision) : List Key := (r.filter (·.placement ≠ .reused)).map Placed.key

theorem startedKeys_append (r r' : Revision) :
    startedKeys (r ++ r') = startedKeys r ++ startedKeys r' := by
  simp [startedKeys]

theorem freshKeys_append (r r' : Revision) : freshKeys (r ++ r') = freshKeys r ++ freshKeys r' := by
  simp [freshKeys]

end Revision

open Calc (Section)

namespace Desk

variable {d d' : Desk} {running : Bool} {item : Section} {e : Entered}

def recordedKeys (d : Desk) : List Key := d.memo.entries.map Prod.snd

theorem recordedKeys_eq (h : d.Agrees) : d.recordedKeys = d.cells.keys := by
  rw [Cells.keys_eq_rows, ← h.recorded, Memo.rows, List.map_map]
  rfl

theorem Agrees.recorded_once (h : d.Agrees) : d.recordedKeys.Nodup := by
  rw [recordedKeys_eq h]
  exact h.ordered.ascending.imp StrictOrder.ne_of_lt

theorem Added.recordedKeys (add : Added d running item (d', .ok e)) :
    d'.recordedKeys = d.recordedKeys ++ Revision.startedKeys [e.placed] := by
  cases add with
  | broken => exact (List.append_nil _).symm
  | reused => exact (List.append_nil _).symm
  | started => exact List.map_append

def issuedKey (d d' : Desk) : List Key :=
  if d.memo.issued < d'.memo.issued then [d.memo.nextKey] else []

theorem Added.freshKeys (add : Added d running item (d', .ok e)) :
    Revision.freshKeys [e.placed] = d.issuedKey d' := by
  cases add with
  | broken => exact (if_pos (Nat.lt_succ_self _)).symm
  | reused => exact (if_neg (Nat.lt_irrefl _)).symm
  | started => exact (if_pos (Nat.lt_succ_self _)).symm

theorem issuedKey_number (next : d'.memo.issued = d.memo.issued ∨
    d'.memo.issued = d.memo.issued + 1) (few : d'.memo.issued < UInt64.size) :
    (d.issuedKey d').map Key.number =
      List.range' d.memo.issued (d'.memo.issued - d.memo.issued) := by
  rcases next with same | one
  · simp [issuedKey, same]
  · have small : d.memo.issued < UInt64.size := by omega
    simp [issuedKey, one, Memo.nextKey_number small]

end Desk

namespace Workshop

/-- All items ever placed, those of failed edits included. -/
def placements (s : Workshop) : Revision :=
  s.ended.flatMap Call.placed ++ s.call.elim [] Prod.fst

def issues (ev : Evaluator) (s : Workshop) : List Event → List Key
  | [] => []
  | e :: more =>
    match s.handle ev e with
    | none => []
    | some t => s.toDesk.issuedKey t.toDesk ++ issues ev t more

/-- Memo, cells and scope agree, as their users see it. -/
structure Consistent (s : Workshop) : Prop where
  keys_once : (s.memo.entries.map Prod.snd).Nodup
  recorded_iff : ∀ k, k ∈ s.memo.entries.map Prod.snd ↔ (s.cells.find? k).isSome
  sizes : s.memo.size = s.cells.size
  parents : ∀ r k, (r, k) ∈ s.memo.entries → ∀ p ∈ r.parents, (s.cells.find? p).isSome ∧ p < k
  cells : ∀ r k, (r, k) ∈ s.memo.entries → ∃ c, s.cells.find? k = some c ∧
    c.decl.source = r.source ∧ c.parents = r.parents.toList ∧ c.parents.Pairwise (· < ·)
  scope : ∀ x k, s.scope.get? x = some k → (s.cells.find? k).isSome

variable {ev : Evaluator} {s t : Workshop} {e : Event}

theorem Stepped.agrees {m : Move} (h : Stepped ev s m t) (few : t.memo.issued < UInt64.size)
    (agrees : s.toDesk.Agrees) : t.toDesk.Agrees := by
  cases h with
  | turn => exact agrees.turn
  | add _ _ _ _ _ _ added => exact agrees.added (.of_add added) few
  | fail _ _ _ _ _ _ added => exact agrees.added (.of_add added) few
  | close => exact agrees
  | lose => exact agrees
  | finish _ _ _ _ finished => exact agrees.withCells (Cells.rows_of_finish finished)
  | waste _ _ _ _ finished => exact agrees.withCells (Cells.rows_of_finish finished)
  | receive => exact agrees

theorem agrees_of_handle (h : s.handle ev e = some t) (few : t.memo.issued < UInt64.size)
    (agrees : s.toDesk.Agrees) : t.toDesk.Agrees := by
  cases e with
  | move m => exact (stepped h).agrees few agrees
  | halt => cases h; exact agrees
  | shutdown =>
    simp only [handle] at h
    split at h
    · cases h; exact agrees.withCells s.cells.rows_stopAll
    · cases h

theorem agrees_of_run {events : List Event} {capacity : Nat} {texts : List String}
    (run : (start capacity texts).run ev events = some s) (few : s.memo.issued < UInt64.size) :
    s.toDesk.Agrees :=
  run_induction (fun _ _ _ agrees handled few => agrees_of_handle handled few agrees) run few
    Desk.empty_agrees

/-- An event places the items that take keys and cells, and no others. -/
theorem handle_placed (h : s.handle ev e = some t) :
    ∃ new, t.placements = s.placements ++ new ∧
      new.freshKeys.Sublist (s.toDesk.issuedKey t.toDesk) ∧
      t.recordedKeys = s.recordedKeys ++ new.startedKeys := by
  have nothing : ∀ t : Workshop, t.placements = s.placements →
      t.memo.entries = s.memo.entries → ∃ new, t.placements = s.placements ++ new ∧
        new.freshKeys.Sublist (s.toDesk.issuedKey t.toDesk) ∧
        t.recordedKeys = s.recordedKeys ++ new.startedKeys := by
    intro t placed entries
    refine ⟨[], ?_, List.nil_sublist _, ?_⟩
    · rw [placed, List.append_nil]
    · simp [Desk.recordedKeys, entries, Revision.startedKeys]
  cases e with
  | move m =>
    cases stepped h with
    | turn _ _ idle => exact nothing _ (by simp [placements, idle]) rfl
    | add placed item rest d e call added =>
      have kept := Desk.Added.of_add added
      refine ⟨[e.placed], ?_, ?_, kept.recordedKeys⟩
      · simp [placements, enter, send, call]
      · rw [kept.freshKeys]
        exact List.Sublist.refl _
    | fail placed item rest d f call added =>
      refine nothing _ (by simp [placements, endCall, call]) ?_
      cases Desk.Added.of_add added with
      | lost => rfl
      | orphan => rfl
    | close placed call => exact nothing _ (by simp [placements, endCall, send, call]) rfl
    | lose placed call => exact nothing _ (by simp [placements, endCall, call]) rfl
    | finish => exact nothing _ rfl rfl
    | waste => exact nothing _ rfl rfl
    | receive => exact nothing _ rfl rfl
  | halt => cases h; exact nothing _ rfl rfl
  | shutdown =>
    simp only [handle] at h
    split at h
    · cases h; exact nothing _ rfl rfl
    · cases h

/-- The keys given out along a run are all numbers between the counts at its two ends. -/
theorem issues_number {events : List Event} (run : s.run ev events = some t)
    (few : t.memo.issued < UInt64.size) : s.memo.issued ≤ t.memo.issued ∧
      (s.issues ev events).map Key.number =
        List.range' s.memo.issued (t.memo.issued - s.memo.issued) := by
  induction events generalizing s with
  | nil =>
    cases Option.some.inj run
    simp [issues]
  | cons e more ih =>
    obtain ⟨u, first, rest⟩ := Option.bind_eq_some_iff.1 run
    obtain ⟨le, numbers⟩ := ih rest
    have next := handle_issued first
    have here := Desk.issuedKey_number next (by omega)
    have up : s.memo.issued ≤ u.memo.issued := by omega
    refine ⟨Nat.le_trans up le, ?_⟩
    simp only [issues, first, List.map_append, here, numbers]
    rw [show t.memo.issued - s.memo.issued =
      (u.memo.issued - s.memo.issued) + (t.memo.issued - u.memo.issued) by omega,
      ← List.range'_append_1, Nat.add_sub_cancel' up]

theorem run_placed {events : List Event} (run : s.run ev events = some t) :
    ∃ new, t.placements = s.placements ++ new ∧ new.freshKeys.Sublist (s.issues ev events) ∧
      t.recordedKeys = s.recordedKeys ++ new.startedKeys := by
  induction events generalizing s with
  | nil =>
    cases Option.some.inj run
    exact ⟨[], by simp, List.nil_sublist _, by simp [Revision.startedKeys]⟩
  | cons e more ih =>
    obtain ⟨u, first, rest⟩ := Option.bind_eq_some_iff.1 run
    obtain ⟨one, placed, fresh, recorded⟩ := handle_placed first
    obtain ⟨others, placed', fresh', recorded'⟩ := ih rest
    refine ⟨one ++ others, ?_, ?_, ?_⟩
    · rw [placed', placed, List.append_assoc]
    · simp only [Revision.freshKeys_append, issues, first]
      exact fresh.append fresh'
    · rw [recorded', recorded, Revision.startedKeys_append, List.append_assoc]

theorem issues_ascend {events : List Event} (run : s.run ev events = some t)
    (few : t.memo.issued < UInt64.size) : (s.issues ev events).Pairwise (· < ·) := by
  have ascending := List.pairwise_lt_range' (s := s.memo.issued)
    (n := t.memo.issued - s.memo.issued)
  rw [← (issues_number run few).2, List.pairwise_map] at ascending
  exact ascending.imp Key.lt_iff.2

theorem placements_of_run {events : List Event} {capacity : Nat} {texts : List String}
    (run : (start capacity texts).run ev events = some s) :
    s.placements.freshKeys.Sublist ((start capacity texts).issues ev events) ∧
      s.recordedKeys = s.placements.startedKeys := by
  obtain ⟨new, placed, fresh, recorded⟩ := run_placed run
  have all : s.placements = new := placed
  rw [all]
  exact ⟨fresh, recorded⟩

theorem consistent_of_agrees (agrees : s.toDesk.Agrees) : s.Consistent := by
  have keys : s.memo.entries.map Prod.snd = s.cells.keys := Desk.recordedKeys_eq agrees
  constructor
  · exact agrees.recorded_once
  · intro k
    rw [keys, Cells.find?_isSome_iff]
  · have lengths := congrArg List.length keys
    simpa [Cells.keys, Memo.size, Cells.size] using lengths
  · intro r k held p parent
    obtain ⟨less, known⟩ := agrees.ordered.parents _ (agrees.row_of_recorded held) p parent
    exact ⟨Cells.find?_isSome_iff.2 known, less⟩
  · intro r k held
    obtain ⟨c, hc, rfl, source, parents⟩ := agrees.cell_of_recorded held
    refine ⟨c, Cells.find?_of_mem agrees.ordered.ascending hc, source, parents, ?_⟩
    rw [parents]
    exact r.parents.sorted
  · intro x k bound
    exact Cells.find?_isSome_iff.2 (agrees.scope x k bound)

/-- An edit that stops short leaves the memo and the cells as the items before it left them. -/
theorem handle_failed (agrees : s.toDesk.Agrees) (h : s.handle ev e = some t) {r : Revision}
    {f : Failure} (failed : t.ended = s.ended ++ [⟨r, some f⟩]) :
    f = .hubClosed ∧ s.hub.running = false ∧ t.memo.entries = s.memo.entries ∧
      t.cells = s.cells := by
  have grown : ∀ l : List Call, l = s.ended → l ≠ s.ended ++ [⟨r, some f⟩] := by
    intro l same grown
    have := congrArg List.length (same.symm.trans grown)
    simp at this
  cases e with
  | move m =>
    cases stepped h with
    | fail placed item rest d g call added =>
      obtain ⟨rfl, closed, rfl⟩ := agrees.failure (.of_add added)
      have last := (List.append_inj_right failed rfl)
      cases last
      exact ⟨rfl, closed, rfl, rfl⟩
    | lose placed call deaf =>
      have last := (List.append_inj_right failed rfl)
      cases last
      exact ⟨rfl, deaf, rfl, rfl⟩
    | close placed call heard =>
      have last := (List.append_inj_right failed rfl)
      cases last
    | _ => exact absurd failed (grown _ rfl)
  | halt => cases h; exact absurd failed (grown _ rfl)
  | shutdown =>
    simp only [handle] at h
    split at h
    · cases h; exact absurd failed (grown _ rfl)
    · cases h

theorem handle_ended (h : s.handle ev e = some t) :
    t.ended = s.ended ∨ ∃ call, t.ended = s.ended ++ [call] := by
  cases e with
  | move m =>
    cases stepped h with
    | fail => exact Or.inr ⟨_, rfl⟩
    | lose => exact Or.inr ⟨_, rfl⟩
    | close => exact Or.inr ⟨_, rfl⟩
    | _ => exact Or.inl rfl
  | halt => cases h; exact Or.inl rfl
  | shutdown =>
    simp only [handle] at h
    split at h
    · cases h; exact Or.inl rfl
    · cases h

theorem failures_of_run {events : List Event} {capacity : Nat} {texts : List String}
    (run : (start capacity texts).run ev events = some s) (few : s.memo.issued < UInt64.size) :
    ∀ call ∈ s.ended, ∀ f, call.failure = some f → f = .hubClosed := by
  have keep : ∀ u e v, (u.toDesk.Agrees ∧
      ∀ call ∈ u.ended, ∀ f, call.failure = some f → f = .hubClosed) → handle ev u e = some v →
      v.memo.issued < UInt64.size → v.toDesk.Agrees ∧
      ∀ call ∈ v.ended, ∀ f, call.failure = some f → f = .hubClosed := by
    intro u e v ⟨agrees, failures⟩ handled few
    refine ⟨agrees_of_handle handled few agrees, ?_⟩
    rcases handle_ended handled with same | ⟨last, grown⟩
    · rw [same]
      exact failures
    · intro call hc f failed
      rw [grown] at hc
      rcases List.mem_append.1 hc with hc | hc
      · exact failures call hc f failed
      · cases List.mem_singleton.1 hc
        obtain ⟨r, g⟩ := last
        cases failed
        exact (handle_failed agrees handled grown).1
  have none_ended : ∀ call ∈ (start capacity texts).ended, ∀ f, call.failure = some f →
      f = .hubClosed := by
    intro call hc
    cases hc
  exact (run_induction keep run few ⟨Desk.empty_agrees, none_ended⟩).2

/-- In every state of every run, also of one in which the hub stops: memo, cells and scope agree; no
key is given out twice; an edit can only fail for the hub; memo and cells hold the items that were
placed as new, those of failed edits included; and the failure itself leaves them as they were. -/
theorem run_consistent (ev : Evaluator) (capacity : Nat) (texts : List String)
    (events : List Event) (s : Workshop) (run : (start capacity texts).run ev events = some s)
    (few : s.memo.issued < UInt64.size) :
    s.Consistent ∧
    ((start capacity texts).issues ev events).Pairwise (· < ·) ∧
    (∀ k ∈ (start capacity texts).issues ev events, k < s.memo.nextKey) ∧
    s.placements.freshKeys.Sublist ((start capacity texts).issues ev events) ∧
    (∀ call ∈ s.ended, ∀ f, call.failure = some f → f = .hubClosed) ∧
    s.memo.entries.map Prod.snd = s.placements.startedKeys ∧
    (∀ e t r f, s.handle ev e = some t → t.ended = s.ended ++ [⟨r, some f⟩] →
      t.memo.entries = s.memo.entries ∧ t.cells = s.cells) := by
  have agrees := agrees_of_run run few
  obtain ⟨fresh, recorded⟩ := placements_of_run run
  refine ⟨consistent_of_agrees agrees, issues_ascend run few, ?_, fresh, failures_of_run run few,
    recorded, ?_⟩
  · intro k hk
    have hn : k.number ∈ ((start capacity texts).issues ev events).map Key.number :=
      List.mem_map_of_mem hk
    rw [(issues_number run few).2, List.mem_range'_1] at hn
    rw [Key.lt_iff, Memo.nextKey_number few]
    omega
  · intro e t r f handled failed
    obtain ⟨_, _, entries, cells⟩ := handle_failed agrees handled failed
    exact ⟨entries, cells⟩

theorem run_consistent_when_halted : ∃ s : Workshop,
    (start 4 ["a = 1\na"]).run (.calc ∅) [.move .turn, .move .add, .halt, .move .add] = some s ∧
    s.memo.issued = 2 ∧ s.ended.map Call.failure = [some .hubClosed] ∧
    s.memo.entries.map (·.1.source) = ["a = 1"] ∧ s.Consistent := by
  have ends : ((start 4 ["a = 1\na"]).run (.calc ∅)
      [.move .turn, .move .add, .halt, .move .add]).isSome = true := by cbv
  have issued : (Option.get _ ends).memo.issued = 2 := by cbv
  have failed : (Option.get _ ends).ended.map Call.failure = [some .hubClosed] := by cbv
  have sources : (Option.get _ ends).memo.entries.map (·.1.source) = ["a = 1"] := by cbv
  have run := (Option.some_get ends).symm
  have few : (Option.get _ ends).memo.issued < UInt64.size := by rw [issued]; decide
  exact ⟨_, run, issued, failed, sources, (run_consistent (.calc ∅) 4 _ _ _ run few).1⟩

end Workshop

end Worksheet
