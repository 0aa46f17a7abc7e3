import Worksheet.Proofs.Sequence
/-! The reports of a desk. It reports on each key once, when it gives the key out. -/
namespace Worksheet

open Calc (Section)
open Report (entriesOf)

theorem Report.ofEntry_inj {j k : Key} {e f : Entry} (same : ofEntry j e = ofEntry k f) :
    j = k ∧ e = f := by
  have entries : [(j, e)] = [(k, f)] := congrArg (fun r => r.entries.toList) same
  cases entries
  exact ⟨rfl, rfl⟩

namespace Desk

variable {running : Bool} {d d' last : Desk} {item : Section} {items : List Section} {e : Entered}
  {r : Revision} {before reports : List Report} {texts : List String} {rs : List Revision}

structure Ledger (d : Desk) (reports : List Report) : Prop where
  once : ∀ k e, .ofEntry k e ∈ reports → k.number < d.memo.issued ∧ entriesOf k reports = [e]
  rows : ∀ r ∈ d.cells.rows, .ofEntry r.key { source := some r.source } ∈ reports
  unissued : ∀ k : Key, d.memo.issued ≤ k.number → entriesOf k reports = []

theorem empty_ledger : empty.Ledger [] where
  once := fun _ _ member => absurd member List.not_mem_nil
  rows := fun _ member => absurd member List.not_mem_nil
  unissued := fun _ _ => rfl

namespace Ledger

theorem order (h : d.Ledger before) (keys : List Key) : d.Ledger (before ++ [.ofOrder keys]) where
  once := by
    intro k e member
    rcases List.mem_append.1 member with member | member
    · rw [Report.entriesOf_append, Report.entriesOf_ofOrder, List.append_nil]
      exact h.once k e member
    · have same := congrArg Report.order (List.mem_singleton.1 member)
      cases same
  rows := fun r hr => List.mem_append_left _ (h.rows r hr)
  unissued := by
    intro k new
    rw [Report.entriesOf_append, Report.entriesOf_ofOrder, List.append_nil]
    exact h.unissued k new

theorem issue (h : d.Ledger before) (few : d.memo.issued < UInt64.size) (e : Entry) :
    ({ d with memo := d.memo.issue } : Desk).Ledger
      (before ++ [.ofEntry d.memo.nextKey e]) where
  once := by
    intro k f member
    have number := Memo.nextKey_number few
    rw [Report.entriesOf_append, Report.entriesOf_ofEntry]
    rcases List.mem_append.1 member with member | member
    · obtain ⟨old, entry⟩ := h.once k f member
      have other : k ≠ d.memo.nextKey := by
        intro same
        rw [same, number] at old
        exact Nat.lt_irrefl _ old
      rw [if_neg other, List.append_nil]
      exact ⟨Nat.lt_succ_of_lt old, entry⟩
    · obtain ⟨rfl, rfl⟩ := Report.ofEntry_inj (List.mem_singleton.1 member)
      rw [if_pos rfl, h.unissued _ (Nat.le_of_eq number.symm), number]
      exact ⟨Nat.lt_succ_self _, rfl⟩
  rows := fun r hr => List.mem_append_left _ (h.rows r hr)
  unissued := by
    intro k new
    have above : d.memo.issued < k.number := new
    have other : k ≠ d.memo.nextKey := by
      intro same
      rw [same, Memo.nextKey_number few] at above
      exact Nat.lt_irrefl _ above
    rw [Report.entriesOf_append, Report.entriesOf_ofEntry, if_neg other,
      h.unissued k (Nat.le_of_lt above)]
    rfl

theorem added (h : d.Ledger before) (add : Added d running item (d', .ok e))
    (few : d'.memo.issued < UInt64.size) : d'.Ledger (before ++ e.report.toList) := by
  cases add with
  | broken source e => exact h.issue (Nat.lt_of_succ_lt few) _
  | reused decl key held =>
    simp only [Option.toList, List.append_nil]
    exact ⟨h.once, h.rows, h.unissued⟩
  | started decl new parents =>
    have next := h.issue (Nat.lt_of_succ_lt few) { source := some decl.source }
    refine ⟨next.once, ?_, next.unissued⟩
    intro r hr
    rw [Cells.rows_start] at hr
    rcases List.mem_append.1 hr with hr | hr
    · exact next.rows r hr
    · cases List.mem_singleton.1 hr
      exact List.mem_append_right _ (List.mem_singleton.2 rfl)

end Ledger

theorem Entering.ledger (h : Entering running d items r reports last)
    (few : last.memo.issued < UInt64.size) (start : d.Ledger before) :
    last.Ledger (before ++ reports) := by
  induction h generalizing before with
  | nil d => rw [List.append_nil]; exact start
  | cons added more ih =>
    have next := start.added added (Nat.lt_of_le_of_lt more.extends.issued few)
    rw [← List.append_assoc]
    exact ih few next

theorem Editing.ledger (h : Editing running d texts rs reports last)
    (few : last.memo.issued < UInt64.size) (start : d.Ledger before) :
    last.Ledger (before ++ reports) := by
  induction h generalizing before with
  | nil d => rw [List.append_nil]; exact start
  | @cons d d' last text texts r rs reports reports' entered more ih =>
    have turned : d.turn.Ledger before := ⟨start.once, start.rows, start.unissued⟩
    have few_here := Nat.lt_of_le_of_lt more.extends.issued few
    have next := ih few ((entered.ledger few_here turned).order r.order)
    rw [List.append_assoc, List.append_assoc] at next
    exact next

end Desk

end Worksheet
