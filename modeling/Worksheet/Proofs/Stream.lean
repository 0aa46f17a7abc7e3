import Worksheet.Proofs.Reports
/-! What one observer gets, from what it notices: reports that are offered to it, its own requests for
the next one, and its going away. -/
namespace Worksheet

def Receipt.report? : Receipt → Option Report
  | report r => some r
  | _ => none

/-- What one observer notices of what reaches a hub. -/
inductive Notice
  | report (report : Report)
  | receive
  | leave
  deriving DecidableEq

def Notice.report? : Notice → Option Report
  | report r => some r
  | _ => none

namespace Observer

variable {room : Nat} {o : Observer} {seen late : List Notice}

def notice (room : Nat) (o : Observer) : Notice → Observer
  | .report r => o.offer room r
  | .receive => o.next.2
  | .leave => ⟨[], false⟩

def follow (room : Nat) (o : Observer) (seen : List Notice) : Observer := seen.foldl (notice room) o

def answer (o : Observer) : Notice → List Receipt
  | .receive => [o.next.1]
  | _ => []

/-- What the observer gets, each time it asks. -/
def receipts (room : Nat) (o : Observer) : List Notice → List Receipt
  | [] => []
  | n :: more => o.answer n ++ receipts room (o.notice room n) more

def received (room : Nat) (o : Observer) (seen : List Notice) : List Report :=
  (o.receipts room seen).filterMap Receipt.report?

theorem follow_cons (room : Nat) (o : Observer) (n : Notice) (seen : List Notice) :
    o.follow room (n :: seen) = (o.notice room n).follow room seen := rfl

theorem follow_append (room : Nat) (o : Observer) (seen late : List Notice) :
    o.follow room (seen ++ late) = (o.follow room seen).follow room late := List.foldl_append

theorem receipts_append (room : Nat) (o : Observer) (seen late : List Notice) :
    o.receipts room (seen ++ late) =
      o.receipts room seen ++ (o.follow room seen).receipts room late := by
  induction seen generalizing o with
  | nil => rfl
  | cons n seen ih =>
    rw [List.cons_append, receipts, ih, ← List.append_assoc]
    rfl

theorem received_append (room : Nat) (o : Observer) (seen late : List Notice) :
    o.received room (seen ++ late) =
      o.received room seen ++ (o.follow room seen).received room late := by
  rw [received, receipts_append, List.filterMap_append]
  rfl

/-- Asking takes the oldest report from the queue, and nothing from an empty one. -/
theorem next_queue (o : Observer) : o.next.1.report?.toList ++ o.next.2.queue = o.queue := by
  unfold next
  split
  · rename_i r rest held
    rw [held]
    rfl
  · rename_i held
    rw [held]
    cases o.attached with
    | true => rfl
    | false => rfl

theorem next_of_queued {r : Report} {rest : List Report} (held : o.queue = r :: rest) :
    o.next = (.report r, { o with queue := rest }) := by
  simp [next, held]

theorem next_of_empty (left : o.attached = false) (held : o.queue = []) :
    o.next = (.ended, o) := by
  simp [next, held, left]

theorem next_attached (o : Observer) : o.next.2.attached = o.attached := by
  unfold next
  split
  · rfl
  · rfl

theorem next_length (o : Observer) : o.next.2.queue.length ≤ o.queue.length := by
  rw [← congrArg List.length o.next_queue, List.length_append]
  exact Nat.le_add_left _ _

theorem offer_left (left : o.attached = false) (r : Report) : o.offer room r = o := by
  simp only [offer, left, Bool.false_eq_true, if_false]

/-- What one notice does to the queue of an observer that is still attached behind it. -/
theorem notice_queue {n : Notice} (still : (o.notice room n).attached = true) :
    o.attached = true ∧ o.received room [n] ++ (o.notice room n).queue =
      o.queue ++ n.report?.toList := by
  cases n with
  | leave => cases still
  | receive =>
    refine ⟨o.next_attached ▸ still, ?_⟩
    have taken := o.next_queue
    simp only [received, receipts, answer, List.append_nil, List.filterMap_cons,
      List.filterMap_nil, notice, Notice.report?, Option.toList_none]
    rw [← taken]
    cases o.next.1.report? with
    | none => rfl
    | some r => rfl
  | report r =>
    simp only [notice, offer] at still ⊢
    split at still
    · rename_i attached
      split at still
      · rename_i fits
        simp only [if_pos attached, if_pos fits]
        exact ⟨attached, rfl⟩
      · cases still
    · rename_i left
      exact absurd still left

theorem notice_length {n : Notice} (fits : o.queue.length ≤ room) :
    (o.notice room n).queue.length ≤ room := by
  cases n with
  | leave => exact Nat.zero_le _
  | receive => exact Nat.le_trans o.next_length fits
  | report r =>
    simp only [notice, offer]
    split
    · split
      · rw [List.length_append, List.length_singleton]
        omega
      · exact fits
    · exact fits

theorem follow_length (fits : o.queue.length ≤ room) :
    (o.follow room seen).queue.length ≤ room := by
  induction seen generalizing o with
  | nil => exact fits
  | cons n seen ih => exact ih (notice_length fits)

theorem received_cons (room : Nat) (o : Observer) (n : Notice) (seen : List Notice) :
    o.received room (n :: seen) = o.received room [n] ++ (o.notice room n).received room seen :=
  received_append room o [n] seen

theorem reports_cons (n : Notice) (seen : List Notice) :
    (n :: seen).filterMap Notice.report? =
      n.report?.toList ++ seen.filterMap Notice.report? := by
  rw [List.filterMap_cons]
  cases n.report? with
  | none => rfl
  | some r => rfl

/-- An observer that is attached has missed nothing. -/
theorem follow_attached (still : (o.follow room seen).attached = true) :
    o.attached = true ∧ o.received room seen ++ (o.follow room seen).queue =
      o.queue ++ seen.filterMap Notice.report? := by
  induction seen generalizing o with
  | nil => exact ⟨still, (List.append_nil _).symm⟩
  | cons n seen ih =>
    obtain ⟨next, rest⟩ := ih still
    obtain ⟨first, here⟩ := notice_queue next
    refine ⟨first, ?_⟩
    rw [received_cons, follow_cons, List.append_assoc, rest, ← List.append_assoc, here,
      reports_cons, List.append_assoc]

/-- How often the observer asks. -/
def asked (seen : List Notice) : Nat := seen.count .receive

/-- One that is not attached any more still gets what is queued, and then the end. -/
theorem receipts_left (room : Nat) (left : o.attached = false) (stays : Notice.leave ∉ seen) :
    o.receipts room seen = (o.queue.take (asked seen)).map .report ++
        List.replicate (asked seen - o.queue.length) .ended ∧
      (o.follow room seen).queue = o.queue.drop (asked seen) ∧
      (o.follow room seen).attached = false := by
  induction seen generalizing o with
  | nil => exact ⟨by simp [receipts, asked], rfl, left⟩
  | cons n seen ih =>
    rw [List.mem_cons, not_or] at stays
    obtain ⟨here, stays⟩ := stays
    cases n with
    | leave => exact absurd rfl here
    | report r =>
      have same : o.notice room (.report r) = o := offer_left left r
      have count : asked (.report r :: seen) = asked seen := List.count_cons_of_ne Notice.noConfusion
      rw [count, follow_cons, same, receipts, same]
      exact ih left stays
    | receive =>
      have count : asked (.receive :: seen) = asked seen + 1 := List.count_cons_self
      have head : o.receipts room (.receive :: seen) = o.next.1 :: o.next.2.receipts room seen := rfl
      have tail : o.follow room (.receive :: seen) = o.next.2.follow room seen := rfl
      obtain ⟨got, kept, gone⟩ := ih (o.next_attached.trans left) stays
      rw [count, head, tail, got]
      refine ⟨?_, ?_, gone⟩
      · cases held : o.queue with
        | nil => simp [next_of_empty left held, held, List.replicate_succ]
        | cons r rest => simp [next_of_queued held]
      · cases held : o.queue with
        | nil => simpa [next_of_empty left held, held] using kept
        | cons r rest => simpa [next_of_queued held] using kept

theorem received_left (left : o.attached = false) (stays : Notice.leave ∉ seen) :
    o.received room seen ++ (o.follow room seen).queue = o.queue := by
  obtain ⟨got, kept, _⟩ := receipts_left room left stays
  have reports : ∀ rs : List Report, (rs.map Receipt.report).filterMap Receipt.report? = rs := by
    intro rs
    rw [List.filterMap_map]
    exact List.filterMap_some
  rw [received, got, kept, List.filterMap_append, reports, List.filterMap_replicate_of_none rfl,
    List.append_nil, List.take_append_drop]

theorem received_detached (room : Nat) (seen : List Notice) :
    (⟨[], false⟩ : Observer).received room seen = [] ∧
      (⟨[], false⟩ : Observer).follow room seen = ⟨[], false⟩ := by
  induction seen with
  | nil => exact ⟨rfl, rfl⟩
  | cons n seen ih =>
    cases n with
    | report r => exact ih
    | receive => exact ih
    | leave => exact ih

/-- What was queued when an observer went away is lost, and nothing comes to it any more. -/
theorem received_leave (seen late : List Notice) :
    o.received room (seen ++ .leave :: late) = o.received room seen ∧
      o.follow room (seen ++ .leave :: late) = ⟨[], false⟩ := by
  obtain ⟨nothing, same⟩ := received_detached room late
  rw [received_append, follow_append]
  refine ⟨?_, same⟩
  exact (congrArg (o.received room seen ++ ·) nothing).trans (List.append_nil _)

/-- An observer that did not go away is left behind by the first report that finds its queue full. -/
theorem left_behind (attached : o.attached = true) (fits : o.queue.length ≤ room)
    (stays : Notice.leave ∉ seen) (left : (o.follow room seen).attached = false) :
    ∃ early r late, seen = early ++ .report r :: late ∧
      (o.follow room early).attached = true ∧ (o.follow room early).queue.length = room ∧
      o.received room seen ++ (o.follow room seen).queue =
        o.queue ++ early.filterMap Notice.report? := by
  induction seen generalizing o with
  | nil =>
    rw [show o.follow room [] = o from rfl, attached] at left
    cases left
  | cons n seen ih =>
    rw [List.mem_cons, not_or] at stays
    obtain ⟨here, stays⟩ := stays
    cases still : (o.notice room n).attached with
    | true =>
      obtain ⟨early, r, late, rfl, before, full, gapless⟩ :=
        ih still (notice_length fits) stays left
      refine ⟨n :: early, r, late, rfl, before, full, ?_⟩
      rw [received_cons, follow_cons, List.append_assoc, gapless, ← List.append_assoc,
        (notice_queue still).2, reports_cons, List.append_assoc]
    | false =>
      cases n with
      | leave => exact absurd rfl here
      | receive =>
        have same : (o.notice room .receive).attached = o.attached := o.next_attached
        rw [same, attached] at still
        cases still
      | report r =>
        have kept : (o.notice room (.report r)).queue = o.queue ∧ ¬ o.queue.length < room := by
          simp only [notice, offer, if_pos attached] at still ⊢
          split at still
          · rw [attached] at still
            cases still
          · rename_i full
            rw [if_neg full]
            exact ⟨rfl, full⟩
        refine ⟨[], r, seen, rfl, attached, ?_, ?_⟩
        · exact Nat.le_antisymm fits (Nat.le_of_not_lt kept.2)
        · rw [List.filterMap_nil, List.append_nil, follow_cons, ← kept.1]
          exact received_left still stays

end Observer

end Worksheet
