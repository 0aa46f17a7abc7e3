import Worksheet.Proofs.Evaluation
/-! A round of evaluations among cells of which some may have been stopped. Cells that do not wait stay
as they are, and one that waits evaluates at most once, on what its parents hand on behind the round. -/
namespace Worksheet

open Calc (Decl)
open Report (about)

namespace Cells

variable {ev : Evaluator} {cs later last : Cells} {k j : Key} {c : Cell} {r : Report}
  {reports : List Report} {order : List Key}

/-- The parents of each cell are among those that were started before it, and all keys differ. -/
structure Arranged (cs : Cells) : Prop where
  once : cs.keys.Nodup
  earlier : ∀ before r after, cs.rows = before ++ r :: after →
    ∀ p ∈ r.parents, p ∈ before.map Row.key

theorem Arranged.of_rows (h : cs.Arranged) (same : later.rows = cs.rows) : later.Arranged where
  once := keys_of_rows same ▸ h.once
  earlier := same ▸ h.earlier

theorem Arranged.start (h : cs.Arranged) {decl : Decl} {parents : List Key} (new : k ∉ cs.keys)
    (known : ∀ p ∈ parents, p ∈ cs.keys) : (cs.start k decl parents).Arranged where
  once := by
    rw [keys_start]
    exact List.nodup_append.2 ⟨h.once, List.nodup_cons.2 ⟨List.not_mem_nil, .nil⟩, fun a ha b hb same =>
      new (List.mem_singleton.1 hb ▸ same ▸ ha)⟩
  earlier := by
    intro before r after split
    rw [rows_start] at split
    rcases List.eq_nil_or_concat after with rfl | ⟨others, row, rfl⟩
    · obtain ⟨rfl, same⟩ := List.append_inj' split rfl
      cases same
      rw [← keys_eq_rows]
      exact known
    · have split' : cs.rows ++ [⟨k, decl.source, parents⟩] = (before ++ r :: others) ++ [row] := by
        rw [split, List.concat_eq_append, List.append_assoc]
        rfl
      exact h.earlier before r others (List.append_inj' split' rfl).1

/-- The first of the cells that wait can evaluate. -/
theorem Arranged.first (ev : Evaluator) (h : cs.Arranged) {more : List Key}
    (waiting : cs.waiting = k :: more) : ∃ r later, cs.finish ev k = some (r, later) := by
  obtain ⟨c, _, first, rfl, _⟩ := List.map_eq_cons_iff.1 waiting
  obtain ⟨before, after, all, calm, waits, _⟩ := List.filter_eq_cons_iff.1 first
  have keys : cs.keys = before.map Cell.key ++ c.key :: after.map Cell.key := by
    rw [Cells.keys, all, List.map_append]
    rfl
  have found_before : ∀ p ∈ before.map Cell.key, ∃ q ∈ before, cs.find? p = some q := by
    intro p hp
    have some_found : (before.find? (·.key = p)).isSome := by simpa using hp
    obtain ⟨q, hq⟩ := Option.isSome_iff_exists.1 some_found
    refine ⟨q, List.mem_of_find?_eq_some hq, ?_⟩
    rw [find?, all, List.find?_append, hq]
    rfl
  have found : cs.find? c.key = some c := by
    have once := h.once
    rw [keys] at once
    have fresh : before.find? (·.key = c.key) = none := by
      have apart := (List.nodup_append.1 once).2.2
      simpa using fun b hb same => apart b.key (List.mem_map_of_mem hb) c.key (List.mem_cons_self ..) same
    rw [find?, all, List.find?_append, fresh]
    simp
  have ready : cs.ready c = true := by
    refine List.all_eq_true.2 fun p parent => ?_
    have rows : cs.rows = before.map Cell.row ++ c.row :: after.map Cell.row := by
      rw [Cells.rows, all, List.map_append]
      rfl
    have early := h.earlier _ _ _ rows p parent
    rw [List.map_map] at early
    obtain ⟨q, hq, found⟩ := found_before p early
    simpa [found] using calm q hq
  simp [finish, found, waits, ready]

/-- Evaluating the cells that wait in the order in which they were started leaves none of them. -/
theorem Arranged.settles (ev : Evaluator) (h : cs.Arranged) {keys : List Key}
    (waiting : cs.waiting = keys) : (cs.finishAll ev keys).2.waiting = [] := by
  induction keys generalizing cs with
  | nil => exact waiting
  | cons k more ih =>
    obtain ⟨r, later, step⟩ := h.first ev waiting
    have once : cs.waiting.Nodup := h.once.sublist (List.filter_sublist.map Cell.key)
    rw [waiting, List.nodup_cons] at once
    have rest : later.waiting = more := by
      rw [(waiting_finish step).2.1, waiting, List.filter_cons_of_neg (by simp)]
      exact List.filter_eq_self.2 fun j hj => decide_eq_true fun same => once.1 (same ▸ hj)
    simp only [finishAll, step]
    exact ih (h.of_rows (rows_of_finish step)) rest

/-- A cell has evaluated: it serves what its declaration comes to on what its parents hand on, and
that was reported once. -/
structure Ended (ev : Evaluator) (last : Cells) (c : Cell) (reports : List Report) : Prop where
  serves : last.find? c.key =
    some { c with phase := .serving ((last.outcome ev c).served ev.fallback) }
  told : about c.key reports =
    [.finished c.key (last.outcome ev c).status (last.outcome ev c).output]
  calm : ∀ p ∈ c.parents, ((last.find? p).any Cell.isWaiting) = false

/-- What evaluating some cells, in whatever order, does to all. -/
structure Worked (ev : Evaluator) (cs : Cells) (reports : List Report) (last : Cells) : Prop where
  rows : last.rows = cs.rows
  /-- A cell that does not wait stays as it is. -/
  still : ∀ k c, cs.find? k = some c → c.isWaiting = false →
    last.find? k = some c ∧ about k reports = []
  waits : ∀ k c, cs.find? k = some c → c.isWaiting = true →
    (last.find? k = some c ∧ about k reports = []) ∨ Ended ev last c reports
  unknown : ∀ k, k ∉ cs.keys → about k reports = []
  calls : ∀ k, last.calls.count k = cs.calls.count k + (about k reports).length

namespace Worked

theorem refl (ev : Evaluator) (cs : Cells) : Worked ev cs [] cs where
  rows := rfl
  still := fun _ _ found _ => ⟨found, rfl⟩
  waits := fun _ _ found _ => Or.inl ⟨found, rfl⟩
  unknown := fun _ _ => rfl
  calls := fun _ => rfl

theorem keys (h : Worked ev cs reports last) : last.keys = cs.keys := keys_of_rows h.rows

/-- What a calm cell comes to does not change any more. -/
theorem outcome (h : Worked ev cs reports last)
    (calm : ∀ p ∈ c.parents, ((cs.find? p).any Cell.isWaiting) = false) :
    last.outcome ev c = cs.outcome ev c ∧
      ∀ p ∈ c.parents, ((last.find? p).any Cell.isWaiting) = false := by
  have same : ∀ p ∈ c.parents, last.find? p = cs.find? p := by
    intro p parent
    cases found : cs.find? p with
    | none =>
      rw [find?_eq_none_iff, ← h.keys, ← find?_eq_none_iff] at found
      exact found
    | some q => exact (h.still p q found (by simpa [found] using calm p parent)).1
  refine ⟨congrArg _ (input_congr fun p parent => ?_), fun p parent => ?_⟩
  · simp only [servedOr, same p parent]
  · rw [same p parent]
    exact calm p parent

theorem trans {reports' : List Report} (h : Worked ev cs reports later)
    (h' : Worked ev later reports' last) : Worked ev cs (reports ++ reports') last where
  rows := h'.rows.trans h.rows
  still := by
    intro k c found calm
    obtain ⟨found', early⟩ := h.still k c found calm
    obtain ⟨found'', late⟩ := h'.still k c found' calm
    exact ⟨found'', by rw [Report.about_append, early, late]; rfl⟩
  waits := by
    intro k c found waits
    obtain ⟨_, rfl⟩ := find?_mem found
    rcases h.waits c.key c found waits with ⟨found', early⟩ | ended
    · rcases h'.waits c.key c found' waits with ⟨found'', late⟩ | ended
      · exact Or.inl ⟨found'', by rw [Report.about_append, early, late]; rfl⟩
      · exact Or.inr ⟨ended.serves, by rw [Report.about_append, early]; exact ended.told, ended.calm⟩
    · obtain ⟨same, calm⟩ := h'.outcome ended.calm
      obtain ⟨serves, late⟩ := h'.still _ _ ended.serves rfl
      refine Or.inr ⟨?_, ?_, calm⟩
      · rw [same]
        exact serves
      · rw [Report.about_append, late, List.append_nil, same]
        exact ended.told
  unknown := by
    intro k new
    rw [Report.about_append, h.unknown k new, h'.unknown k (h.keys ▸ new)]
    rfl
  calls := by
    intro k
    rw [h'.calls, h.calls, Report.about_append, List.length_append, Nat.add_assoc]

theorem finish (step : cs.finish ev k = some (r, later)) : Worked ev cs [r] later := by
  obtain ⟨c, o, found, waits, ready, result, rfl, all, called⟩ := of_finish step
  obtain ⟨hc, rfl⟩ := find?_mem found
  have here : later.find? c.key = some { c with phase := .serving (o.served ev.fallback) } := by
    rw [find?_congr all, find?_setPhase, found, Option.map_some, if_pos rfl]
  have elsewhere : ∀ j, j ≠ c.key → later.find? j = cs.find? j := by
    intro j other
    rw [find?_congr all, find?_setPhase]
    cases found : cs.find? j with
    | none => rfl
    | some b =>
      have differ : b.key ≠ c.key := (find?_mem found).2 ▸ other
      rw [Option.map_some, if_neg differ]
  have told : ∀ j, about j [.finished c.key o.status o.output] =
      if j = c.key then [.finished c.key o.status o.output] else [] := fun j =>
    Report.about_ofEntry j c.key _
  have calm : ∀ p ∈ c.parents, p ≠ c.key ∧ (cs.find? p).any Cell.isWaiting = false := by
    intro p parent
    have ready := List.all_eq_true.1 ready p parent
    refine ⟨?_, by simpa using ready⟩
    rintro rfl
    simp [found, waits] at ready
  have same : later.outcome ev c = o := by
    rw [result]
    refine congrArg _ (input_congr fun p parent => ?_)
    simp only [servedOr, elsewhere p (calm p parent).1]
  constructor
  · exact rows_of_finish step
  · intro j b found' still
    have other : j ≠ c.key := by
      rintro rfl
      cases found.symm.trans found'
      rw [waits] at still
      cases still
    rw [elsewhere j other, told, if_neg other]
    exact ⟨found', rfl⟩
  · intro j b found' waits'
    by_cases other : j = c.key
    · subst other
      cases found.symm.trans found'
      refine Or.inr ⟨?_, ?_, fun p parent => ?_⟩
      · rw [same]
        exact here
      · rw [same, told, if_pos rfl]
      · rw [elsewhere p (calm p parent).1]
        exact (calm p parent).2
    · rw [elsewhere j other, told, if_neg other]
      exact Or.inl ⟨found', rfl⟩
  · intro j new
    have other : j ≠ c.key := fun same => new (same ▸ mem_keys hc)
    rw [told, if_neg other]
  · intro j
    rw [called, List.count_append, told]
    by_cases other : j = c.key
    · simp [other]
    · simp [other, Ne.symm other]

theorem finishAll (ev : Evaluator) (cs : Cells) (order : List Key) :
    Worked ev cs (cs.finishAll ev order).1 (cs.finishAll ev order).2 := by
  induction order generalizing cs with
  | nil => exact refl ev cs
  | cons key more ih =>
    simp only [Cells.finishAll]
    cases step : cs.finish ev key with
    | none => exact ih cs
    | some out => exact (finish step).trans (ih out.2)

end Worked

end Cells

end Worksheet
