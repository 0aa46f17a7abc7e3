import Worksheet.Proofs.Schedule
/-! Items and texts, taken in one after another by a desk. What was recorded stays recorded, and what
was reported about a key that is in use is not reported on again. -/
namespace Worksheet

open Calc (Section)
open Report (entriesOf)

namespace Desk

variable {running : Bool} {d d' last : Desk} {item : Section} {items : List Section} {e : Entered}
  {r : Revision} {reports : List Report} {texts : List String} {rs : List Revision}

/-- Items that are taken in, what becomes of them, and what is reported. -/
inductive Entering (running : Bool) :
    Desk → List Section → Revision → List Report → Desk → Prop
  | nil (d : Desk) : Entering running d [] [] [] d
  | cons {d d' last : Desk} {item : Section} {items : List Section} {e : Entered} {r : Revision}
      {reports : List Report} (added : Added d running item (d', .ok e))
      (more : Entering running d' items r reports last) :
      Entering running d (item :: items) (e.placed :: r) (e.report.toList ++ reports) last

/-- The same for texts. Behind each text comes its order. -/
inductive Editing (running : Bool) :
    Desk → List String → List Revision → List Report → Desk → Prop
  | nil (d : Desk) : Editing running d [] [] [] d
  | cons {d d' last : Desk} {text : String} {texts : List String} {r : Revision}
      {rs : List Revision} {reports reports' : List Report}
      (entered : Entering running d.turn (Calc.parse text) r reports d')
      (more : Editing running d' texts rs reports' last) :
      Editing running d (text :: texts) (r :: rs) (reports ++ .ofOrder r.order :: reports') last

/-- One desk comes behind another. -/
structure Extends (d d' : Desk) : Prop where
  issued : d.memo.issued ≤ d'.memo.issued
  entries : d.memo.entries <+: d'.memo.entries

theorem Extends.refl (d : Desk) : Extends d d := ⟨Nat.le_refl _, List.prefix_refl _⟩

theorem Extends.trans (h : Extends d d') (h' : Extends d' last) : Extends d last :=
  ⟨Nat.le_trans h.issued h'.issued, h.entries.trans h'.entries⟩

theorem Added.extends (add : Added d running item (d', .ok e)) : Extends d d' := by
  cases add with
  | broken => exact ⟨Nat.le_succ _, List.prefix_refl _⟩
  | reused => exact ⟨Nat.le_refl _, List.prefix_refl _⟩
  | started => exact ⟨Nat.le_succ _, List.prefix_append ..⟩

theorem Entering.extends (h : Entering running d items r reports last) : Extends d last := by
  induction h with
  | nil d => exact Extends.refl d
  | cons added more ih => exact added.extends.trans ih

theorem Editing.extends (h : Editing running d texts rs reports last) : Extends d last := by
  induction h with
  | nil d => exact Extends.refl d
  | cons entered more ih => exact Extends.trans ⟨entered.extends.issued, entered.extends.entries⟩ ih

/-- What holds of a desk and is kept by each item holds behind all items. -/
theorem Entering.induction {P : Desk → Prop} (h : Entering running d items r reports last)
    (few : last.memo.issued < UInt64.size)
    (keep : ∀ {d d' item e}, item ∈ items → P d → Added d running item (d', .ok e) →
      d'.memo.issued < UInt64.size → P d') (start : P d) : P last := by
  induction h with
  | nil d => exact start
  | cons added more ih =>
    have few_here := Nat.lt_of_le_of_lt more.extends.issued few
    have next := keep (List.mem_cons_self ..) start added few_here
    exact ih few (fun member => keep (List.mem_cons_of_mem _ member)) next

theorem Editing.induction {P : Desk → Prop} (h : Editing running d texts rs reports last)
    (few : last.memo.issued < UInt64.size) (turn : ∀ {d}, P d → P d.turn)
    (keep : ∀ {d d' source e}, P d → Added d running (.ofSource source) (d', .ok e) →
      d'.memo.issued < UInt64.size → P d') (start : P d) : P last := by
  induction h with
  | nil d => exact start
  | cons entered more ih =>
    have few_here := Nat.lt_of_le_of_lt more.extends.issued few
    refine ih few (entered.induction few_here ?_ (turn start))
    intro d d' item e member before added few
    obtain ⟨source, _, rfl⟩ := List.mem_map.1 member
    exact keep before added few

theorem Entering.agrees (h : Entering running d items r reports last)
    (few : last.memo.issued < UInt64.size) (agrees : d.Agrees) : last.Agrees :=
  h.induction few (fun _ before added few => before.added added few) agrees

theorem Editing.agrees (h : Editing running d texts rs reports last)
    (few : last.memo.issued < UInt64.size) (agrees : d.Agrees) : last.Agrees :=
  h.induction few Agrees.turn (fun before added few => before.added added few) agrees

theorem Entering.length (h : Entering running d items r reports last) :
    r.length = items.length := by
  induction h with
  | nil => rfl
  | cons added more ih => simp only [List.length_cons, ih]

theorem Editing.length (h : Editing running d texts rs reports last) :
    rs.length = texts.length := by
  induction h with
  | nil => rfl
  | cons entered more ih => simp only [List.length_cons, ih]

theorem Entering.recordedKeys (h : Entering running d items r reports last) :
    last.recordedKeys = d.recordedKeys ++ r.startedKeys := by
  induction h with
  | nil d => exact (List.append_nil _).symm
  | @cons d d' last item items e r reports added more ih =>
    have split : Revision.startedKeys (e.placed :: r) =
        Revision.startedKeys [e.placed] ++ r.startedKeys := Revision.startedKeys_append [e.placed] r
    rw [ih, added.recordedKeys, split, List.append_assoc]

theorem Editing.recordedKeys (h : Editing running d texts rs reports last) :
    last.recordedKeys = d.recordedKeys ++ rs.flatMap Revision.startedKeys := by
  induction h with
  | nil d => exact (List.append_nil _).symm
  | cons entered more ih =>
    rw [ih, entered.recordedKeys, List.flatMap_cons, List.append_assoc]
    rfl

/-- Some texts come before others. -/
theorem Editing.split {texts texts' : List String}
    (h : Editing running d (texts ++ texts') rs reports last) :
    ∃ mid rs₁ rs₂ reports₁ reports₂, Editing running d texts rs₁ reports₁ mid ∧
      Editing running mid texts' rs₂ reports₂ last ∧ rs = rs₁ ++ rs₂ ∧
      reports = reports₁ ++ reports₂ := by
  induction texts generalizing d rs reports with
  | nil => exact ⟨d, [], rs, [], reports, .nil d, h, rfl, rfl⟩
  | cons text texts ih =>
    cases h with
    | cons entered more =>
      obtain ⟨mid, rs₁, rs₂, reports₁, reports₂, before, behind, rfl, rfl⟩ := ih more
      exact ⟨mid, _, rs₂, _, reports₂, .cons entered before, behind, rfl, by simp⟩

end Desk

namespace Live

open Desk (Added Entering Editing)

variable {l l' : Live}

theorem add_entering {item : Section} {p : Placed} (h : l.add item = (l', .ok p)) :
    ∃ e, Added l.toDesk l.hub.running item (l'.toDesk, .ok e) ∧ e.placed = p ∧
      l'.hub = e.report.toList.foldl Hub.publish l.hub := by
  simp only [add] at h
  split at h
  · rename_i d e added
    cases h
    refine ⟨e, .of_add added, rfl, ?_⟩
    cases e.report with
    | none => rfl
    | some r => rfl
  · cases h

theorem addAll_entering {items : List Section} {r : Revision} (h : l.addAll items = (l', .ok r)) :
    ∃ reports, Entering l.hub.running l.toDesk items r reports l'.toDesk ∧
      l'.hub = reports.foldl Hub.publish l.hub := by
  induction items generalizing l r with
  | nil =>
    cases h
    exact ⟨[], .nil _, rfl⟩
  | cons item items ih =>
    simp only [addAll] at h
    split at h
    · cases h
    · rename_i next p first
      cases rest : next.addAll items with | mk last out =>
      simp only [rest] at h
      cases out with
      | error f => cases h
      | ok more =>
        cases h
        obtain ⟨e, added, rfl, hub⟩ := add_entering first
        obtain ⟨reports, entered, hub'⟩ := ih rest
        rw [hub, Hub.publishAll_running] at entered
        refine ⟨_, .cons added entered, ?_⟩
        rw [hub', hub, List.foldl_append]

theorem edit_entering {text : String} {r : Revision} (h : l.edit text = (l', .ok r)) :
    ∃ reports, Entering l.hub.running l.toDesk.turn (Calc.parse text) r reports l'.toDesk ∧
      l'.hub = (reports ++ [Report.ofOrder r.order]).foldl Hub.publish l.hub := by
  simp only [edit, complete] at h
  split at h
  · cases h
  · rename_i next more taken
    obtain ⟨reports, entered, hub⟩ := addAll_entering taken
    simp only [close, List.nil_append] at h
    split at h
    · cases h
      refine ⟨reports, entered, ?_⟩
      rw [List.foldl_append, ← hub]
      rfl
    · cases h

theorem editEach_editing {texts : List String} {rs : List Revision}
    (h : l.editEach texts = (l', .ok rs)) :
    ∃ reports, Editing l.hub.running l.toDesk texts rs reports l'.toDesk ∧
      l'.hub = reports.foldl Hub.publish l.hub := by
  induction texts generalizing l rs with
  | nil =>
    cases h
    exact ⟨[], .nil _, rfl⟩
  | cons text texts ih =>
    simp only [editEach] at h
    split at h
    · cases h
    · rename_i next r first
      cases rest : next.editEach texts with | mk last out =>
      simp only [rest] at h
      cases out with
      | error f => cases h
      | ok more =>
        cases h
        obtain ⟨reports, entered, hub⟩ := edit_entering first
        obtain ⟨reports', edited, hub'⟩ := ih rest
        rw [hub, Hub.publishAll_running] at edited
        refine ⟨_, .cons entered edited, ?_⟩
        rw [hub', hub, ← List.foldl_append, List.append_assoc]
        rfl

end Live

/-- What the desk has taken in when all texts have been, whatever the cells and the hub have done. -/
theorem Workshop.AtWork.editing {ev : Evaluator} {capacity : Nat} {texts : List String}
    {s : Workshop} (h : s.AtWork ev capacity texts) (last : s.texts = []) (idle : s.call = none) :
    ∃ reports, Desk.Editing true .empty texts (s.ended.map Call.placed) reports s.toDesk.idle ∧
      Hub.behind capacity (Report.told s.sent) = .behind capacity reports := by
  obtain ⟨reports, edited, hub⟩ := Live.editEach_editing (h.sequential last idle)
  refine ⟨reports, edited, hub.trans ?_⟩
  exact Hub.publishAll_behind capacity [] reports

end Worksheet
