import Worksheet.Proofs.FreeVars
import Worksheet.Proofs.Ledger
/-! A worksheet against a plain reader. The reader goes through the items of one text from top to
bottom and keeps the values of all names; the worksheet has taken in any texts before, and its cells
see only what they read from. Both come to the same results. -/
namespace Worksheet

open Calc (Decl Env Section eval)
open Report (entriesOf put told)

/-- Reads an item, with the values of the names so far: its result, and the values behind it. -/
def readItem (names : Env) : Section → Entry × Env
  | .broken source e => ({ source := some source, status := some (.failed e.message) }, names)
  | .decl d =>
    match eval names d.item.expr, d.bound with
    | .ok v, some x =>
      ({ source := some d.source, status := some .complete, output := x ++ " = " ++ v.render },
        names.insert x v)
    | .ok v, none =>
      ({ source := some d.source, status := some .complete, output := v.render }, names)
    | .error e, some x =>
      ({ source := some d.source, status := some (.failed e.message) }, names.erase x)
    | .error e, none => ({ source := some d.source, status := some (.failed e.message) }, names)

def readItems (names : Env) : List Section → List Entry
  | [] => []
  | item :: rest => (readItem names item).1 :: readItems (readItem names item).2 rest

theorem readItems_status (names : Env) (items : List Section) :
    ∀ e ∈ readItems names items, e.status.isSome := by
  induction items generalizing names with
  | nil => exact fun _ member => absurd member List.not_mem_nil
  | cons item rest ih =>
    intro e member
    rcases List.mem_cons.1 member with rfl | member
    · cases item with
      | broken => rfl
      | decl d =>
        simp only [readItem]
        split
        all_goals rfl
    · exact ih _ e member

namespace Cells

variable {cs : Cells} {ev : Evaluator} {names : Env} {parents : List Key} {x : String} {k : Key}

theorem get?_input (cs : Cells) (fallback : Env) (parents : List Key) (x : String) :
    (cs.input fallback parents).get? x =
      parents.reverse.findSome? fun p => (cs.servedOr fallback p).get? x := by
  have from_env : ∀ env : Env,
      (parents.foldl (fun env p => env.union (cs.servedOr fallback p)) env).get? x =
        (parents.reverse.findSome? fun p => (cs.servedOr fallback p).get? x).or (env.get? x) := by
    induction parents with
    | nil => exact fun env => rfl
    | cons p parents ih =>
      intro env
      rw [List.foldl_cons, ih, SortedMap.get?_union, List.reverse_cons, List.findSome?_append,
        Option.or_assoc]
      refine congrArg _ ?_
      simp only [List.findSome?_cons, List.findSome?_nil]
      cases (cs.servedOr fallback p).get? x with
      | none => rfl
      | some v => rfl
  rw [input, from_env, SortedMap.get?_empty, Option.or_none]

theorem get?_input_none {fallback : Env}
    (absent : ∀ p ∈ parents, (cs.servedOr fallback p).get? x = none) :
    (cs.input fallback parents).get? x = none := by
  rw [get?_input, List.findSome?_eq_none_iff]
  exact fun p hp => absent p (List.mem_reverse.1 hp)

theorem get?_input_one {fallback : Env} (member : k ∈ parents)
    (absent : ∀ p ∈ parents, p ≠ k → (cs.servedOr fallback p).get? x = none) :
    (cs.input fallback parents).get? x = (cs.servedOr fallback k).get? x := by
  cases served : (cs.servedOr fallback k).get? x with
  | none =>
    refine get?_input_none fun p hp => ?_
    by_cases same : p = k
    · rw [same, served]
    · exact absent p hp same
  | some v =>
    rw [get?_input]
    cases found : parents.reverse.findSome? fun p => (cs.servedOr fallback p).get? x with
    | none =>
      have missing := List.findSome?_eq_none_iff.1 found k (List.mem_reverse.2 member)
      rw [served] at missing
      cases missing
    | some w =>
      obtain ⟨p, hp, gives⟩ := List.exists_of_findSome?_eq_some found
      by_cases same : p = k
      · rw [same, served] at gives
        exact gives.symm
      · rw [absent p (List.mem_reverse.1 hp) same] at gives
        cases gives

theorem servedOr_of_mem (h : cs.Ordered) {c : Cell} (hc : c ∈ cs.all) {env : Env}
    (served : c.phase = .serving env) (fallback : Env) : cs.servedOr fallback c.key = env := by
  simp only [servedOr, find?_of_mem h.ascending hc, Option.bind_some, Cell.served?, served,
    Option.getD_some]

structure Evaluated (ev : Evaluator) (cs : Cells) : Prop where
  ordered : cs.Ordered
  sound : cs.Sound ev
  done : ∀ c ∈ cs.all, c.isWaiting = false

theorem Evaluated.servedOr (h : cs.Evaluated ev) {c : Cell} (hc : c ∈ cs.all) :
    cs.servedOr ev.fallback c.key = (cs.outcome ev c).served ev.fallback :=
  servedOr_of_mem h.ordered hc (h.sound.serves c hc (h.done c hc)) ev.fallback

theorem Evaluated.endings (h : cs.Evaluated ev) {c : Cell} (hc : c ∈ cs.all) :
    cs.endings ev c.key = [ending (cs.outcome ev c)] := by
  simp only [Cells.endings, find?_of_mem h.ordered.ascending hc, h.done c hc]
  rfl

/-- A cell serves its own name at most. -/
theorem Evaluated.serves_own (h : cs.Evaluated (.calc ∅)) {c : Cell} (hc : c ∈ cs.all)
    (other : c.decl.bound ≠ some x) : (cs.servedOr ∅ c.key).get? x = none := by
  have served := h.servedOr hc
  simp only [Evaluator.calc] at served
  rw [served]
  simp only [outcome]
  split
  · rename_i yield evaluated
    exact Calc.Decl.get?_evaluate evaluated other
  · rfl

/-- What a name stands for serves what the reader has for it. -/
def Hold (cs : Cells) (scope : Scope) (names : Env) : Prop :=
  ∀ x, match scope.get? x with
    | none => names.get? x = none
    | some k => ∃ c ∈ cs.all, c.key = k ∧ c.decl.bound = some x ∧
      names.get? x = (cs.servedOr ∅ k).get? x

variable {scope : Scope}

/-- On the names that a declaration reads, the merge of its parents has the values of the reader. -/
theorem Hold.input (hold : cs.Hold scope names) (h : cs.Evaluated (.calc ∅)) {free : List String}
    (hx : x ∈ free) :
    (cs.input ∅ (Scope.resolve scope free).toList).get? x = names.get? x := by
  have elsewhere : ∀ p ∈ (Scope.resolve scope free).toList, scope.get? x ≠ some p →
      (cs.servedOr ∅ p).get? x = none := by
    intro p parent other
    obtain ⟨y, _, bound⟩ := Scope.mem_resolve.1 parent
    have holds := hold y
    rw [bound] at holds
    obtain ⟨c, hc, rfl, name, _⟩ := holds
    refine h.serves_own hc fun same => other ?_
    cases Option.some.inj (name.symm.trans same)
    exact bound
  have holds := hold x
  cases bound : scope.get? x with
  | none =>
    rw [bound] at holds
    rw [holds]
    exact get?_input_none fun p parent => elsewhere p parent (by simp [bound])
  | some k =>
    rw [bound] at holds
    obtain ⟨c, hc, rfl, name, value⟩ := holds
    rw [value]
    refine get?_input_one (Scope.mem_resolve.2 ⟨x, hx, bound⟩) fun p parent other => ?_
    refine elsewhere p parent fun same => other ?_
    exact (Option.some.inj (bound.symm.trans same)).symm

theorem Hold.outcome (hold : cs.Hold scope names) (h : cs.Evaluated (.calc ∅)) {c : Cell}
    (parents : c.parents = (Scope.resolve scope c.decl.free).toList) :
    cs.outcome (.calc ∅) c = (Evaluator.calc ∅).evaluate c.decl names := by
  have same : eval (cs.input ∅ c.parents) c.decl.item.expr = eval names c.decl.item.expr := by
    rw [parents]
    exact Calc.eval_congr fun x hx => hold.input h hx
  simp only [Cells.outcome, Evaluator.calc, Decl.evaluate, same]

end Cells

theorem readItem_entry (names : Env) (d : Decl) :
    put (some { source := some d.source })
        (Cells.ending ((Evaluator.calc ∅).evaluate d names)) =
      some (readItem names (.decl d)).1 := by
  simp only [put, Option.elim_some, Entry.merge, Cells.ending, Evaluator.calc, Decl.evaluate,
    readItem]
  cases eval names d.item.expr with
  | error e =>
    cases d.bound with
    | none => rfl
    | some x => rfl
  | ok v =>
    cases d.bound with
    | none => simp [Outcome.status, Outcome.output]
    | some x => simp [Outcome.status, Outcome.output]

theorem readItem_names (names : Env) (d : Decl) (x : String) :
    (readItem names (.decl d)).2.get? x =
      if d.bound = some x then
        (((Evaluator.calc ∅).evaluate d names).served ∅).get? x
      else names.get? x := by
  simp only [Evaluator.calc, Decl.evaluate, readItem]
  cases eval names d.item.expr with
  | error e =>
    cases d.bound with
    | none => simp
    | some y =>
      simp only [SortedMap.get?_erase, Option.some.injEq, eq_comm (a := x)]
      rfl
  | ok v =>
    cases d.bound with
    | none => simp
    | some y =>
      simp only [SortedMap.get?_insert, Option.some.injEq, eq_comm (a := x), Outcome.served]
      split
      · rfl
      · rfl

theorem Cells.Hold.decl {cs : Cells} {scope : Scope} {names : Env} (hold : cs.Hold scope names)
    (h : cs.Evaluated (.calc ∅)) {c : Cell} (hc : c ∈ cs.all)
    (parents : c.parents = (Scope.resolve scope c.decl.free).toList) :
    cs.Hold (Scope.bind scope c.decl.bound c.key) (readItem names (.decl c.decl)).2 := by
  intro x
  rw [Scope.get?_bind, readItem_names]
  by_cases here : c.decl.bound = some x
  · rw [if_pos here, if_pos here]
    refine ⟨c, hc, rfl, here, ?_⟩
    have served := h.servedOr hc
    rw [hold.outcome h parents] at served
    exact congrArg (SortedMap.get? · x) served.symm
  · rw [if_neg here, if_neg here]
    exact hold x

namespace Desk

variable {running : Bool} {d last final : Desk} {items : List Section} {r : Revision}
  {reports : List Report} {texts : List String} {rs : List Revision} {names : Env}

theorem Editing.read (h : Editing running .empty texts rs reports last)
    (few : last.memo.issued < UInt64.size) :
    ∀ c ∈ last.cells.all, Section.ofSource c.decl.source = .decl c.decl := by
  refine h.induction
    (P := fun d => ∀ c ∈ d.cells.all, Section.ofSource c.decl.source = .decl c.decl) few id ?_ ?_
  · intro d d' source e before added _
    generalize item : Section.ofSource source = section_ at added
    cases added with
    | broken => exact before
    | reused => exact before
    | started decl =>
      intro c hc
      rcases List.mem_append.1 hc with hc | hc
      · exact before c hc
      · cases List.mem_singleton.1 hc
        have same := Calc.Section.source_ofSource source
        rw [item] at same
        rw [show decl.source = source from same, item]
  · exact fun _ member => absurd member List.not_mem_nil

/-- What is known at the end agrees with the evaluations, and with the reports on broken items. -/
structure Settles (final : Desk) (reports : List Report) (known : Key → Option Entry) : Prop where
  agrees : final.Agrees
  evaluated : final.cells.Evaluated (.calc ∅)
  read : ∀ c ∈ final.cells.all, Section.ofSource c.decl.source = .decl c.decl
  finished : ∀ c ∈ final.cells.all, known c.key =
    put (some { source := some c.decl.source }) (Cells.ending (final.cells.outcome (.calc ∅) c))
  rejected : ∀ k source message, .rejected k source message ∈ reports →
    known k = some { source := some source, status := some (.failed message) }

/-- Item by item, what is known at the end is the result of the reader. -/
theorem Entering.reads {known : Key → Option Entry} {all : List Report}
    (h : Entering running d items r reports last) (later : Extends last final)
    (settles : final.Settles all known) (told : ∀ report ∈ reports, report ∈ all)
    (sources : ∀ item ∈ items, Section.ofSource item.source = item)
    (hold : final.cells.Hold d.scope names) :
    List.Forall₂ (fun p entry => known p.key = some entry) r (readItems names items) := by
  induction h generalizing names with
  | nil => exact .nil
  | @cons d d' last item items e r reports added more ih =>
    have rest : ∀ {names : Env}, final.cells.Hold d'.scope names →
        List.Forall₂ (fun p entry => known p.key = some entry) r (readItems names items) :=
      ih later (fun report member => told report (List.mem_append_right _ member))
        fun item member => sources item (List.mem_cons_of_mem _ member)
    cases item with
    | broken source err =>
      obtain ⟨rfl, rfl⟩ := added.of_broken
      have here := settles.rejected d.memo.nextKey source err.message
        (told _ (List.mem_append_left _ (List.mem_singleton.2 rfl)))
      exact .cons here (rest hold)
    | decl decl =>
      obtain ⟨held, scope, _⟩ := added.of_decl
      obtain ⟨c, hc, key, source, parents⟩ := settles.agrees.cell_of_recorded
        ((more.extends.trans later).entries.subset held)
      have same : c.decl = decl := by
        have read := settles.read c hc
        rw [source, show (d.recipe decl).source = (Section.decl decl).source from rfl,
          sources _ (List.mem_cons_self ..)] at read
        cases read
        rfl
      subst same
      have result := settles.finished c hc
      rw [hold.outcome settles.evaluated parents, readItem_entry] at result
      refine .cons (key ▸ result) (rest ?_)
      rw [scope, ← key]
      exact hold.decl settles.evaluated hc parents

end Desk

namespace Workshop

variable {ev : Evaluator} {capacity : Nat} {texts : List String} {s : Workshop}

theorem AtWork.evaluated (h : s.AtWork ev capacity texts) (done : s.Done) :
    s.cells.Evaluated ev where
  ordered := h.agrees.ordered
  sound := h.sound
  done := done.cells

/-- What is known about a key at the end: what the desk has reported, and how its cell has ended. -/
theorem AtWork.get?_state (h : s.AtWork ev capacity texts) (done : s.Done) {reports : List Report}
    (same : Hub.behind capacity (told s.sent) = .behind capacity reports) (k : Key) :
    s.hub.state.entries.get? k =
      (s.cells.endings ev k).foldl put ((entriesOf k reports).foldl put none) := by
  have desk := congrArg (·.state.entries.get? k) same
  simp only [Hub.behind, Report.get?_mergeAll] at desk
  simp only [h.hub_done done, Hub.behind, Report.get?_mergeAll, h.endings k, List.foldl_append, desk]
  rfl

section Edited

variable {reports : List Report}

theorem AtWork.announced (few : s.memo.issued < UInt64.size)
    (edited : Desk.Editing true .empty texts (s.ended.map Call.placed) reports s.toDesk.idle)
    {c : Cell} (hc : c ∈ s.cells.all) :
    entriesOf c.key reports = [{ source := some c.decl.source }] := by
  have ledger := edited.ledger few Desk.empty_ledger
  rw [List.nil_append] at ledger
  have row : c.row ∈ s.toDesk.idle.cells.rows := by
    rw [show s.toDesk.idle.cells.rows = s.cells.rows from Cells.rows_idle s.cells]
    exact List.mem_map_of_mem hc
  exact (ledger.once _ _ (ledger.rows _ row)).2

/-- What is known about a cell at the end. -/
theorem AtWork.get?_cell (h : s.AtWork ev capacity texts) (done : s.Done)
    (few : s.memo.issued < UInt64.size)
    (edited : Desk.Editing true .empty texts (s.ended.map Call.placed) reports s.toDesk.idle)
    (same : Hub.behind capacity (told s.sent) = .behind capacity reports) {c : Cell}
    (hc : c ∈ s.cells.all) : s.hub.state.entries.get? c.key =
      put (some { source := some c.decl.source }) (Cells.ending (s.cells.outcome ev c)) := by
  rw [h.get?_state done same, AtWork.announced few edited hc, (h.evaluated done).endings hc]
  rfl

theorem AtWork.settles (h : s.AtWork (.calc ∅) capacity texts) (done : s.Done)
    (few : s.memo.issued < UInt64.size)
    (edited : Desk.Editing true .empty texts (s.ended.map Call.placed) reports s.toDesk.idle)
    (same : Hub.behind capacity (told s.sent) = .behind capacity reports) :
    s.toDesk.Settles reports s.hub.state.entries.get? := by
  have ledger := edited.ledger few Desk.empty_ledger
  rw [List.nil_append] at ledger
  constructor
  · exact h.agrees
  · exact h.evaluated done
  · intro c hc
    have waiting := edited.read few { c with phase := .waiting }
    exact waiting (List.mem_map_of_mem (f := fun c : Cell => { c with phase := .waiting }) hc)
  · intro c hc
    exact h.get?_cell done few edited same hc
  · intro k source message member
    have entry := (ledger.once k _ member).2
    have no_cell : k ∉ s.cells.keys := by
      intro known
      obtain ⟨c, hc, rfl⟩ := List.mem_map.1 known
      rw [AtWork.announced few edited hc] at entry
      cases entry
    rw [h.get?_state done same, entry, Cells.endings_new no_cell]
    rfl

end Edited

/-- Whatever texts came before and in whatever order cells have evaluated: the results for the last
text are those of a reader that knows this text alone. -/
theorem results_of_last_text (capacity : Nat) (texts : List String) (last : String)
    (moves : List Move) (s : Workshop)
    (work : (start capacity (texts ++ [last])).work (.calc ∅) moves = some s)
    (few : s.memo.issued < UInt64.size) (done : s.Done) :
    s.hub.running = true ∧ s.hub.state.settled = true ∧
    ∃ keys, s.hub.state.order = some keys ∧ keys.length = (Calc.parse last).length ∧
      keys.map s.hub.state.entries.get? = (readItems ∅ (Calc.parse last)).map some := by
  have h := atWork_of_work work few
  obtain ⟨reports, edited, same⟩ := h.editing done.texts done.call
  have settles := h.settles done few edited same
  obtain ⟨mid, rs, rs', reports₁, reports₂, before, behind, revisions, rfl⟩ := edited.split
  cases behind with
  | @cons _ _ _ _ _ r _ reports₂ _ entered none_left =>
    cases none_left
    have orders : Report.orders s.sent = rs.map Revision.order ++ [r.order] := by
      have all := congrArg (List.map Revision.order) revisions
      rw [List.map_map, List.map_append] at all
      rw [h.orders]
      exact all
    have order : s.hub.state.order = some r.order := by
      rw [h.hub_done done, Hub.behind, Report.order_mergeAll, orders, List.getLast?_concat]
      rfl
    have sources : ∀ item ∈ Calc.parse last, Section.ofSource item.source = item := by
      intro item member
      obtain ⟨source, _, rfl⟩ := List.mem_map.1 member
      rw [Calc.Section.source_ofSource]
    have later : Desk.Extends s.toDesk.idle s.toDesk := ⟨Nat.le_refl _, List.prefix_refl _⟩
    have reads : List.Forall₂ (fun p entry => s.hub.state.entries.get? p.key = some entry) r
        (readItems ∅ (Calc.parse last)) :=
      entered.reads later settles
        (fun report member => List.mem_append_right _ (List.mem_append_left _ member)) sources
        fun x => rfl
    have results : r.order.map s.hub.state.entries.get? =
        (readItems ∅ (Calc.parse last)).map some := by
      rw [Revision.order, List.map_map, ← List.forall₂_eq_eq_eq, List.forall₂_map_left_iff,
        List.forall₂_map_right_iff]
      exact reads
    refine ⟨h.running, ?_, r.order, order, ?_, results⟩
    · simp only [Report.settled, order, List.all_eq_true]
      intro k hk
      have known : s.hub.state.entries.get? k ∈ r.order.map s.hub.state.entries.get? :=
        List.mem_map_of_mem hk
      rw [results] at known
      obtain ⟨entry, member, found⟩ := List.mem_map.1 known
      rw [Report.status?, ← found]
      exact readItems_status _ _ entry member
    · rw [Revision.order, List.length_map]
      exact entered.length

theorem results_of_last_text_when_rebound : ∃ (s : Workshop) (keys : List Key),
    (start 4 (["a = 1"] ++ ["a = 2\nb = a"])).work (.calc ∅)
      [.turn, .add, .finish ⟨0⟩, .close, .turn, .add, .finish ⟨1⟩, .add, .close, .finish ⟨2⟩,
        .receive, .receive, .receive, .receive, .receive, .receive, .receive, .receive] = some s ∧
    s.Done ∧ s.hub.state.order = some keys ∧
    (readItems ∅ (Calc.parse "a = 2\nb = a")).map Entry.output = ["a = 2", "b = 2"] ∧
    keys.map s.hub.state.entries.get? =
      (readItems ∅ (Calc.parse "a = 2\nb = a")).map some := by
  have ends : ((start 4 (["a = 1"] ++ ["a = 2\nb = a"])).work (.calc ∅)
      [.turn, .add, .finish ⟨0⟩, .close, .turn, .add, .finish ⟨1⟩, .add, .close, .finish ⟨2⟩,
        .receive, .receive, .receive, .receive, .receive, .receive, .receive, .receive]).isSome = true := by cbv
  have few : (Option.get _ ends).memo.issued < UInt64.size := by
    have issued : (Option.get _ ends).memo.issued = 3 := by cbv
    rw [issued]
    decide
  have waiting : (Option.get _ ends).cells.waiting = [] := by cbv
  have done : (Option.get _ ends).Done :=
    ⟨by cbv, by cbv, Cells.not_waiting_of_nil waiting, by cbv⟩
  have outputs : (readItems ∅ (Calc.parse "a = 2\nb = a")).map Entry.output =
      ["a = 2", "b = 2"] := by cbv
  have work := (Option.some_get ends).symm
  obtain ⟨_, _, keys, order, _, results⟩ := results_of_last_text 4 _ _ _ _ work few done
  exact ⟨_, keys, work, done, order, outputs, results⟩

end Workshop

end Worksheet
