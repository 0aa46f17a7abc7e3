import Worksheet.Proofs.Desk
import Worksheet.Proofs.Reports
/-! Evaluating cells, in any order that their parents allow. A cell that has evaluated serves what its
declaration comes to, and that does not depend on when it did. -/
namespace Worksheet

open Report (entriesOf orders)

namespace Cells

/-- What the declaration of a cell comes to, on what its parents serve now. -/
def outcome (ev : Evaluator) (cs : Cells) (c : Cell) : Outcome :=
  ev.evaluate c.decl (cs.input ev.fallback c.parents)

/-- All parents of a cell are there, and none of them waits. -/
def Calm (cs : Cells) (c : Cell) : Prop :=
  ∀ p ∈ c.parents, ∃ q ∈ cs.all, q.key = p ∧ q.isWaiting = false

/-- Cells that wait, or serve what they have come to while none of their parents waits. -/
structure Sound (ev : Evaluator) (cs : Cells) : Prop where
  serves : ∀ c ∈ cs.all, c.isWaiting = false →
    c.phase = .serving ((cs.outcome ev c).served ev.fallback)
  parents : ∀ c ∈ cs.all, c.isWaiting = false → cs.Calm c

/-- The entry about an evaluation that has ended. -/
def ending (o : Outcome) : Entry := { status := some o.status, output := o.output }

/-- What has been reported about the evaluation of the cell of a key. -/
def endings (ev : Evaluator) (cs : Cells) (k : Key) : List Entry :=
  match cs.find? k with
  | some c => if c.isWaiting then [] else [ending (cs.outcome ev c)]
  | none => []

/-- The cells as they were started. -/
def idle (cs : Cells) : Cells := ⟨cs.all.map fun c => { c with phase := .waiting }, []⟩

variable {ev : Evaluator} {cs later : Cells} {k : Key} {r : Report}

theorem mem_keys {c : Cell} (h : c ∈ cs.all) : c.key ∈ cs.keys := List.mem_map_of_mem h

theorem find?_congr (same : cs.all = later.all) (j : Key) : cs.find? j = later.find? j :=
  congrArg (List.find? (fun c : Cell => decide (c.key = j))) same

theorem input_congr {cs cs' : Cells} {fallback : Calc.Env} {parents : List Key}
    (same : ∀ p ∈ parents, cs.servedOr fallback p = cs'.servedOr fallback p) :
    cs.input fallback parents = cs'.input fallback parents := by
  simp only [input]
  generalize (∅ : Calc.Env) = env
  induction parents generalizing env with
  | nil => rfl
  | cons p parents ih =>
    rw [List.foldl_cons, List.foldl_cons, same p (List.mem_cons_self ..)]
    exact ih (fun q hq => same q (List.mem_cons_of_mem _ hq)) _

theorem find?_setPhase (cs : Cells) (k j : Key) (p : Phase) :
    (cs.setPhase k p).find? j =
      (cs.find? j).map fun c => if c.key = k then { c with phase := p } else c := by
  simp only [setPhase, find?, List.find?_map]
  refine congrArg _ (congrArg (List.find? · cs.all) (funext fun c => ?_))
  simp only [Function.comp]
  split <;> rfl

theorem endings_congr (same : cs.all = later.all) (j : Key) :
    cs.endings ev j = later.endings ev j := by
  have outcome : ∀ c, cs.outcome ev c = later.outcome ev c := by
    intro c
    refine congrArg _ (input_congr fun p _ => ?_)
    simp only [servedOr, find?_congr same]
  simp only [endings, find?_congr same, outcome]

/-- The cells behind the evaluation of one of them. -/
def evaluated (ev : Evaluator) (cs : Cells) (c : Cell) : Cells :=
  cs.setPhase c.key (.serving ((cs.outcome ev c).served ev.fallback))

theorem ready_iff_calm (h : cs.Ordered) {c : Cell} (hc : c ∈ cs.all) :
    cs.ready c = true ↔ cs.Calm c := by
  simp only [ready, List.all_eq_true, Calm]
  refine forall_congr' fun p => forall_congr' fun parent => ?_
  obtain ⟨q, hq⟩ := Option.isSome_iff_exists.1 (find?_isSome_iff.2 (h.parent hc parent).2)
  obtain ⟨member, key⟩ := find?_mem hq
  constructor
  · intro ready
    exact ⟨q, member, key, by simpa [hq] using ready⟩
  · rintro ⟨q', member', key', calm⟩
    have same := h.eq_of_key member member' (key.trans key'.symm)
    simpa [hq, same] using calm

theorem finished (h : cs.Ordered) (step : cs.finish ev k = some (r, later)) :
    ∃ c ∈ cs.all, c.key = k ∧ c.isWaiting = true ∧ cs.Calm c ∧
      r = .ofEntry k (ending (cs.outcome ev c)) ∧ later.all = (cs.evaluated ev c).all ∧
      later.calls = cs.calls ++ [k] := by
  obtain ⟨c, outcome, found, waits, ready, rfl, report, all, calls⟩ := of_finish step
  obtain ⟨hc, rfl⟩ := find?_mem found
  exact ⟨c, hc, rfl, waits, (ready_iff_calm h hc).1 ready, report, all, calls⟩

theorem mem_evaluated {c d : Cell} (hd : d ∈ (cs.evaluated ev c).all) :
    (∃ b ∈ cs.all, b.key = c.key ∧
      d = { b with phase := .serving ((cs.outcome ev c).served ev.fallback) }) ∨
    (d ∈ cs.all ∧ d.key ≠ c.key) := by
  obtain ⟨b, hb, rfl⟩ := List.mem_map.1 hd
  by_cases same : b.key = c.key
  · rw [if_pos same]
    exact Or.inl ⟨b, hb, same, rfl⟩
  · rw [if_neg same]
    exact Or.inr ⟨hb, same⟩

theorem evaluated_mem {c d : Cell} (hd : d ∈ cs.all) (other : d.key ≠ c.key) :
    d ∈ (cs.evaluated ev c).all :=
  List.mem_map.2 ⟨d, hd, if_neg other⟩

/-- What has calm parents comes to the same, whatever a cell that still waits is set to. -/
theorem outcome_evaluated (h : cs.Ordered) {c d : Cell} (hc : c ∈ cs.all)
    (waits : c.isWaiting = true) (calm : cs.Calm d) :
    (cs.evaluated ev c).outcome ev d = cs.outcome ev d := by
  refine congrArg _ (input_congr fun p parent => ?_)
  obtain ⟨q, hq, rfl, still⟩ := calm p parent
  have other : q.key ≠ c.key := by
    intro same
    rw [h.eq_of_key hq hc same, waits] at still
    cases still
  simp only [servedOr, evaluated, find?_setPhase, find?_of_mem h.ascending hq, Option.map_some,
    if_neg other]

theorem calm_evaluated (h : cs.Ordered) {c d : Cell} (hc : c ∈ cs.all)
    (waits : c.isWaiting = true) (calm : cs.Calm d) : (cs.evaluated ev c).Calm d := by
  intro p parent
  obtain ⟨q, hq, key, still⟩ := calm p parent
  refine ⟨q, evaluated_mem hq ?_, key, still⟩
  intro same
  rw [h.eq_of_key hq hc same, waits] at still
  cases still

theorem Sound.evaluated (h : cs.Ordered) (sound : cs.Sound ev) {c : Cell} (hc : c ∈ cs.all)
    (waits : c.isWaiting = true) (calm : cs.Calm c) : (cs.evaluated ev c).Sound ev := by
  constructor
  · intro d hd still
    rcases mem_evaluated hd with ⟨b, hb, same, rfl⟩ | ⟨hd, other⟩
    · cases h.eq_of_key hb hc same
      exact congrArg (fun o => Phase.serving (o.served ev.fallback))
        (outcome_evaluated h hc waits calm).symm
    · rw [outcome_evaluated h hc waits (sound.parents d hd still)]
      exact sound.serves d hd still
  · intro d hd still
    rcases mem_evaluated hd with ⟨b, hb, same, rfl⟩ | ⟨hd, other⟩
    · cases h.eq_of_key hb hc same
      exact calm_evaluated h hc waits calm
    · exact calm_evaluated h hc waits (sound.parents d hd still)

theorem endings_evaluated (h : cs.Ordered) (sound : cs.Sound ev) {c : Cell} (hc : c ∈ cs.all)
    (waits : c.isWaiting = true) (calm : cs.Calm c) (j : Key) :
    (cs.evaluated ev c).endings ev j =
      cs.endings ev j ++ entriesOf j [.ofEntry c.key (ending (cs.outcome ev c))] := by
  simp only [endings, Cells.evaluated, find?_setPhase, Report.entriesOf_ofEntry]
  by_cases same : j = c.key
  · subst same
    have final : (cs.evaluated ev c).outcome ev c = cs.outcome ev c :=
      outcome_evaluated h hc waits calm
    simp only [find?_of_mem h.ascending hc, Option.map_some, if_true, waits]
    exact congrArg (fun o => [ending o]) final
  · cases found : cs.find? j with
    | none => simp [same]
    | some d =>
      obtain ⟨hd, key⟩ := find?_mem found
      have other : d.key ≠ c.key := key ▸ same
      simp only [Option.map_some, if_neg other, if_neg same, List.append_nil]
      cases still : d.isWaiting with
      | true => rfl
      | false =>
        have final : (cs.evaluated ev c).outcome ev d = cs.outcome ev d :=
          outcome_evaluated h hc waits (sound.parents d hd still)
        exact congrArg (fun o => [ending o]) final

theorem idle_evaluated (cs : Cells) (c : Cell) : (cs.evaluated ev c).idle = cs.idle := by
  simp only [idle, evaluated, setPhase, List.map_map]
  refine congrArg (Cells.mk · []) (List.map_congr_left fun b _ => ?_)
  simp only [Function.comp]
  split <;> rfl

theorem waiting_evaluated (cs : Cells) (c : Cell) :
    (cs.evaluated ev c).waiting = cs.waiting.filter (· ≠ c.key) := by
  simp only [waiting, evaluated, setPhase]
  induction cs.all with
  | nil => rfl
  | cons b all ih =>
    simp only [List.map_cons, List.filter_cons]
    by_cases same : b.key = c.key
    · have calm : ∀ env, Cell.isWaiting { b with phase := .serving env } = false := fun _ => rfl
      rw [if_pos same, if_neg (by rw [calm]; exact Bool.false_ne_true), ih]
      cases b.isWaiting with
      | true => simp [same]
      | false => rfl
    · rw [if_neg same]
      cases waits : b.isWaiting with
      | true => simp [same, ih]
      | false => simp [ih]

theorem mem_waiting {c : Cell} (hc : c ∈ cs.all) (waits : c.isWaiting = true) :
    c.key ∈ cs.waiting :=
  List.mem_map_of_mem (List.mem_filter.2 ⟨hc, waits⟩)

/-- A cell that evaluates waits no longer. -/
theorem waiting_finish (step : cs.finish ev k = some (r, later)) :
    k ∈ cs.waiting ∧ later.waiting = cs.waiting.filter (· ≠ k) ∧
      later.waiting.length < cs.waiting.length := by
  obtain ⟨c, _, found, waits, _, rfl, _, all, _⟩ := of_finish step
  obtain ⟨hc, rfl⟩ := find?_mem found
  have here := mem_waiting hc waits
  have rest : later.waiting = cs.waiting.filter (· ≠ c.key) := by
    rw [← waiting_evaluated, waiting, all]
    rfl
  refine ⟨here, rest, ?_⟩
  rw [rest]
  exact List.length_filter_lt_length_iff_exists.2 ⟨c.key, here, by simp⟩

theorem Ordered.waiting (h : cs.Ordered) : cs.waiting.Pairwise (· < ·) :=
  h.ascending.sublist (List.filter_sublist.map Cell.key)

/-- The first of the cells that wait has calm parents. -/
theorem first_calm (h : cs.Ordered) {more : List Key} (waiting : cs.waiting = k :: more) :
    ∃ c ∈ cs.all, c.key = k ∧ c.isWaiting = true ∧ cs.Calm c := by
  obtain ⟨above, _⟩ := List.pairwise_cons.1 (waiting ▸ h.waiting)
  have first : k ∈ cs.waiting := waiting ▸ List.mem_cons_self ..
  obtain ⟨c, held, rfl⟩ := List.mem_map.1 first
  obtain ⟨hc, waits⟩ := List.mem_filter.1 held
  refine ⟨c, hc, rfl, waits, ?_⟩
  intro p parent
  obtain ⟨less, known⟩ := h.parent hc parent
  obtain ⟨q, hq, rfl⟩ := List.mem_map.1 known
  refine ⟨q, hq, rfl, ?_⟩
  cases waits : q.isWaiting with
  | false => rfl
  | true =>
    have member := mem_waiting hq waits
    rw [waiting] at member
    rcases List.mem_cons.1 member with same | member
    · exact absurd (same ▸ less) (StrictOrder.irrefl c.key)
    · exact absurd (StrictOrder.trans (above q.key member) less) (StrictOrder.irrefl c.key)

theorem finish_of_calm (ev : Evaluator) (h : cs.Ordered) {c : Cell} (hc : c ∈ cs.all)
    (waits : c.isWaiting = true) (calm : cs.Calm c) : ∃ r later, cs.finish ev c.key = some (r, later) := by
  have ready := (ready_iff_calm h hc).2 calm
  simp [finish, find?_of_mem h.ascending hc, waits, ready]

structure Advance (ev : Evaluator) (cs : Cells) (k : Key) (r : Report) (later : Cells) : Prop where
  ordered : later.Ordered
  sound : later.Sound ev
  idle : later.idle = cs.idle
  waiting : later.waiting = cs.waiting.filter (· ≠ k)
  calls : later.calls = cs.calls ++ [k]
  endings : ∀ j, later.endings ev j = cs.endings ev j ++ entriesOf j [r]
  told : Report.told [r] = []

theorem advance (h : cs.Ordered) (sound : cs.Sound ev) (step : cs.finish ev k = some (r, later)) :
    Advance ev cs k r later := by
  obtain ⟨c, hc, rfl, waits, calm, rfl, all, called⟩ := finished h step
  have ordered := h.of_rows (rows_of_finish step)
  have next := sound.evaluated h hc waits calm
  obtain ⟨all', calls⟩ := later
  cases all
  constructor
  · exact ordered
  · exact ⟨next.serves, next.parents⟩
  · exact idle_evaluated cs c
  · exact waiting_evaluated cs c
  · exact called
  · exact endings_evaluated h sound hc waits calm
  · rfl

structure Settled (ev : Evaluator) (cs : Cells) (out : List Report × Cells) : Prop where
  sound : out.2.Sound ev
  idle : out.2.idle = cs.idle
  waiting : out.2.waiting = []
  calls : out.2.calls = cs.calls ++ cs.waiting
  endings : ∀ j, out.2.endings ev j = cs.endings ev j ++ entriesOf j out.1
  told : Report.told out.1 = []

/-- Evaluating the cells that wait in ascending order leaves none of them waiting. -/
theorem finishAll_settled (h : cs.Ordered) (sound : cs.Sound ev) {keys : List Key}
    (waiting : cs.waiting = keys) : Settled ev cs (cs.finishAll ev keys) := by
  induction keys generalizing cs with
  | nil =>
    constructor
    · exact sound
    · rfl
    · exact waiting
    · rw [waiting, List.append_nil]
      rfl
    · exact fun j => (List.append_nil _).symm
    · rfl
  | cons k more ih =>
    obtain ⟨above, _⟩ := List.pairwise_cons.1 (waiting ▸ h.waiting)
    obtain ⟨c, hc, rfl, waits, calm⟩ := first_calm h waiting
    obtain ⟨r, later, step⟩ := finish_of_calm ev h hc waits calm
    have one := advance h sound step
    have rest : later.waiting = more := by
      rw [one.waiting, waiting, List.filter_cons_of_neg (by simp)]
      refine List.filter_eq_self.2 fun j hj => ?_
      exact decide_eq_true (StrictOrder.ne_of_lt (above j hj)).symm
    have others := ih one.ordered one.sound rest
    simp only [finishAll, step]
    constructor
    · exact others.sound
    · exact others.idle.trans one.idle
    · exact others.waiting
    · rw [others.calls, one.calls, rest, waiting, List.append_assoc]
      rfl
    · intro j
      rw [others.endings, one.endings, List.append_assoc, ← Report.entriesOf_append]
      rfl
    · have split : Report.told (r :: (later.finishAll ev more).1) =
          Report.told [r] ++ Report.told (later.finishAll ev more).1 := Report.told_append [r] _
      rw [split, one.told, others.told]
      rfl

theorem rows_idle (cs : Cells) : cs.idle.rows = cs.rows := by
  simp only [idle, rows, List.map_map]
  rfl

section Alike

variable {cs' : Cells}

theorem decl_of_idle (h' : cs'.Ordered) (same : cs.idle = cs'.idle) {c c' : Cell}
    (hc : c ∈ cs.all) (hc' : c' ∈ cs'.all) (key : c.key = c'.key) :
    c'.decl = c.decl ∧ c'.parents = c.parents := by
  have held : ({ c with phase := .waiting } : Cell) ∈ cs'.idle.all := by
    rw [← same]
    exact List.mem_map_of_mem (f := fun c : Cell => { c with phase := .waiting }) hc
  obtain ⟨b, hb, copy⟩ := List.mem_map.1 held
  obtain ⟨known, decl, parents, _⟩ := Cell.mk.inj copy
  have twin : b = c' := h'.eq_of_key hb hc' (known.trans key)
  subst twin
  exact ⟨decl, parents⟩

theorem Sound.cell_unique (sound : cs.Sound ev) (h : cs.Ordered) (h' : cs'.Ordered)
    (same : cs.idle = cs'.idle) (sound' : cs'.Sound ev) (done : ∀ c ∈ cs.all, c.isWaiting = false)
    (done' : ∀ c ∈ cs'.all, c.isWaiting = false) {c c' : Cell} (hc : c ∈ cs.all)
    (hc' : c' ∈ cs'.all) (key : c.key = c'.key) : c = c' := by
  -- Parents have smaller numbers, so the induction is on the number of a cell.
  obtain ⟨n, number⟩ : ∃ n, c.key.number = n := ⟨_, rfl⟩
  induction n using Nat.strongRecOn generalizing c c' with
  | ind n ih =>
    obtain ⟨decl, parents⟩ := decl_of_idle h' same hc hc' key
    have input : cs'.input ev.fallback c.parents = cs.input ev.fallback c.parents := by
      refine input_congr fun p parent => ?_
      obtain ⟨less, known⟩ := h.parent hc parent
      obtain ⟨_, known'⟩ := h'.parent hc' (parents ▸ parent)
      obtain ⟨q, hq, rfl⟩ := List.mem_map.1 known
      obtain ⟨q', hq', key'⟩ := List.mem_map.1 known'
      have less : q.key.number < n := number ▸ Key.lt_iff.1 less
      have twin : q = q' := ih _ less hq hq' key'.symm rfl
      subst twin
      simp only [servedOr, find?_of_mem h.ascending hq, find?_of_mem h'.ascending hq']
    have outcome : cs'.outcome ev c' = cs.outcome ev c := by
      simp only [Cells.outcome, decl, parents, input]
    have phase := sound.serves c hc (done c hc)
    have phase' := sound'.serves c' hc' (done' c' hc')
    rw [outcome, ← phase] at phase'
    obtain ⟨k, d, ps, ph⟩ := c
    obtain ⟨k', d', ps', ph'⟩ := c'
    cases key
    cases decl
    cases parents
    cases phase'
    rfl

/-- Cells that were started alike have evaluated alike. -/
theorem Sound.unique (h : cs.Ordered) (same : cs.idle = cs'.idle) (sound : cs.Sound ev)
    (sound' : cs'.Sound ev) (done : ∀ c ∈ cs.all, c.isWaiting = false)
    (done' : ∀ c ∈ cs'.all, c.isWaiting = false) : cs.all = cs'.all := by
  have rows : cs'.rows = cs.rows := by rw [← rows_idle, ← same, rows_idle]
  have keys : cs.keys = cs'.keys := by simp only [keys_eq_rows, rows]
  refine List.ext_getElem ?_ fun i hi hi' => ?_
  · simpa [Cells.keys] using congrArg List.length keys
  · have at_i := congrArg (·[i]?) keys
    exact sound.cell_unique h (h.of_rows rows) same sound' done done' (List.getElem_mem hi)
      (List.getElem_mem hi') (by simpa [Cells.keys, hi, hi'] using at_i)

end Alike

theorem not_waiting_of_nil (h : cs.waiting = []) : ∀ c ∈ cs.all, c.isWaiting = false := by
  intro c hc
  cases waits : c.isWaiting with
  | false => rfl
  | true => exact absurd (mem_waiting hc waits) (h ▸ List.not_mem_nil)

end Cells

end Worksheet
