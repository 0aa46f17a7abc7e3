import Worksheet.Proofs.Schedule
/-! A worksheet at work whose evaluations take their time. An evaluation begins when all parents of
its cell have answered, and anything else may happen before it ends. When the desk shuts down, its
cells are stopped one by one, and an evaluation that is given up never ends. -/
namespace Worksheet

open Calc (Env)

def Cell.isStopped (c : Cell) : Bool :=
  match c.phase with
  | .stopped => true
  | _ => false

theorem Cells.served_setPhase {cs : Cells} {k p : Key} {env env' : Env}
    (serves : ((cs.setPhase k (.serving env)).find? p).bind Cell.served? = some env') :
    (p = k ∧ env = env') ∨ (p ≠ k ∧ (cs.find? p).bind Cell.served? = some env') := by
  rw [find?_setPhase] at serves
  cases found : cs.find? p with
  | none =>
    rw [found] at serves
    cases serves
  | some c =>
    obtain ⟨_, rfl⟩ := find?_mem found
    rw [found, Option.map_some, Option.bind_some] at serves
    by_cases same : c.key = k
    · rw [if_pos same] at serves
      exact Or.inl ⟨same, Option.some.inj serves⟩
    · rw [if_neg same] at serves
      exact Or.inr ⟨same, serves⟩

theorem Cells.served_stopAll (cs : Cells) (p : Key) :
    (cs.stopAll.find? p).bind Cell.served? = none := by
  simp only [stopAll, find?, List.find?_map]
  cases cs.all.find? _ with
  | none => rfl
  | some c => rfl

theorem Cells.foldl_stop (cs : Cells) (keys : List Key) :
    keys.foldl stop cs =
      ⟨cs.all.map fun c => if c.key ∈ keys then { c with phase := .stopped } else c, cs.calls⟩ := by
  induction keys generalizing cs with
  | nil => simp
  | cons k keys ih =>
    rw [List.foldl_cons, ih]
    refine congrArg (Cells.mk · cs.calls) ?_
    simp only [stop, setPhase, List.map_map]
    refine List.map_congr_left fun c _ => ?_
    by_cases here : c.key = k
    · simp [here]
    · simp [here]

theorem Cells.stop_keys (cs : Cells) : cs.keys.foldl stop cs = cs.stopAll := by
  rw [foldl_stop, stopAll]
  refine congrArg (Cells.mk · cs.calls) (List.map_congr_left fun c hc => ?_)
  rw [if_pos (mem_keys hc)]

structure Shift extends Workshop where
  /-- The evaluations that were begun, each with the environment that it was given. -/
  begun : List (Key × Env)
  /-- Those that have neither ended nor been given up. -/
  underway : List (Key × Env)
  /-- What cells have handed on. Whoever asked in time has it, also when the cell is stopped. -/
  handed : SortedMap Key Env
  closing : Bool

namespace Shift

inductive Event
  /-- A move of the worksheet. To finish a cell is to end the evaluation that is under way. -/
  | move (move : Move)
  /-- An evaluation begins. These of the parents are gone and give no answer. -/
  | evaluate (key : Key) (gone : List Key)
  | halt
  | shutdown
  | stop (key : Key)

def start (capacity : Nat) (texts : List String) : Shift where
  toWorkshop := .start capacity texts
  begun := []
  underway := []
  handed := ∅
  closing := false

/-- What a parent is taken to hand on: the fallback stands in for one that is gone. -/
def answer (s : Shift) (fallback : Env) (gone : List Key) (p : Key) : Option Env :=
  if p ∈ gone then
    if (s.cells.find? p).any Cell.isStopped then some fallback else none
  else s.handed.get? p

def collect (s : Shift) (fallback : Env) (gone : List Key) (env : Env) : List Key → Option Env
  | [] => some env
  | p :: more =>
    (s.answer fallback gone p).bind fun given => s.collect fallback gone (env.union given) more

/-- Gives a cell its environment, and the evaluation is under way. -/
def give (s : Shift) (key : Key) (env : Env) : Shift :=
  { s with
    cells := { s.cells with calls := s.cells.calls ++ [key] }
    begun := s.begun ++ [(key, env)]
    underway := s.underway ++ [(key, env)] }

def evaluate (ev : Evaluator) (s : Shift) (key : Key) (gone : List Key) : Option Shift :=
  match s.cells.find? key with
  | none => none
  | some c =>
    if c.isWaiting = true ∧ key ∉ s.underway.map Prod.fst then
      (s.collect ev.fallback gone ∅ c.parents).map (s.give key)
    else none

/-- Puts an end to the evaluation of a cell, if there is one, and leaves the cell in this phase. -/
def leave (s : Shift) (key : Key) (phase : Phase) : Shift :=
  { s with
    cells := s.cells.setPhase key phase
    underway := s.underway.filter fun u => u.1 ≠ key }

/-- A cell hands on what its declaration has come to. -/
def serve (s : Shift) (key : Key) (env : Env) : Shift :=
  { s.leave key (.serving env) with handed := s.handed.insert key env }

def tell (s : Shift) (report : Report) : Shift :=
  { s with toWorkshop := s.toWorkshop.send [report] }

def finish (ev : Evaluator) (s : Shift) (key : Key) : Option Shift :=
  match s.cells.find? key, s.underway.find? (·.1 = key) with
  | some c, some (_, env) =>
    let outcome := ev.evaluate c.decl env
    let later := s.serve key (outcome.served ev.fallback)
    some (if s.hub.running then later.tell (.finished key outcome.status outcome.output) else later)
  | _, _ => none

def handle (ev : Evaluator) (s : Shift) : Event → Option Shift
  | .move (.finish key) => s.finish ev key
  | .move m => (s.toWorkshop.step ev m).map fun w => { s with toWorkshop := w }
  | .evaluate key gone => s.evaluate ev key gone
  | .halt => some { s with hub := s.hub.stop }
  | .shutdown =>
    match s.call with
    | none => some { s with texts := [], closing := true }
    | some _ => none
  | .stop key => if s.closing then some (s.leave key .stopped) else none

def run (ev : Evaluator) (s : Shift) : List Event → Option Shift
  | [] => some s
  | e :: more => (s.handle ev e).bind fun s => s.run ev more

/-- All that an event can do. -/
inductive Handled (ev : Evaluator) (s : Shift) : Event → Shift → Prop
  | move (m : Move) (w : Workshop) (other : ∀ key, m ≠ .finish key)
      (step : Workshop.Stepped ev s.toWorkshop m w) :
      Handled ev s (.move m) { s with toWorkshop := w }
  | finish (key : Key) (c : Cell) (env : Env) (found : s.cells.find? key = some c)
      (begun : (key, env) ∈ s.underway) (heard : s.hub.running = true) :
      Handled ev s (.move (.finish key)) ((s.serve key ((ev.evaluate c.decl env).served ev.fallback)).tell
        (.finished key (ev.evaluate c.decl env).status (ev.evaluate c.decl env).output))
  | waste (key : Key) (c : Cell) (env : Env) (found : s.cells.find? key = some c)
      (begun : (key, env) ∈ s.underway) (deaf : s.hub.running = false) :
      Handled ev s (.move (.finish key)) (s.serve key ((ev.evaluate c.decl env).served ev.fallback))
  | evaluate (key : Key) (gone : List Key) (c : Cell) (env : Env)
      (found : s.cells.find? key = some c) (waits : c.isWaiting = true)
      (idle : key ∉ s.underway.map Prod.fst)
      (given : s.collect ev.fallback gone ∅ c.parents = some env) :
      Handled ev s (.evaluate key gone) (s.give key env)
  | halt : Handled ev s .halt { s with hub := s.hub.stop }
  | shutdown (idle : s.call = none) : Handled ev s .shutdown { s with texts := [], closing := true }
  | stop (key : Key) (closing : s.closing = true) : Handled ev s (.stop key) (s.leave key .stopped)

variable {ev : Evaluator} {s t : Shift} {e : Event}

theorem finish_handled {key : Key} (h : s.finish ev key = some t) :
    Handled ev s (.move (.finish key)) t := by
  simp only [finish] at h
  split at h
  · rename_i c k env found begun
    have same : k = key := by simpa using List.find?_some begun
    subst same
    have member := List.mem_of_find?_eq_some begun
    split at h
    · cases h
      exact .finish _ c env found member ‹_›
    · cases h
      exact .waste _ c env found member (Bool.eq_false_iff.2 ‹_›)
  · cases h

theorem evaluate_handled {key : Key} {gone : List Key} (h : s.evaluate ev key gone = some t) :
    Handled ev s (.evaluate key gone) t := by
  simp only [evaluate] at h
  split at h
  · cases h
  · rename_i c found
    split at h
    · rename_i able
      obtain ⟨env, given, rfl⟩ := Option.map_eq_some_iff.1 h
      exact .evaluate key gone c env found able.1 able.2 given
    · cases h

theorem handled (h : s.handle ev e = some t) : Handled ev s e t := by
  have moved : ∀ m, (∀ key, m ≠ .finish key) →
      (s.toWorkshop.step ev m).map (fun w => { s with toWorkshop := w }) = some t →
      Handled ev s (.move m) t := by
    intro m other h
    obtain ⟨w, step, rfl⟩ := Option.map_eq_some_iff.1 h
    exact .move m w other (Workshop.stepped step)
  cases e with
  | move m =>
    cases m with
    | finish key => exact finish_handled h
    | turn => exact moved _ (fun _ => Move.noConfusion) h
    | add => exact moved _ (fun _ => Move.noConfusion) h
    | close => exact moved _ (fun _ => Move.noConfusion) h
    | receive => exact moved _ (fun _ => Move.noConfusion) h
  | evaluate key gone => exact evaluate_handled h
  | halt =>
    cases h
    exact .halt
  | shutdown =>
    simp only [handle] at h
    split at h
    · cases h
      exact .shutdown ‹_›
    · cases h
  | stop key =>
    simp only [handle] at h
    split at h
    · cases h
      exact .stop key ‹_›
    · cases h

theorem Handled.issued (h : Handled ev s e t) :
    t.memo.issued = s.memo.issued ∨ t.memo.issued = s.memo.issued + 1 := by
  cases h with
  | move _ _ _ step => exact step.issued
  | _ => exact Or.inl rfl

theorem run_issued {events : List Event} (h : s.run ev events = some t) :
    s.memo.issued ≤ t.memo.issued := by
  induction events generalizing s with
  | nil => exact Option.some.inj h ▸ Nat.le_refl _
  | cons e more ih =>
    obtain ⟨u, first, rest⟩ := Option.bind_eq_some_iff.1 h
    have next := (handled first).issued
    have others := ih rest
    omega

/-- What holds at the start and is kept by every event holds after every run. -/
theorem run_induction {P : Shift → Prop}
    (keep : ∀ s e t, P s → Handled ev s e t → t.memo.issued < UInt64.size → P t) {events : List Event}
    (h : s.run ev events = some t) (few : t.memo.issued < UInt64.size) (start : P s) : P t := by
  induction events generalizing s with
  | nil => exact Option.some.inj h ▸ start
  | cons e more ih =>
    obtain ⟨u, first, rest⟩ := Option.bind_eq_some_iff.1 h
    exact ih rest (keep s e u start (handled first) (Nat.lt_of_le_of_lt (run_issued rest) few))

theorem run_append (events events' : List Event) :
    s.run ev (events ++ events') = (s.run ev events).bind fun t => t.run ev events' := by
  induction events generalizing s with
  | nil => rfl
  | cons e more ih =>
    simp only [List.cons_append, run]
    cases s.handle ev e with
    | none => rfl
    | some u => exact ih

theorem run_stops (ev : Evaluator) (s : Shift) (closing : s.closing = true) (idle : s.underway = []) {keys : List Key} :
    s.run ev (keys.map .stop) = some { s with cells := keys.foldl Cells.stop s.cells } := by
  induction keys generalizing s with
  | nil => rfl
  | cons k keys ih =>
    have stopped : s.handle ev (.stop k) = some (s.leave k .stopped) := if_pos closing
    have still : (s.leave k .stopped).underway = [] := by
      simp [leave, idle]
    rw [List.map_cons, run, stopped, Option.bind_some, ih (s.leave k .stopped) closing still,
      List.foldl_cons, leave, idle]
    rfl

/-- A worksheet, and one whose evaluations take their time while none is under way. -/
structure Mirrors (w : Workshop) (s : Shift) : Prop where
  same : s.toWorkshop = w
  idle : s.underway = []
  handed : ∀ p env, (w.cells.find? p).bind Cell.served? = some env → s.handed.get? p = some env

theorem run_evaluate_finish {key : Key} {gone : List Key} {c : Cell} {env : Env}
    (found : s.cells.find? key = some c) (waits : c.isWaiting = true) (idle : s.underway = [])
    (given : s.collect ev.fallback gone ∅ c.parents = some env) :
    s.run ev [.evaluate key gone, .move (.finish key)] = some (if s.hub.running then
        ((s.give key env).serve key ((ev.evaluate c.decl env).served ev.fallback)).tell
          (.finished key (ev.evaluate c.decl env).status (ev.evaluate c.decl env).output)
      else (s.give key env).serve key ((ev.evaluate c.decl env).served ev.fallback)) := by
  have begins : s.evaluate ev key gone = some (s.give key env) := by
    simp only [evaluate, found, waits, idle, List.map_nil, List.not_mem_nil, not_false_eq_true,
      and_self, if_true, given, Option.map_some]
  have known : (s.give key env).cells.find? key = some c := found
  have going : (s.give key env).underway.find? (·.1 = key) = some (key, env) := by
    simp [give, idle]
  rw [run, handle, begins, Option.bind_some, run, handle, finish, known, going]
  rfl

theorem collect_eq {fallback env : Env} {gone parents : List Key} {given : Key → Env}
    (answers : ∀ p ∈ parents, s.answer fallback gone p = some (given p)) :
    s.collect fallback gone env parents =
      some (parents.foldl (fun env p => env.union (given p)) env) := by
  induction parents generalizing env with
  | nil => rfl
  | cons p more ih =>
    rw [collect, answers p (List.mem_cons_self ..), Option.bind_some, List.foldl_cons]
    exact ih fun q hq => answers q (List.mem_cons_of_mem _ hq)

namespace Mirrors

variable {w w' : Workshop}

/-- Parents that do not wait answer with what they hand on, if those that were stopped are gone. -/
theorem answers (h : Mirrors w s) {parents : List Key} {p : Key} {c : Cell} (parent : p ∈ parents)
    (found : w.cells.find? p = some c) (calm : c.isWaiting = false) (fallback : Env) :
    s.answer fallback (parents.filter fun p => (w.cells.find? p).any Cell.isStopped) p =
      some (w.cells.servedOr fallback p) := by
  obtain ⟨key, decl, reads, phase⟩ := c
  have same : s.cells = w.cells := congrArg (·.cells) h.same
  simp only [answer, List.mem_filter, parent, true_and, same, Cells.servedOr, found]
  cases phase with
  | waiting => cases calm
  | stopped => rfl
  | serving env =>
    have given : s.handed.get? p = some env := h.handed p env (by rw [found]; rfl)
    rw [given]
    rfl

theorem moved (h : Mirrors w s) (m : Move) (other : ∀ key, m ≠ .finish key)
    (step : w.step ev m = some w') :
    ∃ t, s.run ev [.move m] = some t ∧ Mirrors w' t := by
  have kept : ∀ p, (w'.cells.find? p).bind Cell.served? = (w.cells.find? p).bind Cell.served? := by
    intro p
    cases Workshop.stepped step with
    | add placed item rest d e call added =>
      have add := Desk.Added.of_add added
      show (d.cells.find? p).bind Cell.served? = _
      cases add with
      | broken => rfl
      | reused => rfl
      | started decl =>
        rw [Cells.find?_start]
        cases w.cells.find? p with
        | some c => rfl
        | none =>
          rw [Option.none_or]
          split
          · rfl
          · rfl
    | fail placed item rest d f call added =>
      have add := Desk.Added.of_add added
      show (d.cells.find? p).bind Cell.served? = _
      cases add with
      | lost => rfl
      | orphan => rfl
    | finish key => exact absurd rfl (other key)
    | waste key => exact absurd rfl (other key)
    | _ => rfl
  refine ⟨{ s with toWorkshop := w' }, ?_, rfl, h.idle, fun p env served => h.handed p env ?_⟩
  · have handle : s.handle ev (.move m) =
        (s.toWorkshop.step ev m).map fun w => { s with toWorkshop := w } := by
      cases m with
      | finish key => exact absurd rfl (other key)
      | _ => rfl
    rw [run, handle, h.same, step]
    rfl
  · rw [← kept p]
    exact served

/-- A cell is given the merge of what its parents serve, if none of them waits. -/
theorem gathers (h : Mirrors w s) (ordered : w.cells.Ordered) {c : Cell} (hc : c ∈ w.cells.all)
    (ready : w.cells.ready c = true) (fallback : Env) :
    s.collect fallback (c.parents.filter fun p => (w.cells.find? p).any Cell.isStopped) ∅ c.parents =
      some (w.cells.input fallback c.parents) := by
  refine collect_eq fun p parent => ?_
  obtain ⟨q, found⟩ := Option.isSome_iff_exists.1
    (Cells.find?_isSome_iff.2 (ordered.parent hc parent).2)
  have calm := List.all_eq_true.1 ready p parent
  exact h.answers parent found (by simpa [found] using calm) fallback

theorem handed_serve (h : Mirrors w s) (key : Key) {given : Env} {p : Key} {env : Env}
    (serves : ((w.cells.setPhase key (.serving given)).find? p).bind Cell.served? = some env) :
    (s.handed.insert key given).get? p = some env := by
  rw [SortedMap.get?_insert]
  rcases Cells.served_setPhase serves with ⟨rfl, rfl⟩ | ⟨other, serves⟩
  · rw [if_pos rfl]
  · rw [if_neg other]
    exact h.handed p env serves

/-- To finish a cell at once is to begin its evaluation and to end it with nothing in between. -/
theorem finished (h : Mirrors w s) (ordered : w.cells.Ordered) {key : Key}
    (step : w.step ev (.finish key) = some w') :
    ∃ events t, s.run ev events = some t ∧ Mirrors w' t := by
  simp only [Workshop.step] at step
  split at step
  · rename_i report later ends
    obtain ⟨c, outcome, found, waits, ready, same, rfl, all, calls⟩ := Cells.of_finish ends
    obtain ⟨hc, rfl⟩ := Cells.find?_mem found
    have given := h.gathers ordered hc ready ev.fallback
    have served : ∀ p env, (later.find? p).bind Cell.served? = some env →
        (s.handed.insert c.key (outcome.served ev.fallback)).get? p = some env := by
      intro p env serves
      rw [Cells.find?_congr all] at serves
      exact h.handed_serve c.key serves
    have cells : (⟨(w.cells.setPhase c.key (.serving (outcome.served ev.fallback))).all,
        w.cells.calls ++ [c.key]⟩ : Cells) = later := by
      rw [← all, ← calls]
    obtain ⟨rfl, idle, -⟩ := h
    have runs := run_evaluate_finish found waits idle given
    rw [← same] at runs
    refine ⟨_, _, runs, ?_⟩
    have left : (s.underway ++ [(c.key, s.cells.input ev.fallback c.parents)]).filter
        (fun u => u.1 ≠ c.key) = [] := by
      simp [idle]
    split at step
    · rename_i running
      cases step
      rw [if_pos running]
      exact ⟨by rw [← cells]; rfl, left, served⟩
    · rename_i deaf
      cases step
      rw [if_neg deaf]
      exact ⟨by rw [← cells]; rfl, left, served⟩
  · cases step

theorem halted (h : Mirrors w s) : Mirrors { w with hub := w.hub.stop } { s with hub := s.hub.stop } := by
  obtain ⟨rfl, idle, handed⟩ := h
  exact ⟨rfl, idle, handed⟩

theorem shut (h : Mirrors w s) (idle : w.call = none) :
    ∃ events t, s.run ev events = some t ∧
      Mirrors { w with texts := [], cells := w.cells.stopAll } t := by
  obtain ⟨rfl, none_going, _⟩ := h
  refine ⟨.shutdown :: s.cells.keys.map .stop,
    { s with texts := [], closing := true, cells := s.cells.stopAll }, ?_, rfl, none_going, ?_⟩
  · have shuts : s.handle ev .shutdown = some { s with texts := [], closing := true } := by
      simp only [handle, idle]
    rw [run, shuts, Option.bind_some,
      run_stops ev { s with texts := [], closing := true } rfl none_going]
    simp only [Cells.stop_keys]
  · intro p env serves
    rw [Cells.served_stopAll] at serves
    cases serves

theorem handled (h : Mirrors w s) (ordered : w.cells.Ordered) {e : Worksheet.Event}
    (step : w.handle ev e = some w') : ∃ events t, s.run ev events = some t ∧ Mirrors w' t := by
  cases e with
  | move m =>
    cases m with
    | finish key => exact h.finished ordered step
    | turn => exact ⟨_, h.moved .turn (fun _ => Move.noConfusion) step⟩
    | add => exact ⟨_, h.moved .add (fun _ => Move.noConfusion) step⟩
    | close => exact ⟨_, h.moved .close (fun _ => Move.noConfusion) step⟩
    | receive => exact ⟨_, h.moved .receive (fun _ => Move.noConfusion) step⟩
  | halt =>
    cases step
    exact ⟨[.halt], _, rfl, h.halted⟩
  | shutdown =>
    simp only [Workshop.handle] at step
    split at step
    · cases step
      exact h.shut ‹_›
    · cases step

end Mirrors

/-- A run of a worksheet, where evaluations take no time, is a run of this kind. -/
theorem run_of_workshop {capacity : Nat} {texts : List String} {events : List Worksheet.Event}
    {w : Workshop} (run : (Workshop.start capacity texts).run ev events = some w)
    (few : w.memo.issued < UInt64.size) :
    ∃ events' s, (start capacity texts).run ev events' = some s ∧ s.toWorkshop = w := by
  have keep : ∀ u e v, (u.toDesk.Agrees ∧
      ∃ events' s, (start capacity texts).run ev events' = some s ∧ Mirrors u s) →
      Workshop.handle ev u e = some v → v.memo.issued < UInt64.size → v.toDesk.Agrees ∧
      ∃ events' s, (start capacity texts).run ev events' = some s ∧ Mirrors v s := by
    rintro u e v ⟨agrees, before, s, ran, mirrors⟩ handled few
    refine ⟨Workshop.agrees_of_handle handled few agrees, ?_⟩
    obtain ⟨more, t, goes, mirrors⟩ := mirrors.handled agrees.ordered handled
    refine ⟨before ++ more, t, ?_, mirrors⟩
    rw [run_append, ran, Option.bind_some, goes]
  have begins : (Workshop.start capacity texts).toDesk.Agrees ∧
      ∃ events' s, (start capacity texts).run ev events' = some s ∧
        Mirrors (Workshop.start capacity texts) s :=
    ⟨Desk.empty_agrees, [], _, rfl, rfl, rfl, fun _ _ serves => nomatch serves⟩
  obtain ⟨_, events', s, ran, mirrors⟩ := Workshop.run_induction keep run few begins
  exact ⟨events', s, ran, mirrors.same⟩

end Shift

end Worksheet
