import Worksheet.Proofs.Layout
/-! What a cell reads. The parents of a cell hand on different names, so they may be merged in any
order; and the cell then knows just those of its free names whose declarations came to a value. -/
namespace Worksheet

open Calc (Env eval)

/-- Environments without a name in common. -/
def Calc.Env.Apart (env env' : Env) : Prop := ∀ x, env.get? x = none ∨ env'.get? x = none

/-- A declaration that comes to a value hands on its name with this value, and nothing else. -/
theorem Evaluator.get?_served {d : Calc.Decl} {env : Env} {x : String} {v : Calc.Value} :
    (((Evaluator.calc ∅).evaluate d env).served ∅).get? x = some v ↔
      d.bound = some x ∧ eval env d.item.expr = .ok v := by
  simp only [Evaluator.calc, Calc.Decl.evaluate]
  cases eval env d.item.expr with
  | error e =>
    constructor
    · intro found
      cases found
    · rintro ⟨_, same⟩
      cases same
  | ok w =>
    cases d.bound with
    | none =>
      constructor
      · intro found
        cases found
      · rintro ⟨same, _⟩
        cases same
    | some y =>
      simp only [Outcome.served, SortedMap.get?_insert, Option.some.injEq, Except.ok.injEq,
        eq_comm (a := y)]
      by_cases same : x = y
      · simp [same]
      · simp [same]

namespace Cells

variable {ev : Evaluator} {cs : Cells} {c : Cell} {scope : Scope} {x : String} {v : Calc.Value}

theorem Sound.get?_servedOr (sound : cs.Sound (.calc ∅)) (h : cs.Ordered) (hc : c ∈ cs.all)
    (calm : c.isWaiting = false) : (cs.servedOr ∅ c.key).get? x = some v ↔
      c.decl.bound = some x ∧ eval (cs.input ∅ c.parents) c.decl.item.expr = .ok v := by
  rw [servedOr_of_mem h hc (sound.serves c hc calm) ∅]
  exact Evaluator.get?_served

/-- No name is handed on by two of the parents. -/
def GivenOnce (cs : Cells) (fallback : Env) (parents : List Key) : Prop :=
  ∀ p ∈ parents, ∀ q ∈ parents, ∀ x v w, (cs.servedOr fallback p).get? x = some v →
    (cs.servedOr fallback q).get? x = some w → p = q

namespace GivenOnce

variable {fallback : Env} {parents order : List Key}

theorem value (h : cs.GivenOnce fallback parents) (x : String) : ∀ p ∈ parents, ∀ q ∈ parents,
    ∀ v w, (cs.servedOr fallback p).get? x = some v → (cs.servedOr fallback q).get? x = some w →
      v = w := by
  intro p hp q hq v w gives gives'
  rw [h p hp q hq x v w gives gives', gives'] at gives
  exact (Option.some.inj gives).symm

theorem input_perm (h : cs.GivenOnce fallback parents) (perm : order.Perm parents) :
    cs.input fallback order = cs.input fallback parents := by
  refine SortedMap.ext_get? fun x => Option.ext fun v => ?_
  rw [get?_input_iff (h.value x), get?_input_iff fun p hp q hq =>
    h.value x p (perm.mem_iff.1 hp) q (perm.mem_iff.1 hq)]
  exact exists_congr fun p => and_congr_left fun _ => perm.mem_iff

theorem apart (h : cs.GivenOnce fallback parents) (ascending : parents.Pairwise (· < ·)) :
    parents.Pairwise fun p q => (cs.servedOr fallback p).Apart (cs.servedOr fallback q) := by
  refine ascending.imp_of_mem fun {p q} hp hq less x => ?_
  cases gives : (cs.servedOr fallback p).get? x with
  | none => exact Or.inl rfl
  | some v =>
    cases gives' : (cs.servedOr fallback q).get? x with
    | none => exact Or.inr rfl
    | some w => exact absurd (h p hp q hq x v w gives gives') (StrictOrder.ne_of_lt less)

end GivenOnce

/-- Two parents that hand on the same name are the one that the name meant. -/
theorem Sound.given_once (sound : cs.Sound (.calc ∅)) (h : cs.Ordered) (binds : cs.Binds scope)
    (calm : cs.Calm c) (parents : c.parents = (Scope.resolve scope c.decl.free).toList) :
    cs.GivenOnce ∅ c.parents := by
  intro p hp q hq x v w gives gives'
  obtain ⟨b, hb, rfl, still⟩ := calm p hp
  obtain ⟨b', hb', rfl, still'⟩ := calm q hq
  have own := ((sound.get?_servedOr h hb still).1 gives).1
  have own' := ((sound.get?_servedOr h hb' still').1 gives').1
  rw [parents] at hp hq
  exact binds.unique h hb hb' hp hq own own'

end Cells

namespace Workshop

/-- What became of the items of each text that was begun. -/
def revisions (s : Workshop) : List Revision := s.ended.map Call.placed ++ s.call.toList.map Prod.fst

def placedAt (s : Workshop) (a i : Nat) : Option Placed := s.revisions[a]?.bind (·[i]?)

/-- What a name means at a place of the texts: the cell of the nearest declaration before it that
binds the name. -/
structure Means (texts : List String) (s : Workshop) (a i : Nat) (x : String) (b : Cell) : Prop where
  member : b ∈ s.cells.all
  nearest : ∃ text j, texts[a]? = some text ∧ Calc.Nearest ((Calc.parse text).take i) x j ∧
    (Calc.parse text)[j]? = some (.decl b.decl) ∧ (s.placedAt a j).map Placed.key = some b.key

/-- What a cell that has evaluated has read. -/
structure Fed (texts : List String) (s : Workshop) (c : Cell) : Prop where
  result : c.phase = .serving
    (((Evaluator.calc ∅).evaluate c.decl (s.cells.input ∅ c.parents)).served ∅)
  parents : ∀ p ∈ c.parents, ∃ b ∈ s.cells.all, ∃ env, b.key = p ∧ b.phase = .serving env ∧
    ∀ x, b.decl.bound ≠ some x → env.get? x = none
  apart : c.parents.Pairwise fun p q => (s.cells.servedOr ∅ p).Apart (s.cells.servedOr ∅ q)
  order : ∀ order, order.Perm c.parents → s.cells.input ∅ order = s.cells.input ∅ c.parents
  started : ∃ a i, s.placedAt a i = some ⟨c.key, .started⟩
  reads : ∀ a i p, s.placedAt a i = some p → p.placement ≠ .broken → p.key = c.key →
    (∃ text, texts[a]? = some text ∧ (Calc.parse text)[i]? = some (.decl c.decl)) ∧
    ∀ x v, (s.cells.input ∅ c.parents).get? x = some v ↔ x ∈ c.decl.free ∧
      ∃ b, s.Means texts a i x b ∧ eval (s.cells.input ∅ b.parents) b.decl.item.expr = .ok v

variable {ev : Evaluator} {texts : List String} {s t : Workshop} {c : Cell}

/-- The cells are sound until they are stopped, and then no cell goes on. -/
def Sane (ev : Evaluator) (s : Workshop) : Prop :=
  s.cells.Sound ev ∨ s.texts = [] ∧ s.call = none ∧ ∀ c ∈ s.cells.all, c.phase = .stopped

theorem Sane.handled (h : s.Sane ev) {e : Event} (agrees : s.toDesk.Agrees)
    (step : s.handle ev e = some t) (few : t.memo.issued < UInt64.size) : t.Sane ev := by
  cases e with
  | move m =>
    rcases h with sound | ⟨no_texts, no_call, stopped⟩
    · left
      cases stepped step with
      | add placed item rest d e call added => exact (agrees.quiet sound (.of_add added) few).sound
      | fail placed item rest d f call added =>
        obtain ⟨_, _, rfl⟩ := agrees.failure (.of_add added)
        exact sound
      | finish key report cells heard finished =>
        exact (Cells.advance agrees.ordered sound finished).sound
      | waste key report cells deaf finished =>
        exact (Cells.advance agrees.ordered sound finished).sound
      | _ => exact sound
    · have nothing : ∀ {key report cells}, s.cells.finish ev key = some (report, cells) → False := by
        intro key report cells finished
        obtain ⟨c, _, found, waits, _⟩ := Cells.of_finish finished
        rw [Cell.isWaiting, stopped c (Cells.find?_mem found).1] at waits
        cases waits
      cases stepped step with
      | turn _ _ _ next => cases no_texts.symm.trans next
      | finish key report cells heard finished => exact absurd finished nothing
      | waste key report cells deaf finished => exact absurd finished nothing
      | receive => exact Or.inr ⟨no_texts, no_call, stopped⟩
      | add _ _ _ _ _ call => cases no_call.symm.trans call
      | fail _ _ _ _ _ call => cases no_call.symm.trans call
      | close _ call => cases no_call.symm.trans call
      | lose _ call => cases no_call.symm.trans call
  | halt =>
    cases step
    exact h
  | shutdown =>
    simp only [handle] at step
    split at step
    · rename_i no_call
      cases step
      refine Or.inr ⟨rfl, no_call, fun c hc => ?_⟩
      obtain ⟨b, _, rfl⟩ := List.mem_map.1 hc
      rfl
    · cases step

theorem sane_of_run {capacity : Nat} {events : List Event}
    (run : (start capacity texts).run ev events = some s) (few : s.memo.issued < UInt64.size) :
    s.Sane ev := by
  have keep : ∀ u e v, u.toDesk.Agrees ∧ u.Sane ev → handle ev u e = some v →
      v.memo.issued < UInt64.size → v.toDesk.Agrees ∧ v.Sane ev := by
    intro u e v ⟨agrees, sane⟩ handled few
    exact ⟨agrees_of_handle handled few agrees, sane.handled agrees handled few⟩
  have none_yet : (start capacity texts).cells.Sound ev := by
    constructor
    · exact fun c hc => absurd hc List.not_mem_nil
    · exact fun c hc => absurd hc List.not_mem_nil
  exact (run_induction keep run few ⟨Desk.empty_agrees, Or.inl none_yet⟩).2

theorem placedAt_of_started {k : Key} (h : k ∈ s.placements.startedKeys) :
    ∃ a i, s.placedAt a i = some ⟨k, .started⟩ := by
  have flat : s.placements = s.revisions.flatten := by
    rw [placements, revisions, List.flatten_append, List.flatMap_def]
    cases s.call with
    | none => rfl
    | some call => simp
  obtain ⟨p, hp, placement, key⟩ := Revision.mem_startedKeys.1 h
  rw [flat] at hp
  obtain ⟨r, hr, hp⟩ := List.mem_flatten.1 hp
  obtain ⟨a, at_a⟩ := List.mem_iff_getElem?.1 hr
  obtain ⟨i, at_i⟩ := List.mem_iff_getElem?.1 hp
  refine ⟨a, i, ?_⟩
  rw [placedAt, at_a, Option.bind_some, at_i, ← key, ← placement]

theorem Means.bound {a i : Nat} {x : String} {b : Cell} (h : s.Means texts a i x b) :
    b.decl.bound = some x := by
  obtain ⟨text, j, _, nearest, here, _⟩ := h.nearest
  obtain ⟨item, found, bound⟩ := nearest.binds
  cases Option.some.inj (here.symm.trans (getElem?_take_some.1 found).2)
  exact bound

namespace Traced

theorem laid_at (h : s.Traced texts) {a : Nat} {r : Revision} (at_a : s.revisions[a]? = some r) :
    ∃ text items rest scope, texts[a]? = some text ∧ Calc.parse text = items ++ rest ∧
      Laid s.cells items r scope := by
  have read : ∀ {rest scope}, Begun s.cells.idle texts[a]? r rest scope →
      ∃ text items rest scope, texts[a]? = some text ∧ Calc.parse text = items ++ rest ∧
        Laid s.cells items r scope := by
    rintro rest scope ⟨text, items, given, parsed, laid⟩
    exact ⟨text, items, rest, scope, given, parsed, laid.of_idle⟩
  have ended : (s.ended.map Call.placed)[a]? = some r → ∃ text items rest scope,
      texts[a]? = some text ∧ Calc.parse text = items ++ rest ∧ Laid s.cells items r scope := by
    intro at_a
    rw [List.getElem?_map] at at_a
    obtain ⟨call, ended, rfl⟩ := Option.map_eq_some_iff.1 at_a
    obtain ⟨rest, scope, begun⟩ := h.ended a call ended
    exact read begun
  rw [revisions] at at_a
  cases now : s.call with
  | none =>
    rw [now, Option.toList, List.map_nil, List.append_nil] at at_a
    exact ended at_a
  | some current =>
    obtain ⟨placed, rest⟩ := current
    rw [now, Option.toList, List.map_singleton] at at_a
    rcases getElem?_concat.1 at_a with old | ⟨rfl, rfl⟩
    · exact ended old
    · rw [List.length_map] at read ⊢
      exact read (h.current r rest now)

/-- A declaration at a place has a cell, whose parents are what its names mean there. -/
theorem cell_at (h : s.Traced texts) {a i : Nat} {p : Placed} (placed : s.placedAt a i = some p)
    (read : p.placement ≠ .broken) : ∃ c ∈ s.cells.all, c.key = p.key ∧
      ∃ text scope r, texts[a]? = some text ∧ (Calc.parse text)[i]? = some (.decl c.decl) ∧
        s.revisions[a]? = some r ∧ Laid s.cells ((Calc.parse text).take i) (r.take i) scope ∧
        c.parents = (Scope.resolve scope c.decl.free).toList := by
  obtain ⟨r, at_a, at_i⟩ := Option.bind_eq_some_iff.1 placed
  obtain ⟨text, items, rest, _, given, parsed, laid⟩ := h.laid_at at_a
  rcases laid.at_place at_i with ⟨broken, _⟩ | ⟨_, c, hc, key, item, scope, before, parents⟩
  · exact absurd broken read
  · have less := (List.getElem?_eq_some_iff.1 item).1
    refine ⟨c, hc, key, text, scope, r, given, ?_, at_a, ?_, parents⟩
    · rw [parsed, List.getElem?_append_left less]
      exact item
    · rw [parsed, List.take_append_of_le_length (Nat.le_of_lt less)]
      exact before

/-- The scope behind the items before a place has for each name what it means at the place. -/
theorem means_iff (h : s.Traced texts) {a i : Nat} {text : String} {r : Revision} {scope : Scope}
    (given : texts[a]? = some text) (at_a : s.revisions[a]? = some r)
    (laid : Laid s.cells ((Calc.parse text).take i) (r.take i) scope) {x : String} {b : Cell} :
    s.Means texts a i x b ↔ b ∈ s.cells.all ∧ scope.get? x = some b.key := by
  constructor
  · rintro ⟨hb, text', j, given', nearest, item, key⟩
    cases given.symm.trans given'
    obtain ⟨_, found, _⟩ := nearest.binds
    refine ⟨hb, laid.get?_scope.2 ⟨j, nearest, ?_⟩⟩
    obtain ⟨p, placed, key⟩ := Option.map_eq_some_iff.1 key
    rw [placedAt, at_a, Option.bind_some] at placed
    rw [Revision.order, List.getElem?_map, getElem?_take_some.2 ⟨(getElem?_take_some.1 found).1, placed⟩, ← key]
    rfl
  · rintro ⟨hb, found⟩
    obtain ⟨j, nearest, at_j⟩ := laid.get?_scope.1 found
    rw [Revision.order, List.getElem?_map] at at_j
    obtain ⟨p, placed, key⟩ := Option.map_eq_some_iff.1 at_j
    refine ⟨hb, text, j, given, nearest, ?_, ?_⟩
    · obtain ⟨item, here, bound⟩ := nearest.binds
      rcases laid.at_place placed with ⟨_, _, _, broken⟩ | ⟨_, c, hc, same, decl, _⟩
      · cases Option.some.inj (here.symm.trans broken)
        cases bound
      · cases h.agrees.ordered.eq_of_key hc hb (same.trans key)
        exact (getElem?_take_some.1 decl).2
    · rw [placedAt, at_a, Option.bind_some, (getElem?_take_some.1 placed).2, ← key]
      rfl

theorem reads (h : s.Traced texts) (sound : s.cells.Sound (.calc ∅)) (calm : s.cells.Calm c)
    (hc : c ∈ s.cells.all) {a i : Nat} {p : Placed} (placed : s.placedAt a i = some p)
    (read : p.placement ≠ .broken) (key : p.key = c.key) (x : String) (v : Calc.Value) :
    (∃ q ∈ c.parents, (s.cells.servedOr ∅ q).get? x = some v) ↔ x ∈ c.decl.free ∧
      ∃ b, s.Means texts a i x b ∧ eval (s.cells.input ∅ b.parents) b.decl.item.expr = .ok v := by
  have ordered := h.agrees.ordered
  obtain ⟨c', hc', same, text, scope, r, given, _, at_a, laid, parents⟩ := h.cell_at placed read
  cases ordered.eq_of_key hc' hc (same.trans key)
  constructor
  · rintro ⟨q, hq, gives⟩
    obtain ⟨b, hb, rfl, still⟩ := calm q hq
    obtain ⟨bound, value⟩ := (sound.get?_servedOr ordered hb still).1 gives
    rw [parents] at hq
    obtain ⟨y, hy, found⟩ := Scope.mem_resolve.1 hq
    have means := (h.means_iff given at_a laid).2 ⟨hb, found⟩
    cases Option.some.inj (means.bound.symm.trans bound)
    exact ⟨hy, b, means, value⟩
  · rintro ⟨hx, b, means, value⟩
    obtain ⟨hb, found⟩ := (h.means_iff given at_a laid).1 means
    have parent : b.key ∈ c.parents := parents ▸ Scope.mem_resolve.2 ⟨x, hx, found⟩
    obtain ⟨b', hb', same, still⟩ := calm b.key parent
    cases ordered.eq_of_key hb' hb same
    exact ⟨b.key, parent, (sound.get?_servedOr ordered hb still).2 ⟨means.bound, value⟩⟩

theorem fed (h : s.Traced texts) (sound : s.cells.Sound (.calc ∅))
    (recorded : s.recordedKeys = s.placements.startedKeys) (hc : c ∈ s.cells.all)
    (still : c.isWaiting = false) : s.Fed texts c := by
  have ordered := h.agrees.ordered
  have calm := sound.parents c hc still
  obtain ⟨scope, binds, parents⟩ := (h.woven.of_idle h.agrees).parents c hc
  have once := sound.given_once ordered binds calm parents
  constructor
  · exact sound.serves c hc still
  · intro p hp
    obtain ⟨b, hb, rfl, still⟩ := calm p hp
    have phase := sound.serves b hb still
    refine ⟨b, hb, _, rfl, phase, fun x other => ?_⟩
    refine Option.eq_none_iff_forall_ne_some.2 fun v gives => ?_
    rw [← Cells.servedOr_of_mem ordered hb phase ∅] at gives
    exact other ((sound.get?_servedOr ordered hb still).1 gives).1
  · exact once.apart (parents ▸ (Scope.resolve scope _).sorted)
  · exact fun order perm => once.input_perm perm
  · have key : c.key ∈ s.placements.startedKeys := by
      rw [← recorded, Desk.recordedKeys_eq h.agrees]
      exact Cells.mem_keys hc
    exact placedAt_of_started key
  · intro a i p placed read key
    constructor
    · obtain ⟨c', hc', same, text, _, _, given, item, _⟩ := h.cell_at placed read
      cases ordered.eq_of_key hc' hc (same.trans key)
      exact ⟨text, given, item⟩
    · intro x v
      rw [Cells.get?_input_iff (once.value x)]
      exact h.reads sound calm hc placed read key x v

end Traced

/-- In every state of every run, take a cell that has evaluated. Its parents have evaluated, each
hands on its own name at most, no two of them the same; so they may be merged in any order. And
wherever the cell stands, it knows those of its free names whose nearest declarations came to a value,
with this value. -/
theorem parents_apart (capacity : Nat) (texts : List String) (events : List Event) (s : Workshop)
    (run : (start capacity texts).run (.calc ∅) events = some s)
    (few : s.memo.issued < UInt64.size) (c : Cell) (hc : c ∈ s.cells.all) (env : Env)
    (served : c.phase = .serving env) : s.Fed texts c := by
  have traced := traced_of_run run few
  have still : c.isWaiting = false := by rw [Cell.isWaiting, served]
  rcases sane_of_run run few with sound | ⟨_, _, stopped⟩
  · exact traced.fed sound (placements_of_run run).2 hc still
  · rw [stopped c hc] at served
    cases served

theorem parents_apart_when_shadowed : ∃ (s : Workshop) (c : Cell),
    (start 4 ["x = 1", "x = 1\nx = x + 10\nf = 1 / 0\ny = x + f"]).run (.calc ∅)
      [.move .turn, .move .add, .move .close, .move .turn, .move .add, .move (.finish ⟨0⟩),
        .move .add, .move .add, .move (.finish ⟨2⟩), .move .add, .move (.finish ⟨1⟩),
        .move (.finish ⟨3⟩)] = some s ∧
    s.placedAt 1 3 = some ⟨c.key, .started⟩ ∧ c.parents = [⟨1⟩, ⟨2⟩] ∧
    s.cells.input ∅ [⟨2⟩, ⟨1⟩] = s.cells.input ∅ [⟨1⟩, ⟨2⟩] ∧
    ∃ b, Means ["x = 1", "x = 1\nx = x + 10\nf = 1 / 0\ny = x + f"] s 1 3 "x" b ∧
      eval (s.cells.input ∅ b.parents) b.decl.item.expr = .ok (.int 11) := by
  have ends : ((start 4 ["x = 1", "x = 1\nx = x + 10\nf = 1 / 0\ny = x + f"]).run (.calc ∅)
      [.move .turn, .move .add, .move .close, .move .turn, .move .add, .move (.finish ⟨0⟩),
        .move .add, .move .add, .move (.finish ⟨2⟩), .move .add, .move (.finish ⟨1⟩),
        .move (.finish ⟨3⟩)]).map (fun s => (s.memo.issued, s.placedAt 1 3,
          (s.cells.find? ⟨3⟩).map fun c => (c.parents, c.served?.isSome),
          (s.cells.input ∅ [⟨1⟩, ⟨2⟩]).get? "x")) =
      some (4, some ⟨⟨3⟩, .started⟩, some ([⟨1⟩, ⟨2⟩], true), some (.int 11)) := by cbv
  obtain ⟨s, run, facts⟩ := Option.map_eq_some_iff.1 ends
  simp only [Prod.mk.injEq] at facts
  obtain ⟨issued, placed, cell, value⟩ := facts
  obtain ⟨c, found, same⟩ := Option.map_eq_some_iff.1 cell
  simp only [Prod.mk.injEq] at same
  obtain ⟨parents, served⟩ := same
  obtain ⟨hc, key⟩ := Cells.find?_mem found
  obtain ⟨env, served⟩ := Option.isSome_iff_exists.1 served
  have phase : c.phase = .serving env := by
    rw [Cell.served?] at served
    split at served
    · cases served
      assumption
    · cases served
  have fed := parents_apart 4 _ _ s run (by rw [issued]; decide) c hc env phase
  rw [← key] at placed
  rw [← parents] at value
  obtain ⟨_, b, means, value⟩ := ((fed.reads 1 3 _ placed (by simp) rfl).2 "x" (.int 11)).1 value
  refine ⟨s, c, run, placed, parents, ?_, b, means, value⟩
  have order := fed.order [⟨2⟩, ⟨1⟩]
  rw [parents] at order
  exact order (List.Perm.swap ..)

end Workshop

end Worksheet
