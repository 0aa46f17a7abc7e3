import Worksheet.Proofs.Isolation
/-! Where declarations stand. At any point of a run, each text that has been begun is laid out as far as
its items have been placed: a declaration has the cell of its key, and the parents of that cell are what
its free names meant at the place. -/
namespace Worksheet

open Calc (Decl Section)

/-- The last of some items that binds a name. -/
structure Calc.Nearest (items : List Section) (x : String) (j : Nat) : Prop where
  binds : ∃ item, items[j]? = some item ∧ item.bound = some x
  last : ∀ k item, j < k → items[k]? = some item → item.bound ≠ some x

theorem getElem?_concat {α : Type} {l : List α} {x y : α} {i : Nat} :
    (l ++ [x])[i]? = some y ↔ l[i]? = some y ∨ i = l.length ∧ y = x := by
  rcases Nat.lt_trichotomy i l.length with less | rfl | more
  · simp [List.getElem?_append_left less, Nat.ne_of_lt less]
  · simp [eq_comm]
  · have missing : (l ++ [x])[i]? = none := List.getElem?_eq_none (by simpa using more)
    simp [missing, Nat.le_of_lt more, Nat.ne_of_gt more]

theorem getElem?_take_some {α : Type} {l : List α} {x : α} {i j : Nat} :
    (l.take i)[j]? = some x ↔ j < i ∧ l[j]? = some x := by
  rw [List.getElem?_take]
  by_cases less : j < i
  · simp [less]
  · simp [less]

theorem Calc.Nearest.lt {items : List Section} {x : String} {j : Nat} (h : Nearest items x j) :
    j < items.length := by
  obtain ⟨_, found, _⟩ := h.binds
  exact (List.getElem?_eq_some_iff.1 found).1

theorem Calc.nearest_concat {items : List Section} {item : Section} {x : String} {j : Nat} :
    Nearest (items ++ [item]) x j ↔
      if item.bound = some x then j = items.length else Nearest items x j := by
  have new : (items ++ [item])[items.length]? = some item := getElem?_concat.2 (.inr ⟨rfl, rfl⟩)
  split
  · rename_i bound
    constructor
    · rintro ⟨⟨other, found, _⟩, last⟩
      rcases getElem?_concat.1 found with old | ⟨rfl, _⟩
      · exact absurd bound (last _ item (List.getElem?_eq_some_iff.1 old).1 new)
      · rfl
    · rintro rfl
      refine ⟨⟨item, new, bound⟩, fun k other behind found => ?_⟩
      rcases getElem?_concat.1 found with old | ⟨rfl, _⟩
      · exact absurd (List.getElem?_eq_some_iff.1 old).1 (Nat.lt_asymm behind)
      · exact absurd behind (Nat.lt_irrefl _)
  · rename_i unbound
    constructor
    · rintro ⟨⟨other, found, bound⟩, last⟩
      rcases getElem?_concat.1 found with old | ⟨rfl, rfl⟩
      · refine ⟨⟨other, old, bound⟩, fun k next behind found => ?_⟩
        exact last k next behind (getElem?_concat.2 (.inl found))
      · exact absurd bound unbound
    · rintro ⟨⟨other, found, bound⟩, last⟩
      refine ⟨⟨other, getElem?_concat.2 (.inl found), bound⟩, fun k next behind found => ?_⟩
      rcases getElem?_concat.1 found with old | ⟨rfl, rfl⟩
      · exact last k next behind old
      · exact unbound

theorem concat_at {α β : Type} {l : List α} {m : List β} (y : α) {x z : β} {i : Nat}
    (same : m.length = l.length) (found : (m ++ [x])[i]? = some z) :
    (m[i]? = some z ∧ (l ++ [y])[i]? = l[i]? ∧ (l ++ [y]).take i = l.take i ∧
      (m ++ [x]).take i = m.take i) ∨
    (z = x ∧ (l ++ [y])[i]? = some y ∧ (l ++ [y]).take i = l ∧ (m ++ [x]).take i = m) := by
  rcases getElem?_concat.1 found with old | ⟨rfl, last⟩
  · have less := (List.getElem?_eq_some_iff.1 old).1
    have less' : i < l.length := same ▸ less
    exact Or.inl ⟨old, List.getElem?_append_left less',
      List.take_append_of_le_length (Nat.le_of_lt less'),
      List.take_append_of_le_length (Nat.le_of_lt less)⟩
  · refine Or.inr ⟨last, ?_, ?_, List.take_left⟩
    · exact getElem?_concat.2 (.inr ⟨same, rfl⟩)
    · rw [same, List.take_left]

theorem order_concat (r : Revision) (p : Placed) :
    Revision.order (r ++ [p]) = r.order ++ [p.key] := List.map_append

/-- Items with what became of them, and what the names mean behind them. -/
inductive Laid (cs : Cells) : List Section → Revision → Scope → Prop
  | nil : Laid cs [] [] ∅
  | broken {items : List Section} {r : Revision} {scope : Scope} (before : Laid cs items r scope)
      (source : String) (e : Calc.ParseError) (key : Key) :
      Laid cs (items ++ [.broken source e]) (r ++ [⟨key, .broken⟩]) scope
  | decl {items : List Section} {r : Revision} {scope : Scope} {c : Cell}
      (before : Laid cs items r scope) (member : c ∈ cs.all)
      (parents : c.parents = (Scope.resolve scope c.decl.free).toList) (placement : Placement)
      (read : placement ≠ .broken) :
      Laid cs (items ++ [.decl c.decl]) (r ++ [⟨c.key, placement⟩])
        (Scope.bind scope c.decl.bound c.key)

namespace Laid

variable {cs cs' : Cells} {items : List Section} {r : Revision} {scope : Scope}

theorem mono (h : Laid cs items r scope) (kept : ∀ c ∈ cs.all, c ∈ cs'.all) :
    Laid cs' items r scope := by
  induction h with
  | nil => exact .nil
  | broken _ source e key ih => exact .broken ih source e key
  | decl _ member parents placement read ih => exact .decl ih (kept _ member) parents placement read

/-- What the cells are doing does not matter. -/
theorem of_idle (h : Laid cs.idle items r scope) : Laid cs items r scope := by
  induction h with
  | nil => exact .nil
  | broken _ source e key ih => exact .broken ih source e key
  | decl _ member parents placement read ih =>
    obtain ⟨c, hc, rfl⟩ := List.mem_map.1 member
    exact .decl (c := c) ih hc parents placement read

theorem length_eq (h : Laid cs items r scope) : r.length = items.length := by
  induction h with
  | nil => rfl
  | broken _ _ _ _ ih => simp [ih]
  | decl _ _ _ _ _ ih => simp [ih]

theorem length_order (h : Laid cs items r scope) : r.order.length = items.length := by
  rw [Revision.order, List.length_map, h.length_eq]

/-- A name means the key of the nearest item that binds it. -/
theorem get?_scope (h : Laid cs items r scope) {x : String} {k : Key} :
    scope.get? x = some k ↔ ∃ j, Calc.Nearest items x j ∧ r.order[j]? = some k := by
  induction h with
  | nil =>
    constructor
    · intro found
      cases found
    · rintro ⟨j, nearest, _⟩
      exact absurd nearest.lt (Nat.not_lt_zero j)
  | @broken items r scope before source e key ih =>
    have length := before.length_order
    have unbound : (Section.broken source e).bound ≠ some x := nofun
    rw [ih]
    refine exists_congr fun j => ?_
    rw [Calc.nearest_concat, if_neg unbound]
    refine and_congr_right fun nearest => ?_
    rw [order_concat, List.getElem?_append_left (length ▸ nearest.lt)]
  | @decl items r scope c before member parents placement read ih =>
    have length := before.length_order
    rw [Scope.get?_bind, order_concat]
    by_cases bound : c.decl.bound = some x
    · have last : (r.order ++ [c.key])[items.length]? = some c.key :=
        getElem?_concat.2 (.inr ⟨length.symm, rfl⟩)
      have binds : (Section.decl c.decl).bound = some x := bound
      simp only [if_pos bound, Calc.nearest_concat, if_pos binds, exists_eq_left, last]
    · have unbound : (Section.decl c.decl).bound ≠ some x := bound
      rw [if_neg bound, ih]
      refine exists_congr fun j => ?_
      rw [Calc.nearest_concat, if_neg unbound]
      refine and_congr_right fun nearest => ?_
      rw [List.getElem?_append_left (length ▸ nearest.lt)]

/-- What stands at a place: a declaration, with a cell whose parents are what its names mean there,
or an item that cannot be read. -/
theorem at_place (h : Laid cs items r scope) {i : Nat} {p : Placed} (placed : r[i]? = some p) :
    (p.placement = .broken ∧ ∃ source e, items[i]? = some (.broken source e)) ∨
    p.placement ≠ .broken ∧ ∃ c ∈ cs.all, c.key = p.key ∧ items[i]? = some (.decl c.decl) ∧
      ∃ scope, Laid cs (items.take i) (r.take i) scope ∧
        c.parents = (Scope.resolve scope c.decl.free).toList := by
  induction h with
  | nil => cases placed
  | @broken items r scope before source e key ih =>
    rcases concat_at (.broken source e) before.length_eq placed with
      ⟨placed, at_items, items', r'⟩ | ⟨rfl, at_items, _⟩
    · rw [at_items, items', r']
      exact ih placed
    · exact Or.inl ⟨rfl, source, e, at_items⟩
  | @decl items r scope c before member parents placement read ih =>
    rcases concat_at (.decl c.decl) before.length_eq placed with
      ⟨placed, at_items, items', r'⟩ | ⟨rfl, at_items, items', r'⟩
    · rw [at_items, items', r']
      exact ih placed
    · rw [items', r']
      exact Or.inr ⟨read, c, member, rfl, at_items, scope, before, parents⟩

end Laid

namespace Desk

variable {running : Bool} {d d' : Desk} {item : Section} {items : List Section} {e : Entered}
  {r : Revision} {texts : List String}

theorem Added.kept {outcome : Except Failure Entered} (add : Added d running item (d', outcome)) :
    ∀ c ∈ d.cells.all, c ∈ d'.cells.all := by
  intro c hc
  cases add with
  | started => exact List.mem_append_left _ hc
  | _ => exact hc

theorem idle_of_finish {ev : Evaluator} {cells : Cells} {k : Key} {report : Report}
    (finished : d.cells.finish ev k = some (report, cells)) :
    ({ d with cells := cells } : Desk).idle = d.idle := by
  have same : cells.idle = d.cells.idle := by
    obtain ⟨c, _, found, _, _, rfl, _, all, _⟩ := Cells.of_finish finished
    obtain ⟨_, rfl⟩ := Cells.find?_mem found
    rw [← Cells.idle_evaluated d.cells c, Cells.idle, all]
    rfl
  exact congrArg (Desk.mk d.memo d.scope) same

theorem idle_of_stopAll (d : Desk) : ({ d with cells := d.cells.stopAll } : Desk).idle = d.idle := by
  have same : d.cells.stopAll.idle = d.cells.idle := by
    simp only [Cells.idle, Cells.stopAll, List.map_map]
    rfl
  exact congrArg (Desk.mk d.memo d.scope) same

theorem Woven.issue (h : d.Woven texts) : ({ d with memo := d.memo.issue } : Desk).Woven texts where
  agrees := h.agrees.issue
  declared := h.declared
  names := h.names
  parents := h.parents

theorem Added.laid (add : Added d running item (d', .ok e)) (laid : Laid d.cells items r d.scope)
    (woven : d'.Woven texts) (known : Section.ofSource item.source = item) :
    Laid d'.cells (items ++ [item]) (r ++ [e.placed]) d'.scope := by
  have before := laid.mono add.kept
  cases item with
  | broken source err =>
    obtain ⟨rfl, rfl⟩ := add.of_broken
    exact .broken before source err _
  | decl decl =>
    obtain ⟨held, scope, placement⟩ := add.of_decl
    obtain ⟨c, hc, key, same, parents⟩ := woven.agrees.cell_of_recorded held
    have read := woven.read hc
    rw [same, show (d.recipe decl).source = (Section.decl decl).source from rfl, known] at read
    cases read
    rw [scope]
    obtain ⟨⟨k, placement'⟩, report⟩ := e
    cases key
    exact .decl before hc parents placement' placement

end Desk

namespace Workshop

/-- A text as far as it has been laid out. -/
def Begun (cs : Cells) (text : Option String) (r : Revision) (rest : List Section) (scope : Scope) :
    Prop :=
  ∃ text' items, text = some text' ∧ Calc.parse text' = items ++ rest ∧ Laid cs items r scope

theorem Begun.mono {cs cs' : Cells} {text : Option String} {r : Revision} {rest : List Section}
    {scope : Scope} (h : Begun cs text r rest scope) (kept : ∀ c ∈ cs.all, c ∈ cs'.all) :
    Begun cs' text r rest scope := by
  obtain ⟨text', items, given, parsed, laid⟩ := h
  exact ⟨text', items, given, parsed, laid.mono kept⟩

/-- The texts that were begun are laid out among the cells as they were started. -/
structure Traced (texts : List String) (s : Workshop) : Prop where
  agrees : s.toDesk.Agrees
  woven : s.toDesk.idle.Woven texts
  ended : ∀ (a : Nat) (call : Call), s.ended[a]? = some call →
    ∃ rest scope, Begun s.cells.idle texts[a]? call.placed rest scope
  current : ∀ placed rest, s.call = some (placed, rest) →
    Begun s.cells.idle texts[s.ended.length]? placed rest s.scope
  next : s.texts <+: texts.drop (s.ended.length + s.call.toList.length)

namespace Traced

variable {ev : Evaluator} {texts : List String} {s t : Workshop}

theorem start (capacity : Nat) (texts : List String) : Traced texts (start capacity texts) where
  agrees := Desk.empty_agrees
  woven := Desk.empty_woven
  ended := fun _ _ found => nomatch found
  current := fun _ _ found => nomatch found
  next := List.prefix_refl _

/-- What the cells are doing does not matter, nor what the hub does. -/
theorem keep (h : s.Traced texts) (agrees : t.toDesk.Agrees) (idle : t.toDesk.idle = s.toDesk.idle)
    (ended : t.ended = s.ended) (call : t.call = s.call) (rest : t.texts <+: s.texts) :
    t.Traced texts := by
  have cells : t.cells.idle = s.cells.idle := congrArg Desk.cells idle
  have scope : t.scope = s.scope := by
    rw [show t.scope = t.toDesk.idle.scope from rfl, idle]
    rfl
  constructor
  · exact agrees
  · exact idle ▸ h.woven
  · rw [ended, cells]
    exact h.ended
  · rw [ended, call, cells, scope]
    exact h.current
  · rw [ended, call]
    exact rest.trans h.next

/-- A text is given up as far as it has been laid out. -/
theorem leave (h : s.Traced texts) (agrees : t.toDesk.Agrees) (woven : t.toDesk.idle.Woven texts)
    {placed : Revision} {rest : List Section} {failure : Option Failure}
    (call : s.call = some (placed, rest)) (cells : t.cells = s.cells) (idle : t.call = none)
    (ended : t.ended = s.ended ++ [⟨placed, failure⟩]) (texts_kept : t.texts = s.texts) :
    t.Traced texts := by
  constructor
  · exact agrees
  · exact woven
  · intro a call' found
    rw [ended] at found
    rw [cells]
    rcases getElem?_concat.1 found with old | ⟨rfl, rfl⟩
    · exact h.ended a call' old
    · exact ⟨rest, s.scope, h.current placed rest call⟩
  · intro placed' rest' found
    rw [idle] at found
    cases found
  · have next := h.next
    rw [call] at next
    rw [texts_kept, ended, idle, List.length_append]
    exact next

theorem turn (h : s.Traced texts) {text : String} {more : List String} (idle : s.call = none)
    (next : s.texts = text :: more) : Traced texts
      { s with toDesk := s.toDesk.turn, texts := more, call := some ([], Calc.parse text) } := by
  have behind := h.next
  rw [idle, next] at behind
  obtain ⟨others, split⟩ := behind
  have given : texts[s.ended.length]? = some text := by
    have first := congrArg (·[0]?) split
    simpa using first.symm
  constructor
  · exact h.agrees.turn
  · exact h.woven.turn
  · exact h.ended
  · intro placed rest found
    cases found
    exact ⟨text, [], given, rfl, .nil⟩
  · refine ⟨others, ?_⟩
    have tail := congrArg (List.drop 1) split
    simpa [List.drop_drop] using tail

theorem added (h : s.Traced texts) {placed : Revision} {item : Section} {rest : List Section}
    {d : Desk} {e : Entered} (call : s.call = some (placed, item :: rest))
    (added : s.toDesk.add s.hub.running item = (d, .ok e)) (few : d.memo.issued < UInt64.size) :
    (s.enter d placed rest e).Traced texts := by
  obtain ⟨text, items, given, parsed, laid⟩ := h.current placed _ call
  have member : item ∈ Calc.parse text := by simp [parsed]
  have resting : s.toDesk.idle.add s.hub.running item = (d.idle, .ok e) := by
    rw [Desk.add_idle, added]
  have add := Desk.Added.of_add resting
  have woven := h.woven.added (List.mem_of_getElem? given) member add few
  constructor
  · exact h.agrees.added (.of_add added) few
  · exact woven
  · intro a call' found
    obtain ⟨rest', scope, begun⟩ := h.ended a call' found
    exact ⟨rest', scope, begun.mono add.kept⟩
  · intro placed' rest' found
    cases found
    refine ⟨text, items ++ [item], given, ?_, ?_⟩
    · rw [parsed, List.append_assoc, List.singleton_append]
    · exact add.laid laid woven (Calc.ofSource_of_parse member)
  · have next := h.next
    rw [call] at next
    exact next

theorem stepped (h : s.Traced texts) {m : Move} (step : Stepped ev s m t)
    (few : t.memo.issued < UInt64.size) : t.Traced texts := by
  have agrees := step.agrees few h.agrees
  cases step with
  | turn text more idle next => exact h.turn idle next
  | add placed item rest d e call added => exact h.added call added few
  | fail placed item rest d f call added =>
    obtain ⟨rfl, _, rfl⟩ := h.agrees.failure (.of_add added)
    exact h.leave agrees h.woven.issue call rfl rfl rfl rfl
  | close placed call => exact h.leave agrees h.woven call rfl rfl rfl rfl
  | lose placed call => exact h.leave agrees h.woven call rfl rfl rfl rfl
  | finish key report cells heard finished =>
    exact h.keep agrees (Desk.idle_of_finish finished) rfl rfl (List.prefix_refl _)
  | waste key report cells deaf finished =>
    exact h.keep agrees (Desk.idle_of_finish finished) rfl rfl (List.prefix_refl _)
  | receive => exact h.keep agrees rfl rfl rfl (List.prefix_refl _)

theorem handled (h : s.Traced texts) {e : Event} (step : s.handle ev e = some t)
    (few : t.memo.issued < UInt64.size) : t.Traced texts := by
  have agrees := agrees_of_handle step few h.agrees
  cases e with
  | move m => exact h.stepped (Workshop.stepped step) few
  | halt =>
    cases step
    exact h.keep agrees rfl rfl rfl (List.prefix_refl _)
  | shutdown =>
    simp only [handle] at step
    split at step
    · cases step
      exact h.keep agrees (Desk.idle_of_stopAll _) rfl rfl List.nil_prefix
    · cases step

end Traced

theorem traced_of_run {ev : Evaluator} {capacity : Nat} {texts : List String} {events : List Event}
    {s : Workshop} (run : (start capacity texts).run ev events = some s)
    (few : s.memo.issued < UInt64.size) : s.Traced texts :=
  run_induction (fun _ _ _ traced handled few => traced.handled handled few) run few
    (.start capacity texts)

end Workshop

end Worksheet
