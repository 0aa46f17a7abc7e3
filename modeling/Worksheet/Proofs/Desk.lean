import Worksheet.Sheet.Desk
/-! What taking in one item does to a desk, and the agreement of its memo, its cells and its scope.
The agreement speaks of rows: what a recorded instance and a cell have in common. -/
namespace Worksheet

open Calc (Decl Section)

namespace Key

def number (k : Key) : Nat := k.val.toNat

theorem lt_iff {j k : Key} : j < k ↔ j.number < k.number := UInt64.lt_iff_toNat_lt

end Key

theorem Memo.nextKey_number {m : Memo} (few : m.issued < UInt64.size) : m.nextKey.number = m.issued :=
  UInt64.toNat_ofNat_of_lt few

structure Row where
  key : Key
  source : String
  parents : List Key

def Cell.row (c : Cell) : Row := ⟨c.key, c.decl.source, c.parents⟩

def Memo.rows (m : Memo) : List Row := m.entries.map fun e => ⟨e.2, e.1.source, e.1.parents.toList⟩

namespace Cells

def rows (cs : Cells) : List Row := cs.all.map Cell.row

def keys (cs : Cells) : List Key := cs.all.map Cell.key

theorem keys_eq_rows (cs : Cells) : cs.keys = cs.rows.map Row.key := by
  simp only [keys, rows, List.map_map]
  rfl

theorem keys_of_rows {cs cs' : Cells} (same : cs'.rows = cs.rows) : cs'.keys = cs.keys := by
  rw [keys_eq_rows, same, ← keys_eq_rows]

theorem find?_isSome_iff {cs : Cells} {k : Key} : (cs.find? k).isSome ↔ k ∈ cs.keys := by
  simp [find?, keys]

theorem find?_eq_none_iff {cs : Cells} {k : Key} : cs.find? k = none ↔ k ∉ cs.keys := by
  rw [← find?_isSome_iff, Option.not_isSome_iff_eq_none]

theorem find?_mem {cs : Cells} {k : Key} {c : Cell} (h : cs.find? k = some c) :
    c ∈ cs.all ∧ c.key = k :=
  ⟨List.mem_of_find?_eq_some h, by simpa using List.find?_some h⟩

theorem find?_of_mem {cs : Cells} (ascending : cs.keys.Pairwise (· < ·)) {c : Cell}
    (h : c ∈ cs.all) : cs.find? c.key = some c := by
  obtain ⟨all, calls⟩ := cs
  simp only [keys, find?] at *
  induction all with
  | nil => cases h
  | cons a all ih =>
    obtain ⟨above, ascending⟩ := List.pairwise_cons.1 ascending
    rcases List.mem_cons.1 h with rfl | h
    · simp
    · have differ : a.key ≠ c.key := StrictOrder.ne_of_lt (above c.key (List.mem_map_of_mem h))
      rw [List.find?_cons_of_neg (by simpa using differ)]
      exact ih ascending h

theorem rows_start (cs : Cells) (k : Key) (d : Decl) (parents : List Key) :
    (cs.start k d parents).rows = cs.rows ++ [⟨k, d.source, parents⟩] := by
  simp [start, rows, Cell.row]

theorem keys_start (cs : Cells) (k : Key) (d : Decl) (parents : List Key) :
    (cs.start k d parents).keys = cs.keys ++ [k] := by
  simp [start, keys]

theorem rows_setPhase (cs : Cells) (k : Key) (p : Phase) : (cs.setPhase k p).rows = cs.rows := by
  simp only [setPhase, rows, List.map_map]
  apply List.map_congr_left
  intro c _
  simp only [Function.comp]
  split <;> rfl

theorem of_finish {ev : Evaluator} {cs later : Cells} {k : Key} {r : Report}
    (h : cs.finish ev k = some (r, later)) :
    ∃ c outcome, cs.find? k = some c ∧ c.isWaiting = true ∧ cs.ready c = true ∧
      outcome = ev.evaluate c.decl (cs.input ev.fallback c.parents) ∧
      r = .finished k outcome.status outcome.output ∧
      later.all = (cs.setPhase k (.serving (outcome.served ev.fallback))).all ∧
      later.calls = cs.calls ++ [k] := by
  simp only [finish, Option.bind_eq_bind, Option.bind_eq_some_iff] at h
  obtain ⟨c, found, h⟩ := h
  split at h
  · rename_i able
    obtain ⟨waits, ready⟩ := Bool.and_eq_true_iff.1 able
    cases Option.some.inj h
    exact ⟨c, _, found, waits, ready, rfl, rfl, rfl, rfl⟩
  · cases h

theorem rows_of_finish {ev : Evaluator} {cs later : Cells} {k : Key} {r : Report}
    (h : cs.finish ev k = some (r, later)) : later.rows = cs.rows := by
  obtain ⟨c, outcome, _, _, _, _, _, all, _⟩ := of_finish h
  rw [rows, all]
  exact rows_setPhase cs k _

theorem rows_stopAll (cs : Cells) : cs.stopAll.rows = cs.rows := by
  simp only [stopAll, rows, List.map_map]
  rfl

/-- Keys ascend, and every parent is an earlier cell. -/
structure Ordered (cs : Cells) : Prop where
  ascending : cs.keys.Pairwise (· < ·)
  parents : ∀ r ∈ cs.rows, ∀ p ∈ r.parents, p < r.key ∧ p ∈ cs.keys

/-- Only the rows matter, not what the cells are doing. -/
theorem Ordered.of_rows {cs cs' : Cells} (h : cs.Ordered) (same : cs'.rows = cs.rows) :
    cs'.Ordered := by
  have keys := keys_of_rows same
  constructor
  · exact keys ▸ h.ascending
  · simp only [same, keys]
    exact h.parents

theorem Ordered.parent {cs : Cells} (h : cs.Ordered) {c : Cell} (hc : c ∈ cs.all) {p : Key}
    (parent : p ∈ c.parents) : p < c.key ∧ p ∈ cs.keys :=
  h.parents c.row (List.mem_map_of_mem hc) p parent

theorem Ordered.eq_of_key {cs : Cells} (h : cs.Ordered) {c d : Cell} (hc : c ∈ cs.all)
    (hd : d ∈ cs.all) (same : c.key = d.key) : c = d := by
  have found := find?_of_mem h.ascending hc
  rw [same, find?_of_mem h.ascending hd] at found
  exact (Option.some.inj found).symm

end Cells

theorem Scope.get?_bind (s : Scope) (name : Option String) (k : Key) (x : String) :
    (Scope.bind s name k).get? x = if name = some x then some k else s.get? x := by
  cases name with
  | none => rfl
  | some y =>
    simp only [Scope.bind, SortedMap.get?_insert, Option.some.injEq]
    by_cases h : x = y
    · simp [h]
    · simp [h, Ne.symm h]

theorem Scope.mem_resolve {s : Scope} {names : List String} {k : Key} :
    k ∈ Scope.resolve s names ↔ ∃ x ∈ names, s.get? x = some k := by
  rw [Scope.resolve, KeySet.mem_ofList, List.mem_filterMap]

theorem Memo.mem_of_lookup {m : Memo} {r : Recipe} {k : Key} (h : m.lookup r = some k) :
    (r, k) ∈ m.entries := by
  obtain ⟨e, he, rfl⟩ := Option.map_eq_some_iff.1 h
  have hr : e.1 = r := by simpa using List.find?_some he
  rw [← hr]
  exact List.mem_of_find?_eq_some he

theorem Memo.key_mem_rows {m : Memo} {r : Recipe} {k : Key} (h : (r, k) ∈ m.entries) :
    k ∈ m.rows.map Row.key := by
  simp only [rows, List.map_map, List.mem_map]
  exact ⟨(r, k), h, rfl⟩

namespace Desk

/-- All that can become of an item. -/
inductive Added (d : Desk) (running : Bool) : Section → Desk × Except Failure Entered → Prop
  | broken (source : String) (e : Calc.ParseError) (open_ : running = true) :
      Added d running (.broken source e) ({ d with memo := d.memo.issue },
        .ok ⟨⟨d.memo.nextKey, .broken⟩, some (.rejected d.memo.nextKey source e.message)⟩)
  | reused (decl : Decl) (key : Key) (held : d.memo.lookup (d.recipe decl) = some key) :
      Added d running (.decl decl) ({ d with scope := Scope.bind d.scope decl.bound key },
        .ok ⟨⟨key, .reused⟩, none⟩)
  | started (decl : Decl) (new : d.memo.lookup (d.recipe decl) = none)
      (parents : ∀ p ∈ (d.recipe decl).parents, (d.cells.find? p).isSome)
      (open_ : running = true) :
      Added d running (.decl decl)
        ({ memo := ⟨d.memo.issued + 1, d.memo.entries ++ [(d.recipe decl, d.memo.nextKey)]⟩
           scope := Scope.bind d.scope decl.bound d.memo.nextKey
           cells := d.cells.start d.memo.nextKey decl (d.recipe decl).parents.toList },
        .ok ⟨⟨d.memo.nextKey, .started⟩, some (.announced d.memo.nextKey decl.source)⟩)
  | lost (item : Section) (closed : running = false) :
      Added d running item ({ d with memo := d.memo.issue }, .error .hubClosed)
  | orphan (decl : Decl) (p : Key) (parent : p ∈ (d.recipe decl).parents)
      (missing : d.cells.find? p = none) :
      Added d running (.decl decl) (d, .error (.unknownParent p))

theorem add_added (d : Desk) (running : Bool) (item : Section) :
    Added d running item (d.add running item) := by
  cases item with
  | broken source e =>
    cases running with
    | true => exact .broken source e rfl
    | false => exact .lost _ rfl
  | decl decl =>
    simp only [add, addDecl]
    cases held : d.memo.lookup (d.recipe decl) with
    | some key => exact .reused decl key held
    | none =>
      simp only [addNew]
      split
      · rename_i p hp
        have parent : p ∈ (d.recipe decl).parents := List.mem_of_find?_eq_some hp
        have missing := List.find?_some hp
        exact .orphan decl p parent (Option.isNone_iff_eq_none.1 missing)
      · rename_i hp
        cases running with
        | false => exact .lost _ rfl
        | true =>
          have parents : ∀ p ∈ (d.recipe decl).parents, (d.cells.find? p).isSome := by
            intro p parent
            have := List.find?_eq_none.1 hp p parent
            simpa [Option.isSome_iff_ne_none] using this
          have same : d.memo.issue.lookup (d.recipe decl) = none := held
          have insert := Memo.insert_of_new same d.memo.nextKey
          simp only [recipe] at insert ⊢
          simp only [insert, if_true]
          exact .started decl held parents rfl

theorem Added.of_add {d d' : Desk} {running : Bool} {item : Section}
    {outcome : Except Failure Entered} (h : d.add running item = (d', outcome)) :
    Added d running item (d', outcome) :=
  h ▸ d.add_added running item

theorem Added.of_broken {d d' : Desk} {running : Bool} {source : String} {e : Calc.ParseError}
    {entered : Entered} (add : Added d running (.broken source e) (d', .ok entered)) :
    d' = { d with memo := d.memo.issue } ∧ entered = ⟨⟨d.memo.nextKey, .broken⟩,
      some (.rejected d.memo.nextKey source e.message)⟩ := by
  cases add with
  | broken => exact ⟨rfl, rfl⟩

/-- The instance of a declaration is on record, under the key that its name stands for. -/
theorem Added.of_decl {d d' : Desk} {running : Bool} {decl : Decl} {e : Entered}
    (add : Added d running (.decl decl) (d', .ok e)) :
    (d.recipe decl, e.placed.key) ∈ d'.memo.entries ∧
      d'.scope = Scope.bind d.scope decl.bound e.placed.key ∧ e.placed.placement ≠ .broken := by
  cases add with
  | reused _ key held => exact ⟨Memo.mem_of_lookup held, rfl, Placement.noConfusion⟩
  | started =>
    exact ⟨List.mem_append_right _ (List.mem_singleton.2 rfl), rfl, Placement.noConfusion⟩

theorem Added.issued {d d' : Desk} {running : Bool} {item : Section}
    {outcome : Except Failure Entered} (add : Added d running item (d', outcome)) :
    d'.memo.issued = d.memo.issued ∨ d'.memo.issued = d.memo.issued + 1 := by
  cases add with
  | reused => exact Or.inl rfl
  | orphan => exact Or.inl rfl
  | broken => exact Or.inr rfl
  | started => exact Or.inr rfl
  | lost => exact Or.inr rfl

structure Agrees (d : Desk) : Prop where
  recorded : d.memo.rows = d.cells.rows
  ordered : d.cells.Ordered
  issued : ∀ k ∈ d.cells.keys, k.number < d.memo.issued
  scope : ∀ x k, d.scope.get? x = some k → k ∈ d.cells.keys

theorem empty_agrees : empty.Agrees where
  recorded := rfl
  ordered := ⟨.nil, by simp [empty, Cells.empty, Cells.rows]⟩
  issued := by simp [empty, Cells.empty, Cells.keys]
  scope := by simp [empty]

namespace Agrees

variable {d : Desk}

theorem turn (h : d.Agrees) : d.turn.Agrees where
  recorded := h.recorded
  ordered := h.ordered
  issued := h.issued
  scope := by simp [Desk.turn]

theorem withCells (h : d.Agrees) {cs : Cells} (same : cs.rows = d.cells.rows) :
    ({ d with cells := cs } : Desk).Agrees := by
  have keys : cs.keys = d.cells.keys := by simp only [Cells.keys_eq_rows, same]
  constructor
  · exact h.recorded.trans same.symm
  · exact h.ordered.of_rows same
  · exact keys ▸ h.issued
  · simp only [keys]
    exact h.scope

theorem recorded_key (h : d.Agrees) {r : Recipe} {k : Key} (held : (r, k) ∈ d.memo.entries) :
    k ∈ d.cells.keys := by
  rw [Cells.keys_eq_rows, ← h.recorded]
  exact Memo.key_mem_rows held

theorem row_of_recorded (h : d.Agrees) {r : Recipe} {k : Key} (held : (r, k) ∈ d.memo.entries) :
    (⟨k, r.source, r.parents.toList⟩ : Row) ∈ d.cells.rows := by
  rw [← h.recorded]
  exact List.mem_map_of_mem (f := fun e : Recipe × Key => Row.mk e.2 e.1.source e.1.parents.toList)
    held

theorem cell_of_recorded (h : d.Agrees) {r : Recipe} {k : Key} (held : (r, k) ∈ d.memo.entries) :
    ∃ c ∈ d.cells.all, c.key = k ∧ c.decl.source = r.source ∧ c.parents = r.parents.toList := by
  obtain ⟨c, hc, same⟩ := List.mem_map.1 (h.row_of_recorded held)
  exact ⟨c, hc, Row.mk.inj same⟩

theorem parent_key (h : d.Agrees) {decl : Decl} {p : Key} (parent : p ∈ (d.recipe decl).parents) :
    p ∈ d.cells.keys := by
  obtain ⟨x, _, hx⟩ := Scope.mem_resolve.1 parent
  exact h.scope x p hx

theorem bind (h : d.Agrees) (name : Option String) {k : Key} (known : k ∈ d.cells.keys) :
    ({ d with scope := Scope.bind d.scope name k } : Desk).Agrees where
  recorded := h.recorded
  ordered := h.ordered
  issued := h.issued
  scope := by
    intro x j hx
    rw [Scope.get?_bind] at hx
    split at hx
    · cases hx; exact known
    · exact h.scope x j hx

theorem issue (h : d.Agrees) : ({ d with memo := d.memo.issue } : Desk).Agrees where
  recorded := h.recorded
  ordered := h.ordered
  issued := fun k hk => Nat.lt_succ_of_lt (h.issued k hk)
  scope := h.scope

theorem below_nextKey (h : d.Agrees) (few : d.memo.issued < UInt64.size) {k : Key}
    (known : k ∈ d.cells.keys) : k < d.memo.nextKey := by
  rw [Key.lt_iff, Memo.nextKey_number few]
  exact h.issued k known

theorem start (h : d.Agrees) (few : d.memo.issued < UInt64.size) (decl : Decl) :
    ({ memo := ⟨d.memo.issued + 1, d.memo.entries ++ [(d.recipe decl, d.memo.nextKey)]⟩
       scope := d.scope
       cells := d.cells.start d.memo.nextKey decl (d.recipe decl).parents.toList } : Desk).Agrees := by
  refine ⟨?_, ⟨?_, ?_⟩, ?_, ?_⟩
  · have old := h.recorded
    simp only [Memo.rows] at old
    simp only [Memo.rows, List.map_append, old, Cells.rows_start]
    rfl
  · rw [Cells.keys_start]
    refine List.pairwise_append.2 ⟨h.ordered.ascending, List.pairwise_singleton _ _, ?_⟩
    intro k hk j hj
    cases List.mem_singleton.1 hj
    exact h.below_nextKey few hk
  · intro r hr p hp
    rw [Cells.keys_start]
    rw [Cells.rows_start] at hr
    rcases List.mem_append.1 hr with hr | hr
    · have old := h.ordered.parents r hr p hp
      exact ⟨old.1, List.mem_append_left _ old.2⟩
    · cases List.mem_singleton.1 hr
      have known := h.parent_key hp
      exact ⟨h.below_nextKey few known, List.mem_append_left _ known⟩
  · intro k hk
    rw [Cells.keys_start] at hk
    rcases List.mem_append.1 hk with hk | hk
    · exact Nat.lt_succ_of_lt (h.issued k hk)
    · cases List.mem_singleton.1 hk
      rw [Memo.nextKey_number few]
      exact Nat.lt_succ_self _
  · intro x k hx
    rw [Cells.keys_start]
    exact List.mem_append_left _ (h.scope x k hx)

/-- Taking in an item keeps the agreement, whether the item fails or not. -/
theorem added (h : d.Agrees) {running : Bool} {item : Section} {d' : Desk}
    {outcome : Except Failure Entered} (add : Added d running item (d', outcome))
    (few : d'.memo.issued < UInt64.size) : d'.Agrees := by
  cases add with
  | broken source e => exact h.issue
  | reused decl key held => exact h.bind _ (h.recorded_key (Memo.mem_of_lookup held))
  | started decl new parents =>
    have few : d.memo.issued < UInt64.size := Nat.lt_of_succ_lt few
    refine (h.start few decl).bind decl.bound ?_
    rw [Cells.keys_start]
    exact List.mem_append_right _ (List.mem_singleton.2 rfl)
  | lost => exact h.issue
  | orphan => exact h

/-- No parent is ever without a cell, so the only failure is that of the hub. -/
theorem failure (h : d.Agrees) {running : Bool} {item : Section} {d' : Desk} {f : Failure}
    (add : Added d running item (d', .error f)) :
    f = .hubClosed ∧ running = false ∧ d' = { d with memo := d.memo.issue } := by
  cases add with
  | lost _ closed => exact ⟨rfl, closed, rfl⟩
  | orphan decl p parent missing =>
    exact absurd (h.parent_key parent) (Cells.find?_eq_none_iff.1 missing)

end Agrees

end Desk

end Worksheet
