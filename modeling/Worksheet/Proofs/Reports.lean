import Worksheet.Sheet.Hub
/-! The merge of many reports, read key by key. What is known about a key depends only on the
entries for this key, in their order, and the order of keys is the last one that was reported. -/
namespace Worksheet

theorem SortedMap.get?_insert_empty {K V : Type} [LT K] [DecidableLT K] [DecidableEq K]
    [StrictOrder K] (k j : K) (v : V) :
    ((∅ : SortedMap K V).insert k v).get? j = if j = k then some v else none := by
  rw [get?_insert, get?_empty]

namespace Report

theorem ext_get? {r s : Report} (order : r.order = s.order)
    (entries : ∀ k, r.entries.get? k = s.entries.get? k) : r = s := by
  obtain ⟨o, m⟩ := r
  obtain ⟨p, n⟩ := s
  cases order
  exact congrArg (mk o) (SortedMap.ext_get? entries)

def put (held : Option Entry) (e : Entry) : Option Entry := some (held.elim e (·.merge e))

def entriesOf (k : Key) (rs : List Report) : List Entry := rs.filterMap (·.entries.get? k)

def orders (rs : List Report) : List (List Key) := rs.filterMap order

@[simp] theorem entriesOf_append (k : Key) (rs ss : List Report) :
    entriesOf k (rs ++ ss) = entriesOf k rs ++ entriesOf k ss := List.filterMap_append

@[simp] theorem orders_append (rs ss : List Report) : orders (rs ++ ss) = orders rs ++ orders ss :=
  List.filterMap_append

theorem entriesOf_ofEntry (j k : Key) (e : Entry) :
    entriesOf j [ofEntry k e] = if j = k then [e] else [] := by
  simp only [entriesOf, List.filterMap_cons, List.filterMap_nil, ofEntry,
    SortedMap.get?_insert_empty]
  by_cases h : j = k
  · simp [h]
  · simp [h]

@[simp] theorem entriesOf_ofOrder (j : Key) (keys : List Key) : entriesOf j [ofOrder keys] = [] :=
  rfl

theorem get?_merge (state update : Report) (k : Key) :
    (state.merge update).entries.get? k =
      (entriesOf k [update]).foldl put (state.entries.get? k) := by
  simp only [merge, SortedMap.get?_mergeWith, entriesOf, List.filterMap_cons, List.filterMap_nil]
  cases update.entries.get? k with
  | none => rfl
  | some e => rfl

theorem get?_mergeAll (state : Report) (updates : List Report) (k : Key) :
    (state.mergeAll updates).entries.get? k =
      (entriesOf k updates).foldl put (state.entries.get? k) := by
  induction updates generalizing state with
  | nil => rfl
  | cons update more ih =>
    have here : entriesOf k (update :: more) = entriesOf k [update] ++ entriesOf k more :=
      entriesOf_append k [update] more
    rw [here, List.foldl_append, ← get?_merge, ← ih]
    rfl

theorem order_mergeAll (state : Report) (updates : List Report) :
    (state.mergeAll updates).order = (orders updates).getLast?.or state.order := by
  induction updates generalizing state with
  | nil => rfl
  | cons update more ih =>
    have here : orders (update :: more) = orders [update] ++ orders more :=
      orders_append [update] more
    have first : (state.merge update).order = (orders [update]).getLast?.or state.order := by
      simp only [merge, orders, List.filterMap_cons, List.filterMap_nil]
      cases update.order with
      | none => rfl
      | some keys => rfl
    rw [here, List.getLast?_append, Option.or_assoc, ← first, ← ih]
    rfl

theorem mergeAll_append (state : Report) (rs ss : List Report) :
    state.mergeAll (rs ++ ss) = (state.mergeAll rs).mergeAll ss := List.foldl_append

theorem mergeAll_cons (state r : Report) (rs : List Report) :
    state.mergeAll (r :: rs) = (state.merge r).mergeAll rs := rfl

theorem empty_merge (r : Report) : empty.merge r = r := by
  apply ext_get?
  · exact Option.or_none
  · intro k
    rw [get?_merge, entriesOf, List.filterMap_cons]
    cases r.entries.get? k with
    | none => rfl
    | some e => rfl

/-- Merging depends only on the orders and on the entries for each key. -/
theorem mergeAll_congr {state state' : Report} {rs ss : List Report} (same : state = state')
    (order : orders rs = orders ss) (entries : ∀ k, entriesOf k rs = entriesOf k ss) :
    state.mergeAll rs = state'.mergeAll ss := by
  cases same
  refine ext_get? ?_ fun k => ?_
  · rw [order_mergeAll, order_mergeAll, order]
  · rw [get?_mergeAll, get?_mergeAll, entries k]

/-- The reports that an evaluation has not sent. -/
def told (rs : List Report) : List Report := rs.filter (·.finishedKey?.isNone)

theorem told_append (rs ss : List Report) : told (rs ++ ss) = told rs ++ told ss :=
  List.filter_append ..

@[simp] theorem told_ofOrder (keys : List Key) : told [ofOrder keys] = [ofOrder keys] := rfl

/-- An evaluation never sends an order. -/
theorem orders_told (rs : List Report) : orders (told rs) = orders rs := by
  induction rs with
  | nil => rfl
  | cons r rs ih =>
    have split : told (r :: rs) = told [r] ++ told rs := told_append [r] rs
    have split' : orders (r :: rs) = orders [r] ++ orders rs := orders_append [r] rs
    rw [split, split', orders_append, ih]
    refine congrArg (· ++ orders rs) ?_
    cases h : r.finishedKey? with
    | none => simp [told, h]
    | some k =>
      have none_order : r.order = none := by
        simp only [finishedKey?] at h
        split at h
        · assumption
        · cases h
      simp [told, h, orders, none_order]

/-- The reports that tell something about a key. -/
def about (k : Key) (rs : List Report) : List Report := rs.filter fun r => (r.entries.get? k).isSome

@[simp] theorem about_append (k : Key) (rs ss : List Report) :
    about k (rs ++ ss) = about k rs ++ about k ss := List.filter_append ..

theorem about_ofEntry (j k : Key) (e : Entry) :
    about j [ofEntry k e] = if j = k then [ofEntry k e] else [] := by
  simp only [about, ofEntry, List.filter_cons, SortedMap.get?_insert_empty, List.filter_nil]
  by_cases h : j = k
  · simp [h]
  · simp [h]

theorem about_here (k : Key) (e : Entry) (rs : List Report) :
    about k (rs ++ [ofEntry k e]) = about k rs ++ [ofEntry k e] := by
  rw [about_append, about_ofEntry, if_pos rfl]

theorem about_other {j k : Key} {e : Entry} {rs : List Report} (other : j ≠ k) :
    about j (rs ++ [ofEntry k e]) = about j rs := by
  rw [about_append, about_ofEntry, if_neg other, List.append_nil]

theorem eq_of_about {j k : Key} {e : Entry} (told : about j [ofEntry k e] ≠ []) : j = k := by
  refine Decidable.byContradiction fun other => ?_
  rw [about_ofEntry, if_neg other] at told
  exact told rfl

theorem about_last (k : Key) (e : Entry) (rs : List Report) :
    about k (rs ++ [ofEntry k e]) ≠ [] := by
  rw [about_here]
  exact List.append_ne_nil_of_right_ne_nil _ (List.cons_ne_nil _ _)

theorem about_stays {k : Key} {rs : List Report} (told : about k rs ≠ []) (ss : List Report) :
    about k (rs ++ ss) ≠ [] := by
  rw [about_append]
  exact List.append_ne_nil_of_left_ne_nil told _

@[simp] theorem about_ofOrder (k : Key) (keys : List Key) : about k [ofOrder keys] = [] := rfl

theorem entriesOf_about (k : Key) (rs : List Report) : entriesOf k rs = entriesOf k (about k rs) := by
  simp only [entriesOf, about, List.filterMap_filter]
  refine congrArg (List.filterMap · rs) (funext fun r => ?_)
  cases r.entries.get? k with
  | none => rfl
  | some e => rfl

theorem entriesOf_first (k : Key) {rs sent : List Report} (first : rs <+: sent) :
    entriesOf k rs <+: entriesOf k (about k sent) := by
  rw [← entriesOf_about]
  exact first.filterMap _

end Report

end Worksheet
