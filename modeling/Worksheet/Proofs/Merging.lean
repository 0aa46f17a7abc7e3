import Mathlib.Algebra.BigOperators.Group.List.Basic
import Mathlib.Data.Fin.VecNotation
import Mathlib.Data.List.FinRange
import Mathlib.Data.List.Sort
import Worksheet.Proofs.Reports
import Worksheet.Report.Listing
import Worksheet.Report.Wire
/-! What becomes of reports that are merged. Main statements: they may be merged in batches, those that
tell of different things may change places, and nothing that is known is lost. -/
namespace Worksheet

theorem SortedMap.mergeWith_assoc {K V : Type} [LT K] [DecidableLT K] [DecidableEq K]
    [StrictOrder K] {combine : V → V → V}
    (assoc : ∀ u v w, combine (combine u v) w = combine u (combine v w)) (l m n : SortedMap K V) :
    (l.mergeWith combine m).mergeWith combine n = l.mergeWith combine (m.mergeWith combine n) := by
  refine ext_get? fun k => ?_
  simp only [get?_mergeWith]
  cases n.get? k with
  | none => rfl
  | some w =>
    cases m.get? k with
    | none => rfl
    | some v =>
      cases l.get? k with
      | none => rfl
      | some u => exact congrArg some (assoc u v w)

theorem SortedMap.get?_isSome {K V : Type} [LT K] [DecidableEq K] {m : SortedMap K V} {k : K} :
    (m.get? k).isSome ↔ k ∈ m.toList.map Prod.fst := findSorted?_isSome

theorem Entry.merge_assoc (d e f : Entry) : (d.merge e).merge f = d.merge (e.merge f) := by
  simp only [merge, Option.or_assoc, String.append_assoc]

namespace Report

variable {rs ss : List Report}

/-! ## Batches -/

theorem merge_assoc (r s t : Report) : (r.merge s).merge t = r.merge (s.merge t) := by
  simp only [merge, Option.or_assoc, SortedMap.mergeWith_assoc Entry.merge_assoc]

theorem merge_empty (r : Report) : r.merge empty = r := rfl

instance : Monoid Report where
  mul := merge
  mul_assoc := merge_assoc
  one := empty
  one_mul := empty_merge
  mul_one := merge_empty

theorem mergeAll_eq_prod (state : Report) (rs : List Report) :
    state.mergeAll rs = state * rs.prod := by
  induction rs generalizing state with
  | nil => exact (mul_one state).symm
  | cons r rs ih =>
    rw [mergeAll_cons, ih, List.prod_cons, ← mul_assoc]
    rfl

theorem empty_mergeAll (rs : List Report) : empty.mergeAll rs = rs.prod :=
  (mergeAll_eq_prod _ _).trans (one_mul _)

/-- Reports are a monoid. So a part of many reports may be merged first, as the snapshot that stands
for those before a cut or as batches of any sizes. -/
theorem merged_in_batches :
    (∀ r s t : Report, (r.merge s).merge t = r.merge (s.merge t)) ∧
    (∀ r : Report, empty.merge r = r ∧ r.merge empty = r) ∧
    (∀ (state : Report) (updates : List Report) (cut : Nat),
      state.mergeAll (empty.mergeAll (updates.take cut) :: updates.drop cut) =
        state.mergeAll updates) ∧
    (∀ (state : Report) (batches : List (List Report)),
      state.mergeAll (batches.map empty.mergeAll) = state.mergeAll batches.flatten) := by
  refine ⟨merge_assoc, fun r => ⟨empty_merge r, merge_empty r⟩, fun state updates cut => ?_,
    fun state batches => ?_⟩
  · calc state.mergeAll (empty.mergeAll (updates.take cut) :: updates.drop cut)
      _ = state * ((updates.take cut).prod * (updates.drop cut).prod) := by
        rw [mergeAll_eq_prod, List.prod_cons, empty_mergeAll]
      _ = state.mergeAll updates := by
        rw [← List.prod_append, List.take_append_drop, mergeAll_eq_prod]
  · calc state.mergeAll (batches.map empty.mergeAll)
      _ = state * (batches.map List.prod).prod := by
        rw [mergeAll_eq_prod, List.map_congr_left fun rs _ => empty_mergeAll rs]
      _ = state.mergeAll batches.flatten := by rw [← List.prod_flatten, mergeAll_eq_prod]

/-! ## Order -/

section Places

variable {α β : Type} {xs ys : List α} {f : α → Option β}

/-- The places of a list at which a function has a value. -/
def places (f : α → Option β) (xs : List α) : List (Fin xs.length) :=
  (List.finRange xs.length).filter fun i => (f xs[i]).isSome

theorem mem_places {i : Fin xs.length} : i ∈ places f xs ↔ (f xs[i]).isSome := by
  simp [places]

theorem places_ascend (f : α → Option β) (xs : List α) : (places f xs).Pairwise (· < ·) :=
  (List.pairwise_lt_finRange _).filter _

theorem filterMap_places (f : α → Option β) (xs : List α) :
    xs.filterMap f = (places f xs).filterMap fun i => f xs[i] := by
  have whole : (List.finRange xs.length).map xs.get = xs := List.map_get_finRange xs
  calc xs.filterMap f
    _ = ((List.finRange xs.length).map xs.get).filterMap f := by rw [whole]
    _ = (List.finRange xs.length).filterMap fun i => f xs[i] := List.filterMap_map ..
    _ = (places f xs).filterMap fun i => f xs[i] := by
      rw [places, List.filterMap_filter]
      refine List.filterMap_congr fun i _ => ?_
      cases f xs[i] with
      | none => rfl
      | some y => rfl

/-- A function has the same values in the same order on two lists with the same members, if the
places at which it has a value are not exchanged. -/
theorem filterMap_moved (place : Fin xs.length ≃ Fin ys.length) (same : ∀ i, ys[place i] = xs[i])
    (keeps : ∀ i j, i < j → (f xs[i]).isSome → (f xs[j]).isSome → place i < place j) :
    xs.filterMap f = ys.filterMap f := by
  have ascend : ((places f xs).map place).Pairwise (· < ·) := by
    refine List.pairwise_map.2 ((places_ascend f xs).imp_of_mem fun {i j} here there less => ?_)
    exact keeps i j less (mem_places.1 here) (mem_places.1 there)
  -- Both ascend and have the same members.
  have moved : (places f xs).map place = places f ys := by
    refine ascend.eq_of_mem_iff (places_ascend f ys) fun j => ?_
    obtain ⟨i, rfl⟩ := place.surjective j
    rw [List.mem_map_of_injective place.injective, mem_places, mem_places, same]
  rw [filterMap_places f xs, filterMap_places f ys, ← moved, List.filterMap_map]
  refine List.filterMap_congr fun i _ => ?_
  rw [Function.comp_apply, same]

end Places

/-- Reports that may not change places: both tell of one key, or both set the order. -/
def Tied (r s : Report) : Prop :=
  (∃ k, (r.entries.get? k).isSome ∧ (s.entries.get? k).isSome) ∨ (r.order.isSome ∧ s.order.isSome)

instance (r s : Report) : Decidable (Tied r s) :=
  decidable_of_iff ((∃ k ∈ r.entries.toList.map Prod.fst, k ∈ s.entries.toList.map Prod.fst) ∨
    (r.order.isSome ∧ s.order.isSome)) <| by
    simp only [Tied, SortedMap.get?_isSome]

/-- A permutation that leaves the order of reports that may not change places. -/
structure Rearrangement (rs ss : List Report) where
  place : Fin rs.length ≃ Fin ss.length
  same : ∀ i, ss[place i] = rs[i]
  keeps : ∀ i j, i < j → Tied rs[i] rs[j] → place i < place j

namespace Rearrangement

theorem orders (moved : Rearrangement rs ss) : Report.orders rs = Report.orders ss :=
  filterMap_moved moved.place moved.same fun i j less here there =>
    moved.keeps i j less (Or.inr ⟨here, there⟩)

theorem entriesOf (moved : Rearrangement rs ss) (k : Key) :
    Report.entriesOf k rs = Report.entriesOf k ss :=
  filterMap_moved moved.place moved.same fun i j less here there =>
    moved.keeps i j less (Or.inl ⟨k, here, there⟩)

end Rearrangement

/-- The order of reports only matters where two of them tell of one key or set the order. -/
theorem merged_in_any_order (moved : Rearrangement rs ss) (state : Report) :
    state.mergeAll rs = state.mergeAll ss ∧
      (state.mergeAll rs).settled = (state.mergeAll ss).settled ∧
      (state.mergeAll rs).listing = (state.mergeAll ss).listing ∧
      (state.mergeAll rs).encode = (state.mergeAll ss).encode := by
  have same := mergeAll_congr (rfl : state = state) moved.orders moved.entriesOf
  exact ⟨same, by rw [same], by rw [same], by rw [same]⟩

theorem merged_in_any_order_when_interleaved : ∃ rs ss : List Report,
    rs = [announced ⟨0⟩ "a", finished ⟨0⟩ .complete "1", announced ⟨1⟩ "b", ofOrder [⟨0⟩, ⟨1⟩]] ∧
    ss = [ofOrder [⟨0⟩, ⟨1⟩], announced ⟨1⟩ "b", announced ⟨0⟩ "a", finished ⟨0⟩ .complete "1"] ∧
    Nonempty (Rearrangement rs ss) ∧
    (ofOrder [⟨1⟩]).mergeAll rs = (ofOrder [⟨1⟩]).mergeAll ss := by
  let place : Fin 4 ≃ Fin 4 :=
    ⟨![2, 3, 1, 0], ![3, 2, 0, 1], fun i => by decide +revert, fun i => by decide +revert⟩
  have moved : Rearrangement
      [announced ⟨0⟩ "a", finished ⟨0⟩ .complete "1", announced ⟨1⟩ "b", ofOrder [⟨0⟩, ⟨1⟩]]
      [ofOrder [⟨0⟩, ⟨1⟩], announced ⟨1⟩ "b", announced ⟨0⟩ "a", finished ⟨0⟩ .complete "1"] :=
    ⟨place, by decide, by decide⟩
  exact ⟨_, _, rfl, rfl, ⟨moved⟩, (merged_in_any_order moved (ofOrder [⟨1⟩])).1⟩

end Report

/-! ## Growth -/

/-- What is known of a key stays known, and its output only grows. -/
structure Entry.Retained (old new : Entry) : Prop where
  source : old.source.isSome → new.source.isSome
  status : old.status.isSome → new.status.isSome
  output : ∃ more, new.output = old.output ++ more

namespace Entry.Retained

variable {d e f : Entry}

theorem refl (e : Entry) : Retained e e := ⟨id, id, "", String.append_empty.symm⟩

theorem trans (h : Retained d e) (h' : Retained e f) : Retained d f where
  source := h'.source ∘ h.source
  status := h'.status ∘ h.status
  output := by
    obtain ⟨more, e_output⟩ := h.output
    obtain ⟨more', f_output⟩ := h'.output
    exact ⟨more ++ more', by rw [f_output, e_output, String.append_assoc]⟩

theorem merge (old new : Entry) : Retained old (old.merge new) where
  source known := by rw [Entry.merge, Option.isSome_or, known, Bool.or_true]
  status known := by rw [Entry.merge, Option.isSome_or, known, Bool.or_true]
  output := ⟨new.output, rfl⟩

end Entry.Retained

namespace Report

/-- An order stays, with other keys perhaps, and every key that is known. -/
structure Retained (old new : Report) : Prop where
  order : old.order.isSome → new.order.isSome
  entries : ∀ k e, old.entries.get? k = some e →
    ∃ e', new.entries.get? k = some e' ∧ e.Retained e'

namespace Retained

theorem refl (r : Report) : Retained r r := ⟨id, fun _ e known => ⟨e, known, .refl e⟩⟩

theorem trans {r s t : Report} (h : Retained r s) (h' : Retained s t) : Retained r t where
  order := h'.order ∘ h.order
  entries k d known := by
    obtain ⟨e, known', retained⟩ := h.entries k d known
    obtain ⟨f, known'', retained'⟩ := h'.entries k e known'
    exact ⟨f, known'', retained.trans retained'⟩

theorem merge (state update : Report) : Retained state (state.merge update) where
  order known := by rw [Report.merge, Option.isSome_or, known, Bool.or_true]
  entries k e known := by
    rw [Report.merge, SortedMap.get?_mergeWith, known]
    cases update.entries.get? k with
    | none => exact ⟨e, rfl, .refl e⟩
    | some e' => exact ⟨e.merge e', rfl, .merge e e'⟩

theorem mergeAll (state : Report) (updates : List Report) :
    Retained state (state.mergeAll updates) := by
  induction updates generalizing state with
  | nil => exact .refl state
  | cons update more ih => exact (merge state update).trans (ih (state.merge update))

end Retained

variable {state r : Report} {rs : List Report} {k : Key}

theorem settled_iff :
    r.settled ↔ ∃ keys, r.order = some keys ∧ ∀ k ∈ keys, (r.status? k).isSome := by
  rw [settled]
  cases r.order with
  | none => simp
  | some keys => simp

theorem status_put {held : Option Entry} {entries : List Entry} :
    ((entries.foldl put held).bind Entry.status).isSome ↔
      (held.bind Entry.status).isSome ∨ ∃ e ∈ entries, e.status.isSome := by
  induction entries generalizing held with
  | nil => simp
  | cons e entries ih =>
    have here : ((put held e).bind Entry.status).isSome ↔
        e.status.isSome ∨ (held.bind Entry.status).isSome := by
      cases held with
      | none => simp [put]
      | some old => simp [put, Entry.merge]
    rw [List.foldl_cons, ih, here, List.exists_mem_cons_iff, or_assoc, or_left_comm]

/-- A key has a status as soon as one report gives it one. -/
theorem status?_mergeAll : ((state.mergeAll rs).status? k).isSome ↔
    (state.status? k).isSome ∨ ∃ e ∈ entriesOf k rs, e.status.isSome := by
  rw [status?, get?_mergeAll, status_put]
  rfl

theorem status_entriesOf : (∃ e ∈ entriesOf k rs, e.status.isSome) ↔
    ∃ r ∈ rs, (r.status? k).isSome := by
  constructor
  · rintro ⟨e, member, known⟩
    obtain ⟨r, there, told⟩ := List.mem_filterMap.1 member
    exact ⟨r, there, by rwa [status?, told]⟩
  · rintro ⟨r, there, known⟩
    obtain ⟨status, given⟩ := Option.isSome_iff_exists.1 known
    obtain ⟨e, told, held⟩ := Option.bind_eq_some_iff.1 given
    exact ⟨e, List.mem_filterMap.2 ⟨r, there, told⟩, by rw [held]; rfl⟩

/-- Whatever is merged into a state, nothing that it knows is lost, and its order is the last one
that was set. So it stays settled under its own order, and under another one it is settled just when
each of the keys has been given a status. -/
theorem merged_without_loss (state : Report) (updates : List Report) :
    Retained state (state.mergeAll updates) ∧
    (state.mergeAll updates).order = (orders updates).getLast?.or state.order ∧
    (state.settled → (∀ r ∈ updates, r.order = none) → (state.mergeAll updates).settled) ∧
    (∀ keys, (orders updates).getLast? = some keys → ((state.mergeAll updates).settled ↔
      ∀ k ∈ keys, (state.status? k).isSome ∨ ∃ r ∈ updates, (r.status? k).isSome)) := by
  have order := order_mergeAll state updates
  refine ⟨.mergeAll state updates, order, fun settled none_set => ?_, fun keys last => ?_⟩
  · obtain ⟨keys, here, known⟩ := settled_iff.1 settled
    have nothing : orders updates = [] := List.filterMap_eq_nil_iff.2 none_set
    rw [nothing, here] at order
    exact settled_iff.2 ⟨keys, order, fun k member => status?_mergeAll.2 (Or.inl (known k member))⟩
  · rw [last, Option.some_or] at order
    simp only [settled_iff, order, Option.some.injEq, exists_eq_left', status?_mergeAll,
      status_entriesOf]

theorem merged_without_loss_when_reordered : ∃ state : Report,
    state = (announced ⟨0⟩ "a").mergeAll [finished ⟨0⟩ .complete "1", ofOrder [⟨0⟩]] ∧
    state.settled ∧ (state.mergeAll [finished ⟨1⟩ (.failed "m") "", announced ⟨2⟩ "c"]).settled ∧
    (state.mergeAll [finished ⟨1⟩ (.failed "m") "", ofOrder [⟨2⟩], ofOrder [⟨1⟩, ⟨0⟩]]).settled ∧
    ¬ (state.mergeAll [ofOrder [⟨1⟩, ⟨0⟩], finished ⟨0⟩ .complete "2"]).settled := by
  let state := (announced ⟨0⟩ "a").mergeAll [finished ⟨0⟩ .complete "1", ofOrder [⟨0⟩]]
  have settled : state.settled := by decide
  have stays := (merged_without_loss state
    [finished ⟨1⟩ (.failed "m") "", announced ⟨2⟩ "c"]).2.2.1 settled (by decide)
  have known := (merged_without_loss state
    [finished ⟨1⟩ (.failed "m") "", ofOrder [⟨2⟩], ofOrder [⟨1⟩, ⟨0⟩]]).2.2.2 [⟨1⟩, ⟨0⟩] (by decide)
  have unknown := (merged_without_loss state
    [ofOrder [⟨1⟩, ⟨0⟩], finished ⟨0⟩ .complete "2"]).2.2.2 [⟨1⟩, ⟨0⟩] (by decide)
  exact ⟨state, rfl, settled, stays, known.2 (by decide),
    fun wrong => absurd (unknown.1 wrong) (by decide)⟩

end Report

end Worksheet
