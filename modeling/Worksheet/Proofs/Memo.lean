import Mathlib.Data.Finset.Card
import Worksheet.Proofs.Desk
/-! What a memo answers, whatever it was asked before. It numbers its keys without gaps, and what it
holds for an instance is what was recorded for it first. -/
namespace Worksheet.Memo

/-- What a memo is asked. The parents of an instance may be listed in any order, and repeatedly. -/
inductive Request
  | issue
  | insert (source : String) (parents : List Key) (key : Key)
  | lookup (source : String) (parents : List Key)
  deriving DecidableEq

namespace Request

/-- The instance that a request records a key for, if it records one. -/
def instance? : Request → Option (String × Finset Key)
  | insert source parents _ => some (source, parents.toFinset)
  | _ => none

/-- The key that a request records for this instance. -/
def recorded? (source : String) (parents : Finset Key) : Request → Option Key
  | insert s ps key => if s = source ∧ ps.toFinset = parents then some key else none
  | _ => none

end Request

def handle (m : Memo) : Request → Memo × Option Key
  | .issue => (m.issue, some m.nextKey)
  | .insert source parents key =>
    let (later, held) := m.insert ⟨source, .ofList parents⟩ key
    (later, some held)
  | .lookup source parents => (m, m.lookup ⟨source, .ofList parents⟩)

def after (requests : List Request) : Memo := requests.foldl (fun m q => (m.handle q).1) empty

/-- The answer to a request that comes behind others. -/
def answer (before : List Request) (q : Request) : Option Key := ((after before).handle q).2

theorem after_concat (before : List Request) (q : Request) :
    after (before ++ [q]) = ((after before).handle q).1 := by
  rw [after, List.foldl_append]
  rfl

/-- Only the issue of a key counts it. -/
theorem issued_after (before : List Request) : (after before).issued = before.count .issue := by
  induction before using List.reverseRecOn with
  | nil => rfl
  | append_singleton before q ih =>
    rw [after_concat, List.count_append, ← ih]
    cases q with
    | issue => rfl
    | insert source parents key =>
      show ((after before).insert _ key).1.issued = _
      rw [insert]
      split <;> rfl
    | lookup source parents => rfl

theorem insert_held (m : Memo) (r : Recipe) (k : Key) :
    (m.insert r k).2 = (m.lookup r).getD k := by
  rw [insert]
  cases m.lookup r <;> rfl

theorem ofList_inj {ks ks' : List Key} :
    KeySet.ofList ks = KeySet.ofList ks' ↔ ks.toFinset = ks'.toFinset := by
  constructor
  · intro same
    ext k
    rw [List.mem_toFinset, List.mem_toFinset, ← KeySet.mem_ofList, same, KeySet.mem_ofList]
  · intro same
    refine KeySet.ext fun k => ?_
    rw [KeySet.mem_ofList, KeySet.mem_ofList, ← List.mem_toFinset, same, List.mem_toFinset]

theorem recipe_inj {s s' : String} {ks ks' : List Key} :
    (⟨s, .ofList ks⟩ : Recipe) = ⟨s', .ofList ks'⟩ ↔ s = s' ∧ ks.toFinset = ks'.toFinset := by
  rw [Recipe.mk.injEq, ofList_inj]

/-- The first key that was recorded for an instance is held for it. -/
theorem lookup_after (before : List Request) (source : String) (parents : List Key) :
    (after before).lookup ⟨source, .ofList parents⟩ =
      before.findSome? (Request.recorded? source parents.toFinset) := by
  induction before using List.reverseRecOn with
  | nil => rfl
  | append_singleton before q ih =>
    rw [after_concat, List.findSome?_append, ← ih]
    cases q with
    | issue => exact (Option.or_none).symm
    | insert s ps key =>
      show ((after before).insert _ key).1.lookup _ = _
      rw [lookup_insert, insert_held]
      simp only [recipe_inj, List.findSome?_singleton, Request.recorded?]
      by_cases same : source = s ∧ parents.toFinset = ps.toFinset
      · rw [if_pos same, if_pos ⟨same.1.symm, same.2.symm⟩]
        obtain ⟨rfl, sets⟩ := same
        rw [← ofList_inj.2 sets]
        cases (after before).lookup ⟨source, .ofList parents⟩ <;> rfl
      · rw [if_neg same, if_neg fun h => same ⟨h.1.symm, h.2.symm⟩, Option.or_none]
    | lookup s ps => exact (Option.or_none).symm

theorem recorded_isSome {source : String} {set : Finset Key} {q : Request} :
    (q.recorded? source set).isSome ↔ q.instance? = some (source, set) := by
  cases q with
  | issue => simp [Request.recorded?, Request.instance?]
  | insert s ps key => simp [Request.recorded?, Request.instance?]
  | lookup s ps => simp [Request.recorded?, Request.instance?]

theorem lookup_isSome_after (before : List Request) (source : String) (parents : List Key) :
    ((after before).lookup ⟨source, .ofList parents⟩).isSome ↔
      (source, parents.toFinset) ∈ before.filterMap Request.instance? := by
  simp only [lookup_after, List.isSome_findSome?, List.any_eq_true, recorded_isSome,
    List.mem_filterMap]

/-- Each instance is held once, however often it was recorded. -/
theorem size_after (before : List Request) :
    (after before).size = (before.filterMap Request.instance?).toFinset.card := by
  induction before using List.reverseRecOn with
  | nil => rfl
  | append_singleton before q ih =>
    rw [after_concat, List.filterMap_append, List.toFinset_append]
    cases q with
    | issue =>
      show (after before).size = Finset.card (_ ∪ ∅)
      rw [Finset.union_empty, ih]
    | insert source parents key =>
      show ((after before).insert _ key).1.size = Finset.card (_ ∪ {(source, parents.toFinset)})
      have known := lookup_isSome_after before source parents
      rw [← List.mem_toFinset] at known
      rw [Finset.union_singleton]
      cases held : (after before).lookup ⟨source, .ofList parents⟩ with
      | some k =>
        rw [insert_of_lookup held, Finset.insert_eq_of_mem (known.1 (by rw [held]; rfl)), ih]
      | none =>
        have new : (source, parents.toFinset) ∉ (before.filterMap Request.instance?).toFinset := by
          rw [← known, held]
          exact Bool.false_ne_true
        rw [insert_of_new held, Finset.card_insert_of_notMem new, ← ih]
        exact List.length_append
    | lookup s ps =>
      show (after before).size = Finset.card (_ ∪ ∅)
      rw [Finset.union_empty, ih]

/-- A memo numbers the keys that it issues in turn, whatever comes between. It holds for an instance,
in whatever way its parents are listed, the key that was recorded for it first, and tells it when one
is recorded again. -/
theorem first_record_holds (before : List Request) (source : String) (parents : List Key) :
    (before.count .issue < UInt64.size →
      ∃ key, answer before .issue = some key ∧ key.number = before.count .issue) ∧
    answer before (.lookup source parents) =
      before.findSome? (Request.recorded? source parents.toFinset) ∧
    (∀ key, answer before (.insert source parents key) =
        some ((answer before (.lookup source parents)).getD key) ∧
      answer (before ++ [.insert source parents key]) (.lookup source parents) =
        answer before (.insert source parents key)) ∧
    (after before).size = (before.filterMap Request.instance?).toFinset.card ∧
    (∀ key more, answer before (.lookup source parents) = some key →
      answer (before ++ more) (.lookup source parents) = some key) := by
  refine ⟨fun few => ?_, lookup_after before source parents, fun key => ⟨?_, ?_⟩,
    size_after before, fun key more held => ?_⟩
  · rw [← issued_after] at few ⊢
    exact ⟨_, rfl, nextKey_number few⟩
  · exact congrArg some (insert_held _ _ key)
  · show (after (before ++ [_])).lookup _ = some ((after before).insert _ key).2
    rw [after_concat]
    exact (lookup_insert _ _ _ key).trans (if_pos rfl)
  · have first : (after before).lookup ⟨source, .ofList parents⟩ = some key := held
    rw [lookup_after] at first
    show (after (before ++ more)).lookup _ = _
    rw [lookup_after, List.findSome?_append, first]
    rfl

theorem first_record_holds_when_relisted : ∃ before : List Request,
    before = [.issue, .insert "y" [⟨4⟩, ⟨3⟩, ⟨4⟩] ⟨0⟩, .lookup "y" [⟨3⟩], .issue,
      .insert "y" [⟨3⟩, ⟨4⟩] ⟨1⟩] ∧
    (∃ key, answer before .issue = some key ∧ key.number = 2) ∧
    answer before (.lookup "y" [⟨3⟩, ⟨4⟩]) = some ⟨0⟩ ∧
    answer (before ++ [.insert "y" [⟨4⟩, ⟨3⟩] ⟨2⟩, .insert "y" [] ⟨2⟩])
      (.lookup "y" [⟨3⟩, ⟨4⟩]) = some ⟨0⟩ := by
  let before : List Request := [.issue, .insert "y" [⟨4⟩, ⟨3⟩, ⟨4⟩] ⟨0⟩, .lookup "y" [⟨3⟩], .issue,
    .insert "y" [⟨3⟩, ⟨4⟩] ⟨1⟩]
  obtain ⟨numbered, first, -, -, stays⟩ := first_record_holds before "y" [⟨3⟩, ⟨4⟩]
  have held : answer before (.lookup "y" [⟨3⟩, ⟨4⟩]) = some ⟨0⟩ := first.trans (by decide)
  exact ⟨before, rfl, numbered (by decide), held, stays _ _ held⟩

end Worksheet.Memo
