/-! Finite maps as lists in strictly ascending order of their keys, so that two maps with the same
values at every key are equal. -/
namespace Worksheet

class StrictOrder (K : Type) [LT K] : Prop where
  irrefl (a : K) : ¬ a < a
  trans {a b c : K} : a < b → b < c → a < c
  eq_of_not_lt {a b : K} : ¬ a < b → ¬ b < a → a = b

instance : StrictOrder String where
  irrefl := String.lt_irrefl
  trans := String.lt_trans
  eq_of_not_lt h h' := String.le_antisymm (String.not_lt.1 h') (String.not_lt.1 h)

theorem StrictOrder.ne_of_lt {K : Type} [LT K] [StrictOrder K] {a b : K} (less : a < b) : a ≠ b :=
  fun same => irrefl a (same ▸ less)

variable {K V : Type} [LT K] [DecidableLT K] [DecidableEq K]

/-- Puts a value at a key, in its place; a value already there is combined with the new one. -/
def insertSorted (combine : V → V → V) (k : K) (v : V) : List (K × V) → List (K × V)
  | [] => [(k, v)]
  | (a, w) :: rest =>
    if k < a then (k, v) :: (a, w) :: rest
    else if a < k then (a, w) :: insertSorted combine k v rest
    else (a, combine w v) :: rest

def findSorted? (k : K) : List (K × V) → Option V
  | [] => none
  | (a, w) :: rest => if a = k then some w else findSorted? k rest

omit [DecidableLT K] in
theorem findSorted?_eq_none [StrictOrder K] {k : K} {l : List (K × V)} (h : ∀ p ∈ l, k < p.1) :
    findSorted? k l = none := by
  induction l with
  | nil => rfl
  | cons p l ih =>
    have hp : p.1 ≠ k := fun e => StrictOrder.irrefl k (e ▸ h p (List.mem_cons_self ..))
    simp only [findSorted?, hp, if_false]
    exact ih fun q hq => h q (List.mem_cons_of_mem _ hq)

omit [DecidableLT K] [LT K] in
theorem findSorted?_isSome {k : K} {l : List (K × V)} :
    (findSorted? k l).isSome ↔ k ∈ l.map Prod.fst := by
  induction l with
  | nil => simp [findSorted?]
  | cons p l ih =>
    by_cases here : p.1 = k
    · simp [findSorted?, here]
    · simpa [findSorted?, here, Ne.symm here] using ih

omit [DecidableLT K] [LT K] in
theorem findSorted?_append (k : K) (l m : List (K × V)) :
    findSorted? k (l ++ m) = (findSorted? k l).or (findSorted? k m) := by
  induction l with
  | nil => rfl
  | cons p l ih =>
    by_cases here : p.1 = k
    · simp [findSorted?, here]
    · simpa [findSorted?, here] using ih

omit [DecidableLT K] [LT K] in
/-- Where no key comes twice, the order of the pairs makes no difference. -/
theorem findSorted?_perm {k : K} {l m : List (K × V)} (same : l.Perm m)
    (distinct : (l.map Prod.fst).Nodup) : findSorted? k l = findSorted? k m := by
  induction same with
  | nil => rfl
  | cons p _ ih => simp only [findSorted?, ih (List.nodup_cons.1 distinct).2]
  | swap p q l =>
    have other : q.1 ≠ p.1 := fun h => (List.nodup_cons.1 distinct).1 (by simp [h])
    by_cases here : p.1 = k
    · subst here
      simp [findSorted?, other]
    · simp [findSorted?, here]
  | trans first _ ih ih' => exact (ih distinct).trans (ih' ((first.map _).nodup_iff.1 distinct))

omit [DecidableEq K] in
theorem insertSorted_above {combine : V → V → V} {low k : K} {v : V} {l : List (K × V)}
    (hk : low < k) (h : ∀ p ∈ l, low < p.1) : ∀ p ∈ insertSorted combine k v l, low < p.1 := by
  induction l with
  | nil => simpa [insertSorted] using hk
  | cons q l ih =>
    obtain ⟨a, w⟩ := q
    have ha : low < a := h _ (List.mem_cons_self ..)
    have hl : ∀ p ∈ l, low < p.1 := fun p hp => h p (List.mem_cons_of_mem _ hp)
    simp only [insertSorted]
    split
    · intro p hp
      rcases List.mem_cons.1 hp with rfl | hp
      · exact hk
      · exact h p hp
    · split
      · intro p hp
        rcases List.mem_cons.1 hp with rfl | hp
        · exact ha
        · exact ih hl p hp
      · intro p hp
        rcases List.mem_cons.1 hp with rfl | hp
        · exact ha
        · exact hl p hp

omit [DecidableEq K] in
theorem insertSorted_sorted [StrictOrder K] {combine : V → V → V} {k : K} {v : V}
    {l : List (K × V)} (h : l.Pairwise fun a b => a.1 < b.1) :
    (insertSorted combine k v l).Pairwise fun a b => a.1 < b.1 := by
  induction l with
  | nil => simp [insertSorted]
  | cons q l ih =>
    obtain ⟨a, w⟩ := q
    obtain ⟨ha, hl⟩ := List.pairwise_cons.1 h
    simp only [insertSorted]
    split
    · rename_i hka
      refine List.pairwise_cons.2 ⟨fun p hp => ?_, h⟩
      rcases List.mem_cons.1 hp with rfl | hp
      · exact hka
      · exact StrictOrder.trans hka (ha p hp)
    · split
      · rename_i hak
        exact List.pairwise_cons.2 ⟨insertSorted_above hak ha, ih hl⟩
      · exact List.pairwise_cons.2 ⟨ha, hl⟩

theorem findSorted?_insertSorted [StrictOrder K] (combine : V → V → V) (k j : K) (v : V)
    (l : List (K × V)) (h : l.Pairwise fun a b => a.1 < b.1) :
    findSorted? j (insertSorted combine k v l) =
      if j = k then some ((findSorted? k l).elim v (combine · v)) else findSorted? j l := by
  induction l with
  | nil =>
    by_cases hj : j = k
    · subst hj; simp [insertSorted, findSorted?]
    · simp [insertSorted, findSorted?, hj, Ne.symm hj]
  | cons q l ih =>
    obtain ⟨a, w⟩ := q
    obtain ⟨ha, hl⟩ := List.pairwise_cons.1 h
    simp only [insertSorted]
    split
    · rename_i hka
      have hak : a ≠ k := fun e => StrictOrder.irrefl k (e ▸ hka)
      have none_l : findSorted? k l = none :=
        findSorted?_eq_none fun p hp => StrictOrder.trans hka (ha p hp)
      by_cases hj : j = k
      · subst hj; simp [findSorted?, hak, none_l]
      · simp [findSorted?, hj, Ne.symm hj]
    · split
      · rename_i hka hak
        have hne : a ≠ k := fun e => StrictOrder.irrefl a (by rw [← e] at hak; exact hak)
        simp only [findSorted?, ih hl, hne, if_false]
        by_cases hj : j = k
        · subst hj; simp [hne]
        · simp [hj]
      · rename_i hka hak
        have e : a = k := StrictOrder.eq_of_not_lt hak hka
        subst e
        by_cases hj : j = a
        · subst hj; simp [findSorted?]
        · simp [findSorted?, hj, Ne.symm hj]

omit [DecidableLT K] in
theorem sorted_ext [StrictOrder K] {l m : List (K × V)} (hl : l.Pairwise fun a b => a.1 < b.1)
    (hm : m.Pairwise fun a b => a.1 < b.1) (h : ∀ k, findSorted? k l = findSorted? k m) :
    l = m := by
  induction l generalizing m with
  | nil =>
    cases m with
    | nil => rfl
    | cons q m => have := h q.1; simp [findSorted?] at this
  | cons p l ih =>
    cases m with
    | nil => have := h p.1; simp [findSorted?] at this
    | cons q m =>
      obtain ⟨a, v⟩ := p
      obtain ⟨b, w⟩ := q
      obtain ⟨ha, hl'⟩ := List.pairwise_cons.1 hl
      obtain ⟨hb, hm'⟩ := List.pairwise_cons.1 hm
      have hab : a = b := by
        refine Classical.byContradiction fun hne => ?_
        by_cases lt : a < b
        · have := h a
          simp only [findSorted?, if_true, if_neg (Ne.symm hne)] at this
          rw [findSorted?_eq_none fun p hp => StrictOrder.trans lt (hb p hp)] at this
          cases this
        · have := h a
          by_cases lt' : b < a
          · have := h b
            simp only [findSorted?, if_true, if_neg hne] at this
            rw [findSorted?_eq_none fun p hp => StrictOrder.trans lt' (ha p hp)] at this
            cases this
          · exact hne (StrictOrder.eq_of_not_lt lt lt')
      subst hab
      have hv := h a
      simp only [findSorted?, if_true, Option.some.injEq] at hv
      subst hv
      refine congrArg _ (ih hl' hm' fun k => ?_)
      have hk := h k
      by_cases e : a = k
      · subst e; rw [findSorted?_eq_none ha, findSorted?_eq_none hb]
      · simpa only [findSorted?, if_neg e] using hk

structure SortedMap (K V : Type) [LT K] where
  toList : List (K × V)
  sorted : toList.Pairwise fun a b => a.1 < b.1

namespace SortedMap

instance [DecidableEq V] : DecidableEq (SortedMap K V)
  | ⟨l, _⟩, ⟨m, _⟩ =>
    if h : l = m then isTrue (by subst h; rfl) else isFalse fun e => h (congrArg toList e)

instance : EmptyCollection (SortedMap K V) := ⟨⟨[], .nil⟩⟩

instance : Inhabited (SortedMap K V) := ⟨∅⟩

def get? (m : SortedMap K V) (k : K) : Option V := findSorted? k m.toList

variable [StrictOrder K]

def insertWith (combine : V → V → V) (m : SortedMap K V) (k : K) (v : V) : SortedMap K V :=
  ⟨insertSorted combine k v m.toList, insertSorted_sorted m.sorted⟩

def insert (m : SortedMap K V) (k : K) (v : V) : SortedMap K V := m.insertWith (fun _ new => new) k v

def erase (m : SortedMap K V) (k : K) : SortedMap K V :=
  ⟨m.toList.filter fun p => p.1 ≠ k, m.sorted.filter _⟩

def ofList (l : List (K × V)) : SortedMap K V := l.foldl (fun m p => m.insert p.1 p.2) ∅

/-- All keys of both maps; where both have a value, the two are combined. -/
def mergeWith (combine : V → V → V) (m n : SortedMap K V) : SortedMap K V :=
  n.toList.foldl (fun m p => m.insertWith combine p.1 p.2) m

/-- All keys of both maps; where both have a value, the second map's counts. -/
def union (m n : SortedMap K V) : SortedMap K V := m.mergeWith (fun _ new => new) n

omit [DecidableLT K] in
theorem ext_get? {m n : SortedMap K V} (h : ∀ k, m.get? k = n.get? k) : m = n := by
  obtain ⟨l, hl⟩ := m
  obtain ⟨l', hl'⟩ := n
  have e : l = l' := sorted_ext hl hl' h
  subst e
  rfl

omit [DecidableLT K] [StrictOrder K] in
@[simp] theorem get?_empty (k : K) : (∅ : SortedMap K V).get? k = none := rfl

theorem get?_insertWith (combine : V → V → V) (m : SortedMap K V) (k j : K) (v : V) :
    (m.insertWith combine k v).get? j =
      if j = k then some ((m.get? k).elim v (combine · v)) else m.get? j :=
  findSorted?_insertSorted combine k j v m.toList m.sorted

theorem get?_insert (m : SortedMap K V) (k j : K) (v : V) :
    (m.insert k v).get? j = if j = k then some v else m.get? j := by
  rw [insert, get?_insertWith]
  cases m.get? k <;> rfl

/-- Of the pairs with one key, the last one counts. -/
theorem get?_ofList (l : List (K × V)) (k : K) : (ofList l).get? k = findSorted? k l.reverse := by
  suffices h : ∀ m : SortedMap K V, (l.foldl (fun m p => m.insert p.1 p.2) m).get? k =
      (findSorted? k l.reverse).or (m.get? k) by
    rw [ofList, h, get?_empty, Option.or_none]
  induction l with
  | nil => exact fun _ => rfl
  | cons p l ih =>
    intro m
    rw [List.foldl_cons, ih, get?_insert, List.reverse_cons, findSorted?_append, Option.or_assoc]
    by_cases here : p.1 = k
    · simp [findSorted?, here]
    · simp [findSorted?, here, Ne.symm here]

theorem get?_mergeWith (combine : V → V → V) (m n : SortedMap K V) (j : K) :
    (m.mergeWith combine n).get? j =
      match n.get? j with
      | none => m.get? j
      | some v => some ((m.get? j).elim v (combine · v)) := by
  obtain ⟨l, hl⟩ := n
  simp only [mergeWith, get?]
  induction l generalizing m with
  | nil => rfl
  | cons p l ih =>
    obtain ⟨a, v⟩ := p
    obtain ⟨ha, hl⟩ := List.pairwise_cons.1 hl
    have low : findSorted? a l = none := findSorted?_eq_none ha
    rw [List.foldl_cons, ih _ hl]
    have step := get?_insertWith combine m a j v
    simp only [get?] at step
    rw [step]
    by_cases e : j = a
    · subst e; simp [findSorted?, low]
    · simp [findSorted?, e, Ne.symm e]

theorem get?_union (m n : SortedMap K V) (j : K) :
    (m.union n).get? j = (n.get? j).or (m.get? j) := by
  rw [union, get?_mergeWith]
  cases n.get? j with
  | none => rfl
  | some v =>
    cases m.get? j with
    | none => rfl
    | some w => rfl

omit [DecidableLT K] [StrictOrder K] in
theorem get?_erase (m : SortedMap K V) (k j : K) :
    (m.erase k).get? j = if j = k then none else m.get? j := by
  obtain ⟨l, hl⟩ := m
  simp only [erase, get?]
  clear hl
  induction l with
  | nil => simp [findSorted?]
  | cons p l ih =>
    obtain ⟨a, v⟩ := p
    by_cases here : a = k
    · subst here
      rw [List.filter_cons_of_neg (by simp), ih]
      by_cases same : j = a
      · simp [same]
      · simp [same, findSorted?, Ne.symm same]
    · rw [List.filter_cons_of_pos (by simpa using here)]
      simp only [findSorted?, ih]
      by_cases same : a = j
      · subst same
        simp [here]
      · simp [same]

end SortedMap

end Worksheet
