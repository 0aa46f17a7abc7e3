import Worksheet.SortedMap
/-! Keys number the declaration instances of a worksheet in the order in which they appear. -/
namespace Worksheet

structure Key where
  val : UInt64
  deriving DecidableEq, Repr, Inhabited

namespace Key

instance : LT Key := ⟨fun a b => a.val < b.val⟩

instance : DecidableLT Key := fun a b => inferInstanceAs (Decidable (a.val < b.val))

instance : StrictOrder Key where
  irrefl a := UInt64.lt_irrefl a.val
  trans h h' := UInt64.lt_trans h h'
  eq_of_not_lt {a b} h h' := by
    obtain ⟨a⟩ := a
    obtain ⟨b⟩ := b
    exact congrArg mk (UInt64.le_antisymm (UInt64.not_lt.1 h') (UInt64.not_lt.1 h))

def text (k : Key) : String := toString k.val.toNat

end Key

/-- A set of keys, in ascending order. -/
structure KeySet where
  toList : List Key
  sorted : toList.Pairwise (· < ·)
  deriving DecidableEq

namespace KeySet

def insertKey (k : Key) : List Key → List Key
  | [] => [k]
  | a :: rest =>
    if k < a then k :: a :: rest else if a < k then a :: insertKey k rest else a :: rest

theorem mem_insertKey {k a : Key} {l : List Key} : a ∈ insertKey k l ↔ a = k ∨ a ∈ l := by
  induction l with
  | nil => simp [insertKey]
  | cons b l ih =>
    simp only [insertKey]
    split
    · simp
    · split
      · simp only [List.mem_cons, ih]
        constructor
        · rintro (h | h | h) <;> simp [h]
        · rintro (h | h | h) <;> simp [h]
      · rename_i h h'
        have e : b = k := StrictOrder.eq_of_not_lt h' h
        subst e
        simp

theorem insertKey_sorted {k : Key} {l : List Key} (h : l.Pairwise (· < ·)) :
    (insertKey k l).Pairwise (· < ·) := by
  induction l with
  | nil => simp [insertKey]
  | cons b l ih =>
    obtain ⟨hb, hl⟩ := List.pairwise_cons.1 h
    simp only [insertKey]
    split
    · rename_i hk
      refine List.pairwise_cons.2 ⟨fun a ha => ?_, h⟩
      rcases List.mem_cons.1 ha with rfl | ha
      · exact hk
      · exact StrictOrder.trans hk (hb a ha)
    · split
      · rename_i hk
        refine List.pairwise_cons.2 ⟨fun a ha => ?_, ih hl⟩
        rcases mem_insertKey.1 ha with rfl | ha
        · exact hk
        · exact hb a ha
      · exact h

instance : EmptyCollection KeySet := ⟨⟨[], .nil⟩⟩

instance : Membership Key KeySet := ⟨fun s k => k ∈ s.toList⟩

def insert (s : KeySet) (k : Key) : KeySet := ⟨insertKey k s.toList, insertKey_sorted s.sorted⟩

def ofList (keys : List Key) : KeySet := keys.foldr (fun k s => s.insert k) ∅

theorem mem_insert {s : KeySet} {k a : Key} : a ∈ s.insert k ↔ a = k ∨ a ∈ s := mem_insertKey

theorem mem_ofList {keys : List Key} {a : Key} : a ∈ ofList keys ↔ a ∈ keys := by
  induction keys with
  | nil => exact Iff.rfl
  | cons k keys ih =>
    rw [show ofList (k :: keys) = (ofList keys).insert k from rfl, mem_insert, ih, List.mem_cons]

theorem sorted_keys_ext {l m : List Key} (hl : l.Pairwise (· < ·)) (hm : m.Pairwise (· < ·))
    (h : ∀ k, k ∈ l ↔ k ∈ m) : l = m := by
  have pairs : ∀ {n : List Key}, n.Pairwise (· < ·) →
      (n.map fun k => (k, ())).Pairwise fun a b => a.1 < b.1 := fun hn => List.pairwise_map.2 hn
  have found : ∀ (n : List Key) (k : Key),
      findSorted? k (n.map fun k => (k, ())) = if k ∈ n then some () else none := by
    intro n k
    induction n with
    | nil => rfl
    | cons b n ih =>
      by_cases e : b = k
      · subst e; simp [findSorted?]
      · simp [findSorted?, e, Ne.symm e, ih]
  have := sorted_ext (pairs hl) (pairs hm) fun k => by rw [found, found]; simp only [h]
  have := congrArg (List.map Prod.fst) this
  simpa [List.map_map, Function.comp_def] using this

theorem ext {s t : KeySet} (h : ∀ k, k ∈ s ↔ k ∈ t) : s = t := by
  obtain ⟨l, hl⟩ := s
  obtain ⟨m, hm⟩ := t
  have e : l = m := sorted_keys_ext hl hm h
  subst e
  rfl

end KeySet

end Worksheet
