import Worksheet.Key
/-! The memo of a worksheet: the key of each declaration instance seen so far. It outlives every
edit, so an instance that comes back keeps its key. -/
namespace Worksheet

/-- What makes a declaration instance: its text and the instances it reads from. -/
structure Recipe where
  source : String
  parents : KeySet
  deriving DecidableEq

structure Memo where
  issued : Nat
  /-- The recorded instances, the first one first. -/
  entries : List (Recipe × Key)

namespace Memo

def empty : Memo := ⟨0, []⟩

instance : Inhabited Memo := ⟨empty⟩

def nextKey (m : Memo) : Key := ⟨UInt64.ofNat m.issued⟩

def issue (m : Memo) : Memo := { m with issued := m.issued + 1 }

def lookup (m : Memo) (r : Recipe) : Option Key := (m.entries.find? (·.1 = r)).map (·.2)

/-- Records a key for an instance, and gives the key that stands for it from now on: a key recorded
before stays. -/
def insert (m : Memo) (r : Recipe) (k : Key) : Memo × Key :=
  match m.lookup r with
  | some held => (m, held)
  | none => ({ m with entries := m.entries ++ [(r, k)] }, k)

def size (m : Memo) : Nat := m.entries.length

theorem insert_of_lookup {m : Memo} {r : Recipe} {held : Key} (h : m.lookup r = some held)
    (k : Key) : m.insert r k = (m, held) := by
  simp [insert, h]

theorem insert_of_new {m : Memo} {r : Recipe} (h : m.lookup r = none) (k : Key) :
    m.insert r k = ({ m with entries := m.entries ++ [(r, k)] }, k) := by
  simp [insert, h]

theorem lookup_insert (m : Memo) (r s : Recipe) (k : Key) :
    (m.insert r k).1.lookup s = if s = r then some (m.insert r k).2 else m.lookup s := by
  cases h : m.lookup r with
  | some held =>
    rw [insert_of_lookup h]
    by_cases e : s = r
    · subst e; simp [h]
    · simp [e]
  | none =>
    rw [insert_of_new h]
    have none_r : m.entries.find? (·.1 = r) = none := Option.map_eq_none_iff.1 h
    simp only [lookup, List.find?_append]
    by_cases e : s = r
    · subst e
      simp [none_r]
    · simp [e, Ne.symm e]

end Memo

end Worksheet
