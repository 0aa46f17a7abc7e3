/-! Values taken off the front of a list. What is taken is never empty, so reading one value after
another always ends. -/
namespace Worksheet

/-- A value that the front of a list stands for, and what is behind it. -/
structure Taken {τ : Type} (α : Type) (input : List τ) where
  value : α
  rest : List τ
  shorter : rest.length < input.length

/-- What is left of a list behind a part of it that may be empty. -/
structure Later {τ : Type} (input : List τ) where
  rest : List τ
  le : rest.length ≤ input.length

variable {τ α β : Type} {input : List τ}

namespace Later

def all (input : List τ) : Later input := ⟨input, Nat.le_refl _⟩

def behind (head : τ) (l : Later input) : Later (head :: input) := ⟨l.rest, Nat.le_succ_of_le l.le⟩

def dropWhile (p : τ → Bool) (input : List τ) : Later input :=
  ⟨input.dropWhile p, (List.dropWhile_sublist _).length_le⟩

def next (l : Later input) (t : Taken α l.rest) : Taken α input :=
  ⟨t.value, t.rest, Nat.lt_of_lt_of_le t.shorter l.le⟩

end Later

namespace Taken

def first (head : τ) (rest : List τ) : Taken τ (head :: rest) := ⟨head, rest, Nat.lt_succ_self _⟩

def map (f : α → β) (t : Taken α input) : Taken β input := ⟨f t.value, t.rest, t.shorter⟩

def as (value : β) (t : Taken α input) : Taken β input := ⟨value, t.rest, t.shorter⟩

def behind (head : τ) (t : Taken α input) : Taken α (head :: input) :=
  ⟨t.value, t.rest, Nat.lt_succ_of_lt t.shorter⟩

def next (t : Taken α input) (u : Taken β t.rest) : Taken β input :=
  ⟨u.value, u.rest, Nat.lt_trans u.shorter t.shorter⟩

def upTo (t : Taken α input) (l : Later t.rest) : Taken α input :=
  ⟨t.value, l.rest, Nat.lt_of_le_of_lt l.le t.shorter⟩

def later (t : Taken α input) : Later input := ⟨t.rest, Nat.le_of_lt t.shorter⟩

end Taken

end Worksheet
