import Worksheet.Calc.Source
/-! Dependency trees. The tree of a declaration is its text with the set of the trees of what it
reads from, and a name means the nearest declaration before it. -/
namespace Worksheet

open Calc (Decl Section)

/-- The parts stand in any order and with any repetition. -/
inductive DepTree
  | node (source : String) (parts : List DepTree)

namespace DepTree

mutual

/-- Same text, and parts that make the same set. -/
def same : DepTree → DepTree → Bool
  | .node s ps, .node t qs => decide (s = t) && (allWithin ps qs && qs.all (within ps))

def allWithin : List DepTree → List DepTree → Bool
  | [], _ => true
  | p :: ps, qs => qs.any (same p) && allWithin ps qs

def within : List DepTree → DepTree → Bool
  | [], _ => false
  | p :: ps, q => same p q || within ps q

end

mutual

theorem induction {P : DepTree → Prop} (node : ∀ s ps, (∀ p ∈ ps, P p) → P (.node s ps)) :
    ∀ t, P t
  | .node s ps => node s ps (inductionAll node ps)

theorem inductionAll {P : DepTree → Prop} (node : ∀ s ps, (∀ p ∈ ps, P p) → P (.node s ps)) :
    ∀ ps : List DepTree, ∀ p ∈ ps, P p
  | [] => fun _ h => absurd h List.not_mem_nil
  | p :: ps => List.forall_mem_cons.2 ⟨induction node p, inductionAll node ps⟩

end

theorem allWithin_iff (ps qs : List DepTree) :
    allWithin ps qs = true ↔ ∀ p ∈ ps, ∃ q ∈ qs, same p q = true := by
  induction ps with
  | nil => simp [allWithin]
  | cons p ps ih => simp [allWithin, ih]

theorem within_iff (ps : List DepTree) (q : DepTree) :
    within ps q = true ↔ ∃ p ∈ ps, same p q = true := by
  induction ps with
  | nil => simp [within]
  | cons p ps ih => simp [within, ih]

theorem same_iff (s t : String) (ps qs : List DepTree) :
    same (.node s ps) (.node t qs) = true ↔ s = t ∧
      (∀ p ∈ ps, ∃ q ∈ qs, same p q = true) ∧ (∀ q ∈ qs, ∃ p ∈ ps, same p q = true) := by
  simp [same, allWithin_iff, within_iff]

theorem same_refl (t : DepTree) : same t t = true := by
  induction t using induction with
  | node s ps ih =>
    refine (same_iff ..).2 ⟨rfl, ?_, ?_⟩
    · exact fun p hp => ⟨p, hp, ih p hp⟩
    · exact fun p hp => ⟨p, hp, ih p hp⟩

theorem same_symm {t u : DepTree} (h : same t u = true) : same u t = true := by
  induction t using induction generalizing u with
  | node s ps ih =>
    obtain ⟨s', qs⟩ := u
    obtain ⟨rfl, left, right⟩ := (same_iff ..).1 h
    refine (same_iff ..).2 ⟨rfl, ?_, ?_⟩
    · intro q hq
      obtain ⟨p, hp, alike⟩ := right q hq
      exact ⟨p, hp, ih p hp alike⟩
    · intro p hp
      obtain ⟨q, hq, alike⟩ := left p hp
      exact ⟨q, hq, ih p hp alike⟩

theorem same_trans {t u v : DepTree} (h : same t u = true) (h' : same u v = true) :
    same t v = true := by
  induction t using induction generalizing u v with
  | node s ps ih =>
    obtain ⟨s', qs⟩ := u
    obtain ⟨s'', os⟩ := v
    obtain ⟨rfl, left, right⟩ := (same_iff ..).1 h
    obtain ⟨rfl, left', right'⟩ := (same_iff ..).1 h'
    refine (same_iff ..).2 ⟨rfl, ?_, ?_⟩
    · intro p hp
      obtain ⟨q, hq, alike⟩ := left p hp
      obtain ⟨o, ho, alike'⟩ := left' q hq
      exact ⟨o, ho, ih p hp alike alike'⟩
    · intro o ho
      obtain ⟨q, hq, alike'⟩ := right' o ho
      obtain ⟨p, hp, alike⟩ := right q hq
      exact ⟨p, hp, ih p hp alike alike'⟩

instance setoid : Setoid DepTree where
  r t u := same t u = true
  iseqv := ⟨same_refl, same_symm, same_trans⟩

instance (t u : DepTree) : Decidable (t ≈ u) := inferInstanceAs (Decidable (same t u = true))

/-- The tree that a name stands for. Of the items before it, the nearest is the first. -/
def named : List Section → String → Option DepTree
  | [], _ => none
  | .broken _ _ :: before, x => named before x
  | .decl d :: before, x =>
    if d.bound = some x then some (.node d.source (d.free.filterMap (named before)))
    else named before x

/-- The tree of a declaration behind other items. Names that stand for nothing are left out. -/
def ofDecl (before : List Section) (d : Decl) : DepTree :=
  .node d.source (d.free.filterMap (named before))

/-- The trees of items behind others. What cannot be read has none. -/
def ofItems (before : List Section) : List Section → List (Option DepTree)
  | [] => []
  | .broken s e :: rest => none :: ofItems (.broken s e :: before) rest
  | .decl d :: rest => some (ofDecl before d) :: ofItems (.decl d :: before) rest

end DepTree

/-- A dependency tree, where only the set of the parts counts. -/
abbrev Dependency := Quotient DepTree.setoid

namespace Dependency

/-- The dependency trees of the declarations of a text, at their places. -/
def ofText (text : String) : List (Option Dependency) :=
  (DepTree.ofItems [] (Calc.parse text)).map (Option.map (Quotient.mk _))

end Dependency

end Worksheet
