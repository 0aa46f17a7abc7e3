import Worksheet.Proofs.Keys
import Worksheet.Proofs.Reading
/-! Two worksheets that may have nothing in common but one dependency tree. Whatever else their texts
hold, whatever came before, and whatever else fails or breaks down: a declaration comes to what its
tree says. -/
namespace Worksheet

open Calc (Decl Env Section)
open Report (entriesOf put told)

/-- The calc language, by an evaluator that breaks down on some declarations. -/
def Evaluator.breaking (fallback : Env) (breaks : Decl → Env → Option (Option String)) :
    Evaluator where
  fallback := fallback
  evaluate d env :=
    match breaks d env with
    | some text => .panicked text
    | none => (Evaluator.calc fallback).evaluate d env

theorem Evaluator.breaking_never (fallback : Env) :
    breaking fallback (fun _ _ => none) = .calc fallback := rfl

/-- Names other than that of the declaration come from the fallback. -/
theorem Evaluator.breaking_foreign {fallback env : Env} {d : Decl} {x : String} {v : Calc.Value}
    {breaks : Decl → Env → Option (Option String)} (other : d.bound ≠ some x)
    (gives : (((breaking fallback breaks).evaluate d env).served fallback).get? x = some v) :
    fallback.get? x = some v := by
  simp only [breaking, Evaluator.calc] at gives
  split at gives
  · exact gives
  · split at gives
    · rename_i y evaluated
      rw [Outcome.served, Calc.Decl.get?_evaluate evaluated other] at gives
      cases gives
    · exact gives

/-- The tree holds this text at some place. -/
inductive DepTree.Mentions (source : String) : DepTree → Prop
  | here (parts : List DepTree) : Mentions source (.node source parts)
  | part {text : String} {parts : List DepTree} {p : DepTree} (member : p ∈ parts)
      (within : Mentions source p) : Mentions source (.node text parts)

theorem DepTree.mentions_node {source text : String} {parts : List DepTree} :
    (node text parts).Mentions source ↔ source = text ∨ ∃ p ∈ parts, p.Mentions source := by
  constructor
  · intro mentioned
    cases mentioned with
    | here => exact Or.inl rfl
    | part member within => exact Or.inr ⟨_, member, within⟩
  · rintro (rfl | ⟨p, member, within⟩)
    · exact .here parts
    · exact .part member within

theorem DepTree.Mentions.congr {source : String} {t u : DepTree} (mentioned : t.Mentions source)
    (alike : t ≈ u) : u.Mentions source := by
  induction mentioned generalizing u with
  | here parts =>
    obtain ⟨text, parts'⟩ := u
    obtain ⟨rfl, _⟩ := (same_iff ..).1 alike
    exact .here parts'
  | part member _ ih =>
    obtain ⟨text, parts'⟩ := u
    obtain ⟨_, left, _⟩ := (same_iff ..).1 alike
    obtain ⟨q, member', twin⟩ := left _ member
    exact .part member' (ih twin)

def Dependency.Mentions (source : String) (t : Dependency) : Prop :=
  ∃ u : DepTree, Quotient.mk _ u = t ∧ u.Mentions source

theorem Dependency.mentions_mk {source : String} {u : DepTree} :
    Dependency.Mentions source (Quotient.mk _ u) ↔ u.Mentions source := by
  constructor
  · rintro ⟨v, same, mentioned⟩
    exact mentioned.congr (Quotient.exact same)
  · exact fun mentioned => ⟨u, rfl, mentioned⟩

namespace Calc

def Section.bound : Section → Option String
  | .decl d => d.bound
  | .broken _ _ => none

/-- The names that a text declares. -/
def declared (text : String) : List String := (parse text).filterMap Section.bound

theorem mem_declared {text : String} {d : Decl} (member : .decl d ∈ parse text) {x : String}
    (bound : d.bound = some x) : x ∈ declared text :=
  List.mem_filterMap.2 ⟨.decl d, member, bound⟩

theorem ofSource_of_parse {text : String} {item : Section} (member : item ∈ parse text) :
    Section.ofSource item.source = item := by
  obtain ⟨source, _, rfl⟩ := List.mem_map.1 member
  rw [Section.source_ofSource]

end Calc

namespace Cells

variable {cs : Cells} {fallback : Env} {parents : List Key} {scope : Scope} {x : String}

/-- Where all parents that give a name agree on it, their order does not matter. -/
theorem get?_input_iff {v : Calc.Value}
    (single : ∀ p ∈ parents, ∀ q ∈ parents, ∀ v w, (cs.servedOr fallback p).get? x = some v →
      (cs.servedOr fallback q).get? x = some w → v = w) :
    (cs.input fallback parents).get? x = some v ↔
      ∃ p ∈ parents, (cs.servedOr fallback p).get? x = some v := by
  rw [get?_input]
  constructor
  · intro found
    obtain ⟨p, hp, gives⟩ := List.exists_of_findSome?_eq_some found
    exact ⟨p, List.mem_reverse.1 hp, gives⟩
  · rintro ⟨p, hp, gives⟩
    cases found : parents.reverse.findSome? fun p => (cs.servedOr fallback p).get? x with
    | none =>
      have missing := List.findSome?_eq_none_iff.1 found p (List.mem_reverse.2 hp)
      rw [gives] at missing
      cases missing
    | some w =>
      obtain ⟨q, hq, gives'⟩ := List.exists_of_findSome?_eq_some found
      exact congrArg some (single q (List.mem_reverse.1 hq) p hp w v gives' gives)

theorem Evaluated.serves {ev : Evaluator} (h : cs.Evaluated ev) {c : Cell} (hc : c ∈ cs.all) :
    (cs.find? c.key).bind Cell.served? = some ((cs.outcome ev c).served ev.fallback) := by
  rw [find?_of_mem h.ordered.ascending hc, Option.bind_some, Cell.served?,
    h.sound.serves c hc (h.done c hc)]

/-- Each name stands for a cell whose declaration binds it. -/
def Binds (cs : Cells) (scope : Scope) : Prop :=
  ∀ x k, scope.get? x = some k → ∃ c ∈ cs.all, c.key = k ∧ c.decl.bound = some x

theorem Binds.start (h : cs.Binds scope) (k : Key) (decl : Decl) (parents : List Key) :
    (cs.start k decl parents).Binds scope := by
  intro x j found
  obtain ⟨c, hc, key⟩ := h x j found
  exact ⟨c, List.mem_append_left _ hc, key⟩

theorem Binds.bind (h : cs.Binds scope) {c : Cell} (hc : c ∈ cs.all) :
    cs.Binds (Scope.bind scope c.decl.bound c.key) := by
  intro x j found
  rw [Scope.get?_bind] at found
  split at found
  · rename_i bound
    cases found
    exact ⟨c, hc, rfl, bound⟩
  · exact h x j found

/-- Of the cells that one scope names, no two bind the same name. -/
theorem Binds.unique (h : cs.Binds scope) (ordered : cs.Ordered) {free : List String} {c d : Cell}
    (hc : c ∈ cs.all) (hd : d ∈ cs.all) (named : c.key ∈ Scope.resolve scope free)
    (named' : d.key ∈ Scope.resolve scope free) (bound : c.decl.bound = some x)
    (bound' : d.decl.bound = some x) : c.key = d.key := by
  have stands : ∀ b ∈ cs.all, b.key ∈ Scope.resolve scope free → b.decl.bound = some x →
      scope.get? x = some b.key := by
    intro b hb named bound
    obtain ⟨y, _, found⟩ := Scope.mem_resolve.1 named
    obtain ⟨b', hb', key, bound'⟩ := h y b.key found
    cases ordered.eq_of_key hb' hb key
    cases Option.some.inj (bound.symm.trans bound')
    exact found
  exact Option.some.inj ((stands c hc named bound).symm.trans (stands d hd named' bound'))

end Cells

namespace Desk

variable {running : Bool} {d d' last : Desk} {item : Section} {items : List Section} {e : Entered}
  {r : Revision} {rs : List Revision} {reports : List Report} {texts texts' all : List String}

/-- All cells are of declarations of these texts, and what a cell reads was named by one scope. -/
structure Woven (texts : List String) (d : Desk) : Prop where
  agrees : d.Agrees
  declared : ∀ c ∈ d.cells.all, ∃ text ∈ texts, .decl c.decl ∈ Calc.parse text
  names : d.cells.Binds d.scope
  parents : ∀ c ∈ d.cells.all, ∃ scope, d.cells.Binds scope ∧
    c.parents = (Scope.resolve scope c.decl.free).toList

theorem empty_woven : empty.Woven texts where
  agrees := empty_agrees
  declared := fun _ member => absurd member List.not_mem_nil
  names := fun _ _ found => nomatch found
  parents := fun _ member => absurd member List.not_mem_nil

namespace Woven

theorem turn (h : d.Woven texts) : d.turn.Woven texts where
  agrees := h.agrees.turn
  declared := h.declared
  names := fun _ _ found => nomatch found
  parents := h.parents

theorem read (h : d.Woven texts) {c : Cell} (hc : c ∈ d.cells.all) :
    Section.ofSource c.decl.source = .decl c.decl := by
  obtain ⟨_, _, member⟩ := h.declared c hc
  exact Calc.ofSource_of_parse member

theorem added (h : d.Woven texts) {text : String} (given : text ∈ texts)
    (member : item ∈ Calc.parse text) (add : Added d running item (d', .ok e))
    (few : d'.memo.issued < UInt64.size) : d'.Woven texts := by
  have agrees := h.agrees.added add few
  cases add with
  | broken => exact ⟨agrees, h.declared, h.names, h.parents⟩
  | reused decl key held =>
    obtain ⟨c, hc, rfl, source, _⟩ := h.agrees.cell_of_recorded (Memo.mem_of_lookup held)
    have same : c.decl = decl := by
      have read := h.read hc
      rw [source] at read
      cases (Calc.ofSource_of_parse member).symm.trans read
      rfl
    subst same
    exact ⟨agrees, h.declared, h.names.bind hc, h.parents⟩
  | started decl =>
    have kept : ∀ scope, d.cells.Binds scope → (d.cells.start d.memo.nextKey decl
        (d.recipe decl).parents.toList).Binds scope := fun _ binds => binds.start _ _ _
    have new : (⟨d.memo.nextKey, decl, (d.recipe decl).parents.toList, .waiting⟩ : Cell) ∈
        (d.cells.start d.memo.nextKey decl (d.recipe decl).parents.toList).all :=
      List.mem_append_right _ (List.mem_singleton.2 rfl)
    constructor
    · exact agrees
    · intro c hc
      rcases List.mem_append.1 hc with hc | hc
      · exact h.declared c hc
      · cases List.mem_singleton.1 hc
        exact ⟨text, given, member⟩
    · exact (kept _ h.names).bind new
    · intro c hc
      rcases List.mem_append.1 hc with hc | hc
      · obtain ⟨scope, binds, parents⟩ := h.parents c hc
        exact ⟨scope, kept scope binds, parents⟩
      · cases List.mem_singleton.1 hc
        exact ⟨d.scope, kept _ h.names, rfl⟩

/-- What the cells are doing does not matter. -/
theorem of_idle (h : d.idle.Woven texts) (agrees : d.Agrees) : d.Woven texts := by
  have waiting : ∀ c ∈ d.cells.all,
      (⟨c.key, c.decl, c.parents, .waiting⟩ : Cell) ∈ d.idle.cells.all := fun c hc =>
    List.mem_map_of_mem (f := fun c : Cell => { c with phase := .waiting }) hc
  have binds : ∀ {scope}, d.cells.idle.Binds scope → d.cells.Binds scope := by
    intro scope binds x k found
    obtain ⟨_, member, key, bound⟩ := binds x k found
    obtain ⟨c, hc, rfl⟩ := List.mem_map.1 member
    exact ⟨c, hc, key, bound⟩
  constructor
  · exact agrees
  · intro c hc
    exact h.declared ⟨c.key, c.decl, c.parents, .waiting⟩ (waiting c hc)
  · exact binds h.names
  · intro c hc
    obtain ⟨scope, named, parents⟩ := h.parents _ (waiting c hc)
    exact ⟨scope, binds named, parents⟩

end Woven

theorem Editing.woven (h : Editing running d texts rs reports last)
    (few : last.memo.issued < UInt64.size) (given : ∀ text ∈ texts, text ∈ all)
    (start : d.Woven all) : last.Woven all := by
  induction h with
  | nil => exact start
  | @cons d d' last text texts r rs reports reports' entered more ih =>
    have few_here := Nat.lt_of_le_of_lt more.extends.issued few
    refine ih few (fun text member => given text (List.mem_cons_of_mem _ member)) ?_
    refine entered.induction few_here ?_ start.turn
    intro d d' item e member before added few
    exact before.added (given text (List.mem_cons_self ..)) member added few

theorem Agrees.tree_of_cell (h : d.Agrees) {c : Cell} (hc : c ∈ d.cells.all) :
    d.memo.tree c.key = .node c.decl.source (c.parents.map d.memo.tree) := by
  have row : c.row ∈ d.memo.rows := h.recorded ▸ List.mem_map_of_mem hc
  obtain ⟨⟨recipe, k⟩, held, same⟩ := List.mem_map.1 row
  obtain ⟨rfl, source, parents⟩ := Row.mk.inj same
  rw [h.tree_eq held, source, parents]

section Twins

variable {fallback : Env} {breaks breaks' : Decl → Env → Option (Option String)}

/-- Parents that give the same name agree on it: it is their own name and they are one, or it comes
from the fallback, which gives no name that is declared. -/
theorem Woven.single (h : d.Woven texts) (done : d.cells.Evaluated (.breaking fallback breaks))
    (apart : ∀ text ∈ texts, ∀ x ∈ Calc.declared text, fallback.get? x = none) {c : Cell}
    (hc : c ∈ d.cells.all) (x : String) : ∀ p ∈ c.parents, ∀ q ∈ c.parents, ∀ v w,
      (d.cells.servedOr fallback p).get? x = some v →
      (d.cells.servedOr fallback q).get? x = some w → v = w := by
  have origin : ∀ b ∈ d.cells.all, ∀ v, (d.cells.servedOr fallback b.key).get? x = some v →
      b.decl.bound = some x ∨ fallback.get? x = some v := by
    intro b hb v gives
    by_cases own : b.decl.bound = some x
    · exact Or.inl own
    · have served : d.cells.servedOr fallback b.key = _ := done.servedOr hb
      rw [served] at gives
      exact Or.inr (Evaluator.breaking_foreign own gives)
  have missing : ∀ b ∈ d.cells.all, b.decl.bound = some x → fallback.get? x = none := by
    intro b hb own
    obtain ⟨text, given, member⟩ := h.declared b hb
    exact apart text given x (Calc.mem_declared member own)
  intro p hp q hq v w gives gives'
  obtain ⟨b, hb, rfl⟩ := List.mem_map.1 (h.agrees.ordered.parent hc hp).2
  obtain ⟨b', hb', rfl⟩ := List.mem_map.1 (h.agrees.ordered.parent hc hq).2
  rcases origin b hb v gives with own | foreign
  · rcases origin b' hb' w gives' with own' | foreign'
    · obtain ⟨scope, binds, parents⟩ := h.parents c hc
      rw [parents] at hp hq
      have same := binds.unique h.agrees.ordered hb hb' hp hq own own'
      rw [same, gives'] at gives
      exact (Option.some.inj gives).symm
    · rw [missing b hb own] at foreign'
      cases foreign'
  · rcases origin b' hb' w gives' with own' | foreign'
    · rw [missing b' hb' own'] at foreign
      cases foreign
    · exact Option.some.inj (foreign.symm.trans foreign')

theorem Woven.outcome_eq (h : d.Woven texts) (h' : d'.Woven texts')
    (done : d.cells.Evaluated (.breaking fallback breaks))
    (done' : d'.cells.Evaluated (.breaking fallback breaks'))
    (apart : ∀ text ∈ texts, ∀ x ∈ Calc.declared text, fallback.get? x = none)
    (apart' : ∀ text ∈ texts', ∀ x ∈ Calc.declared text, fallback.get? x = none) {c c' : Cell}
    (hc : c ∈ d.cells.all) (hc' : c' ∈ d'.cells.all)
    (tree : d.memo.tree c.key ≈ d'.memo.tree c'.key)
    (alike : ∀ decl env, (d.memo.tree c.key).Mentions decl.source →
      breaks decl env = breaks' decl env) :
    d.cells.outcome (.breaking fallback breaks) c =
      d'.cells.outcome (.breaking fallback breaks') c' := by
  -- Parents have smaller numbers, so the induction is on the number of one of the cells.
  obtain ⟨n, number⟩ : ∃ n, n = c.key.number := ⟨_, rfl⟩
  induction n using Nat.strongRecOn generalizing c c' with
  | ind n ih =>
    rw [h.agrees.tree_of_cell hc] at tree alike
    rw [h'.agrees.tree_of_cell hc'] at tree
    obtain ⟨source, left, right⟩ := (DepTree.same_iff ..).1 tree
    have decl : c.decl = c'.decl := by
      have read := h.read hc
      rw [source, h'.read hc'] at read
      exact (Section.decl.inj read).symm
    have served : ∀ p ∈ c.parents, ∀ q ∈ c'.parents, d.memo.tree p ≈ d'.memo.tree q →
        d.cells.servedOr fallback p = d'.cells.servedOr fallback q := by
      intro p hp q hq tree
      obtain ⟨less, known⟩ := h.agrees.ordered.parent hc hp
      obtain ⟨b, hb, rfl⟩ := List.mem_map.1 known
      obtain ⟨b', hb', rfl⟩ := List.mem_map.1 (h'.agrees.ordered.parent hc' hq).2
      have within : ∀ decl env, (d.memo.tree b.key).Mentions decl.source →
          breaks decl env = breaks' decl env := fun decl env mentioned =>
        alike decl env (.part (List.mem_map_of_mem hp) mentioned)
      have outcome := ih b.key.number (number ▸ Key.lt_iff.1 less) hb hb' tree within rfl
      have here : d.cells.servedOr fallback b.key = _ := done.servedOr hb
      have there : d'.cells.servedOr fallback b'.key = _ := done'.servedOr hb'
      rw [here, there, outcome]
      rfl
    have input : d.cells.input fallback c.parents = d'.cells.input fallback c'.parents := by
      refine SortedMap.ext_get? fun x => Option.ext fun v => ?_
      rw [Cells.get?_input_iff (h.single done apart hc x),
        Cells.get?_input_iff (h'.single done' apart' hc' x)]
      constructor
      · rintro ⟨p, hp, gives⟩
        obtain ⟨_, member, twin⟩ := left _ (List.mem_map_of_mem hp)
        obtain ⟨q, hq, rfl⟩ := List.mem_map.1 member
        exact ⟨q, hq, served p hp q hq twin ▸ gives⟩
      · rintro ⟨q, hq, gives⟩
        obtain ⟨_, member, twin⟩ := right _ (List.mem_map_of_mem hq)
        obtain ⟨p, hp, rfl⟩ := List.mem_map.1 member
        exact ⟨p, hp, served p hp q hq twin ▸ gives⟩
    have here := alike c.decl (d.cells.input fallback c.parents) (.here _)
    simp only [Cells.outcome, Evaluator.breaking] at here ⊢
    rw [here, input, decl]

end Twins

end Desk

namespace Workshop

variable {ev : Evaluator} {capacity : Nat} {texts : List String} {s : Workshop}

theorem AtWork.woven (h : s.AtWork ev capacity texts) (done : s.Done)
    (few : s.memo.issued < UInt64.size) : s.toDesk.Woven texts := by
  obtain ⟨_, edited, _⟩ := h.editing done.texts done.call
  exact (edited.woven few (fun _ member => member) Desk.empty_woven).of_idle h.agrees

/-- A declaration of a text has a cell, whose key is at its place in the order of the text. -/
theorem AtWork.cell_at (h : s.AtWork ev capacity texts) (done : s.Done)
    (few : s.memo.issued < UInt64.size) {a i : Nat} {t : Dependency}
    (tree : Dependency.atPlace texts a i = some (some t)) :
    ∃ c ∈ s.cells.all, s.keyAt a i = some c.key ∧ Quotient.mk _ (s.memo.tree c.key) = t := by
  obtain ⟨_, edited, _⟩ := h.editing done.texts done.call
  have fits := edited.fits (Desk.Extends.refl _) (edited.agrees few Desk.empty_agrees)
  obtain ⟨text, at_a, at_i⟩ := Option.bind_eq_some_iff.1 tree
  obtain ⟨r, here, fits⟩ := forall₂_at fits.flip at_a
  rw [Dependency.ofText, List.getElem?_map] at at_i
  obtain ⟨o, found, named⟩ := Option.map_eq_some_iff.1 at_i
  obtain ⟨u, rfl, rfl⟩ := Option.map_eq_some_iff.1 named
  obtain ⟨p, placed, fit⟩ := forall₂_at fits.flip found
  obtain ⟨_, known, alike⟩ := fit
  have key : p.key ∈ s.cells.keys := Desk.recordedKeys_eq h.agrees ▸ known
  obtain ⟨c, hc, same⟩ := List.mem_map.1 key
  refine ⟨c, hc, ?_, same ▸ Quotient.sound alike⟩
  have orders : Report.orders s.sent = (s.ended.map Call.placed).map Revision.order := by
    rw [h.orders, List.map_map]
    rfl
  rw [keyAt, orders, List.getElem?_map, here, same]
  simp [Revision.order, placed]

/-- Of two worksheets at rest, with any texts behind them and any others on them, take declarations
with the same tree. Their results are the same and they hand on the same environment, if the fallback
gives no name that is declared, and if an evaluator that breaks down on a text of the tree does so in
both. -/
theorem isolated (fallback : Env) (breaks breaks' : Decl → Env → Option (Option String))
    (capacity capacity' : Nat) (texts texts' : List String) (moves moves' : List Move)
    (s s' : Workshop)
    (work : (start capacity texts).work (.breaking fallback breaks) moves = some s)
    (work' : (start capacity' texts').work (.breaking fallback breaks') moves' = some s')
    (few : s.memo.issued < UInt64.size) (few' : s'.memo.issued < UInt64.size)
    (done : s.Done) (done' : s'.Done)
    (apart : ∀ text ∈ texts ++ texts', ∀ x ∈ Calc.declared text, fallback.get? x = none)
    (a i b j : Nat) (t : Dependency) (tree : Dependency.atPlace texts a i = some (some t))
    (tree' : Dependency.atPlace texts' b j = some (some t))
    (alike : ∀ decl env, t.Mentions decl.source → breaks decl env = breaks' decl env) :
    ∃ k k' entry env, s.keyAt a i = some k ∧ s'.keyAt b j = some k' ∧
      s.hub.state.entries.get? k = some entry ∧ s'.hub.state.entries.get? k' = some entry ∧
      entry.status.isSome ∧ (s.cells.find? k).bind Cell.served? = some env ∧
      (s'.cells.find? k').bind Cell.served? = some env := by
  have h := atWork_of_work work few
  have h' := atWork_of_work work' few'
  obtain ⟨c, hc, key, rfl⟩ := h.cell_at done few tree
  obtain ⟨c', hc', key', trees⟩ := h'.cell_at done' few' tree'
  have woven := h.woven done few
  have woven' := h'.woven done' few'
  have twins : s.memo.tree c.key ≈ s'.memo.tree c'.key := DepTree.same_symm (Quotient.exact trees)
  have outcome := woven.outcome_eq woven' (h.evaluated done) (h'.evaluated done')
    (fun text given => apart text (List.mem_append_left _ given))
    (fun text given => apart text (List.mem_append_right _ given)) hc hc' twins
    fun decl env mentioned => alike decl env (Dependency.mentions_mk.2 mentioned)
  have source : c.decl.source = c'.decl.source := by
    rw [woven.agrees.tree_of_cell hc, woven'.agrees.tree_of_cell hc'] at twins
    exact ((DepTree.same_iff ..).1 twins).1
  obtain ⟨_, edited, same⟩ := h.editing done.texts done.call
  obtain ⟨_, edited', same'⟩ := h'.editing done'.texts done'.call
  have known := h.get?_cell done few edited same hc
  have known' := h'.get?_cell done' few' edited' same' hc'
  have served := (h.evaluated done).serves hc
  have served' := (h'.evaluated done').serves hc'
  rw [← source, ← outcome] at known'
  rw [← outcome] at served'
  exact ⟨c.key, c'.key, _, _, key, key', known, known', rfl, served, served'⟩

theorem isolated_when_broken : ∃ (s s' : Workshop) (entry : Entry),
    (start 4 ["k = 1\na = q\nc = z + a"]).work
      (.breaking ((∅ : Env).insert "z" (.int 7)) fun d _ =>
        if d.source = "k = 1" then some none else none)
      [.turn, .add, .add, .add, .close, .finish ⟨0⟩, .finish ⟨1⟩, .finish ⟨2⟩, .receive, .receive,
        .receive, .receive, .receive, .receive, .receive] = some s ∧
    (start 1 ["a = q\nc = z + a"]).work
      (.breaking ((∅ : Env).insert "z" (.int 7)) fun _ _ => none)
      [.turn, .add, .finish ⟨0⟩, .add, .finish ⟨1⟩, .close, .receive, .receive, .receive, .receive,
        .receive] = some s' ∧
    s.keyAt 0 2 = some ⟨2⟩ ∧ s'.keyAt 0 1 = some ⟨1⟩ ∧
    entry.status = some (.failed "unbound variable 'a'") ∧
    s.hub.state.entries.get? ⟨2⟩ = some entry ∧ s'.hub.state.entries.get? ⟨1⟩ = some entry := by
  have ends : ((start 4 ["k = 1\na = q\nc = z + a"]).work
      (.breaking ((∅ : Env).insert "z" (.int 7)) fun d _ =>
        if d.source = "k = 1" then some none else none)
      [.turn, .add, .add, .add, .close, .finish ⟨0⟩, .finish ⟨1⟩, .finish ⟨2⟩, .receive, .receive,
        .receive, .receive, .receive, .receive, .receive]).map (fun s => (s.texts, s.call.isNone,
          s.cells.waiting, s.inbox, s.memo.issued, s.keyAt 0 2)) =
      some ([], true, [], [], 3, some ⟨2⟩) := by cbv
  have ends' : ((start 1 ["a = q\nc = z + a"]).work
      (.breaking ((∅ : Env).insert "z" (.int 7)) fun _ _ => none)
      [.turn, .add, .finish ⟨0⟩, .add, .finish ⟨1⟩, .close, .receive, .receive, .receive, .receive,
        .receive]).map (fun s => (s.texts, s.call.isNone, s.cells.waiting, s.inbox, s.memo.issued,
          s.keyAt 0 1, (s.hub.state.entries.get? ⟨1⟩).bind Entry.status)) =
      some ([], true, [], [], 2, some ⟨1⟩, some (.failed "unbound variable 'a'")) := by cbv
  obtain ⟨s, work, facts⟩ := Option.map_eq_some_iff.1 ends
  obtain ⟨s', work', facts'⟩ := Option.map_eq_some_iff.1 ends'
  simp only [Prod.mk.injEq, Option.isNone_iff_eq_none] at facts facts'
  obtain ⟨texts, call, waiting, inbox, issued, key⟩ := facts
  obtain ⟨texts', call', waiting', inbox', issued', key', status⟩ := facts'
  have done : s.Done := ⟨texts, call, Cells.not_waiting_of_nil waiting, inbox⟩
  have done' : s'.Done := ⟨texts', call', Cells.not_waiting_of_nil waiting', inbox'⟩
  have apart : ∀ text ∈ ["k = 1\na = q\nc = z + a"] ++ ["a = q\nc = z + a"],
      ∀ x ∈ Calc.declared text, ((∅ : Env).insert "z" (.int 7)).get? x = none := by
    have names : Calc.declared "k = 1\na = q\nc = z + a" = ["k", "a", "c"] := by cbv
    have names' : Calc.declared "a = q\nc = z + a" = ["a", "c"] := by cbv
    simp only [List.cons_append, List.nil_append, List.forall_mem_cons, names, names']
    decide
  have tree : Dependency.atPlace ["k = 1\na = q\nc = z + a"] 0 2 =
      some (some (Quotient.mk _ (.node "c = z + a" [.node "a = q" []]))) := by cbv
  have tree' : Dependency.atPlace ["a = q\nc = z + a"] 0 1 =
      some (some (Quotient.mk _ (.node "c = z + a" [.node "a = q" []]))) := by cbv
  have alike : ∀ (decl : Decl) (_ : Env), Dependency.Mentions decl.source
      (Quotient.mk _ (.node "c = z + a" [.node "a = q" []])) →
      (if decl.source = "k = 1" then some (none : Option String) else none) = none := by
    intro decl _ mentioned
    refine if_neg fun same => ?_
    rw [same, Dependency.mentions_mk] at mentioned
    simp [DepTree.mentions_node] at mentioned
  obtain ⟨k, k', entry, _, at_k, at_k', known, known', _⟩ :=
    isolated _ _ _ 4 1 _ _ _ _ _ _ work work' (by rw [issued]; decide) (by rw [issued']; decide)
      done done' apart 0 2 0 1 _ tree tree' alike
  cases Option.some.inj (key.symm.trans at_k)
  cases Option.some.inj (key'.symm.trans at_k')
  rw [known'] at status
  exact ⟨_, _, entry, work, work', key, key', status, known, known'⟩

end Workshop

end Worksheet
