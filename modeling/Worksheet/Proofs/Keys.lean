import Worksheet.Proofs.Dependency
import Worksheet.Proofs.Sequence
/-! Keys stand for dependency trees: two declarations of any two texts have the same key just when
their trees are the same. -/
namespace Worksheet

open Calc (Decl Section)

/-- The tree that the memo has on record for a key. -/
def Memo.tree (m : Memo) (k : Key) : DepTree :=
  match m.entries.find? (·.2 = k) with
  | none => .node "" []
  | some (r, _) =>
    .node r.source ((r.parents.toList.filter (· < k)).attach.map fun ⟨p, _⟩ => tree m p)
termination_by k.number
decreasing_by
  rename_i below
  exact Key.lt_iff.1 (by simpa using (List.mem_filter.1 below).2)

namespace Desk

variable {running : Bool} {d d' last final : Desk} {item : Section} {items : List Section}
  {e : Entered} {r : Revision} {reports : List Report} {texts : List String} {rs : List Revision}
  {before : List Section}

theorem mem_recordedKeys {recipe : Recipe} {k : Key} (held : (recipe, k) ∈ d.memo.entries) :
    k ∈ d.recordedKeys := List.mem_map_of_mem (f := Prod.snd) held

theorem Agrees.recipe_parents (h : d.Agrees) {recipe : Recipe} {k : Key}
    (held : (recipe, k) ∈ d.memo.entries) : ∀ p ∈ recipe.parents, p < k ∧ p ∈ d.recordedKeys := by
  rw [recordedKeys_eq h]
  exact h.ordered.parents _ (h.row_of_recorded held)

theorem Agrees.tree_eq (h : d.Agrees) {recipe : Recipe} {k : Key}
    (held : (recipe, k) ∈ d.memo.entries) :
    d.memo.tree k = .node recipe.source (recipe.parents.toList.map d.memo.tree) := by
  have found : d.memo.entries.find? (·.2 = k) = some (recipe, k) := by
    have once := h.recorded_once
    simp only [recordedKeys] at once
    generalize d.memo.entries = entries at held once
    induction entries with
    | nil => cases held
    | cons e entries ih =>
      obtain ⟨new, once⟩ := List.nodup_cons.1 once
      rcases List.mem_cons.1 held with rfl | held
      · simp
      · have other : e.2 ≠ k := fun same => new (same ▸ List.mem_map_of_mem (f := Prod.snd) held)
        rw [List.find?_cons_of_neg (by simpa using other)]
        exact ih held once
  have below : recipe.parents.toList.filter (· < k) = recipe.parents.toList :=
    List.filter_eq_self.2 fun p hp => decide_eq_true (h.recipe_parents held p hp).1
  rw [Memo.tree, found]
  simp only [List.attach_map_val, below]

theorem Added.recipes_once {outcome : Except Failure Entered}
    (add : Added d running item (d', outcome)) (once : (d.memo.entries.map Prod.fst).Nodup) :
    (d'.memo.entries.map Prod.fst).Nodup := by
  cases add with
  | broken => exact once
  | reused => exact once
  | lost => exact once
  | orphan => exact once
  | started decl new =>
    rw [List.map_append]
    refine List.nodup_append.2 ⟨once, List.nodup_singleton _, ?_⟩
    rintro _ held _ fresh rfl
    cases List.mem_singleton.1 fresh
    obtain ⟨⟨recipe, k⟩, held, rfl⟩ := List.mem_map.1 held
    have missing := List.find?_eq_none.1 (Option.map_eq_none_iff.1 new) _ held
    simp at missing

theorem Editing.recipes_once (h : Editing running .empty texts rs reports last)
    (few : last.memo.issued < UInt64.size) : (last.memo.entries.map Prod.fst).Nodup :=
  h.induction (P := fun d => (d.memo.entries.map Prod.fst).Nodup) few id
    (fun once added _ => added.recipes_once once) List.nodup_nil

/-- Keys on record are the same when their trees are. -/
theorem Agrees.tree_inj (h : d.Agrees) (once : (d.memo.entries.map Prod.fst).Nodup) {j k : Key}
    (hj : j ∈ d.recordedKeys) (hk : k ∈ d.recordedKeys)
    (alike : d.memo.tree j ≈ d.memo.tree k) : j = k := by
  -- Parents have smaller numbers, so the induction is on the number of one of the keys.
  obtain ⟨n, number⟩ : ∃ n, n = j.number := ⟨_, rfl⟩
  induction n using Nat.strongRecOn generalizing j k with
  | ind n ih =>
    obtain ⟨⟨recipe, _⟩, held, rfl⟩ := List.mem_map.1 hj
    obtain ⟨⟨recipe', _⟩, held', rfl⟩ := List.mem_map.1 hk
    rw [h.tree_eq held, h.tree_eq held'] at alike
    obtain ⟨source, left, right⟩ := (DepTree.same_iff ..).1 alike
    have same_parent : ∀ p ∈ recipe.parents, ∀ q ∈ recipe'.parents,
        d.memo.tree p ≈ d.memo.tree q → p = q := by
      intro p hp q hq alike
      obtain ⟨less, known⟩ := h.recipe_parents held p hp
      have smaller : p.number < n := number ▸ Key.lt_iff.1 less
      exact ih p.number smaller known (h.recipe_parents held' q hq).2 alike rfl
    have parents : recipe.parents = recipe'.parents := by
      refine KeySet.ext fun p => ⟨fun hp => ?_, fun hp => ?_⟩
      · obtain ⟨_, member, alike⟩ := left _ (List.mem_map_of_mem hp)
        obtain ⟨q, hq, rfl⟩ := List.mem_map.1 member
        exact same_parent p hp q hq alike ▸ hq
      · obtain ⟨_, member, alike⟩ := right _ (List.mem_map_of_mem hp)
        obtain ⟨q, hq, rfl⟩ := List.mem_map.1 member
        exact same_parent q hq p hp alike ▸ hq
    have recipes : recipe = recipe' := by
      obtain ⟨s, ps⟩ := recipe
      obtain ⟨s', ps'⟩ := recipe'
      cases source
      cases parents
      rfl
    exact congrArg Prod.snd (List.inj_on_of_nodup_map once held held' recipes)

/-- The key of an item fits the tree of the item. -/
def Fits (d : Desk) (tree : Option DepTree) (p : Placed) : Prop :=
  match tree with
  | none => p.placement = .broken
  | some t => p.placement ≠ .broken ∧ p.key ∈ d.recordedKeys ∧ d.memo.tree p.key ≈ t

/-- Every name stands for a tree just when it stands for a key, and the key is that of the tree. -/
def NamesFit (final d : Desk) (before : List Section) : Prop :=
  ∀ x, (d.scope.get? x = none ∧ DepTree.named before x = none) ∨
    ∃ k t, d.scope.get? x = some k ∧ DepTree.named before x = some t ∧ final.memo.tree k ≈ t

theorem NamesFit.decl (fit : NamesFit final d before) (agrees : final.Agrees) {decl : Decl} {k : Key}
    (held : (d.recipe decl, k) ∈ final.memo.entries) :
    final.memo.tree k ≈ DepTree.ofDecl before decl := by
  rw [agrees.tree_eq held]
  refine (DepTree.same_iff ..).2 ⟨rfl, ?_, ?_⟩
  · intro _ member
    obtain ⟨p, parent, rfl⟩ := List.mem_map.1 member
    obtain ⟨x, hx, bound⟩ := Scope.mem_resolve.1 parent
    rcases fit x with ⟨missing, _⟩ | ⟨k, t, found, named, alike⟩
    · rw [missing] at bound
      cases bound
    · cases Option.some.inj (bound.symm.trans found)
      exact ⟨t, List.mem_filterMap.2 ⟨x, hx, named⟩, alike⟩
  · intro t member
    obtain ⟨x, hx, named⟩ := List.mem_filterMap.1 member
    rcases fit x with ⟨_, missing⟩ | ⟨k, u, found, named', alike⟩
    · rw [missing] at named
      cases named
    · cases Option.some.inj (named.symm.trans named')
      exact ⟨_, List.mem_map_of_mem (Scope.mem_resolve.2 ⟨x, hx, found⟩), alike⟩

theorem NamesFit.bind (fit : NamesFit final d before) {decl : Decl} {k : Key}
    (scope : d'.scope = Scope.bind d.scope decl.bound k)
    (alike : final.memo.tree k ≈ DepTree.ofDecl before decl) :
    NamesFit final d' (.decl decl :: before) := by
  intro x
  have named : DepTree.named (.decl decl :: before) x =
      if decl.bound = some x then some (DepTree.ofDecl before decl) else DepTree.named before x := rfl
  rw [scope, Scope.get?_bind, named]
  by_cases here : decl.bound = some x
  · rw [if_pos here, if_pos here]
    exact Or.inr ⟨k, _, rfl, rfl, alike⟩
  · rw [if_neg here, if_neg here]
    exact fit x

theorem Entering.fits (h : Entering running d items r reports last) (later : Extends last final)
    (agrees : final.Agrees) (fit : NamesFit final d before) :
    List.Forall₂ final.Fits (DepTree.ofItems before items) r := by
  induction h generalizing before with
  | nil => exact .nil
  | @cons d d' last item items e r reports added more ih =>
    cases item with
    | broken source err =>
      obtain ⟨rfl, rfl⟩ := added.of_broken
      exact .cons rfl (ih later fit)
    | decl decl =>
      obtain ⟨held, scope, placement⟩ := added.of_decl
      have held' := (more.extends.trans later).entries.subset held
      have alike := fit.decl agrees held'
      exact .cons ⟨placement, mem_recordedKeys held', alike⟩ (ih later (fit.bind scope alike))

theorem Editing.fits (h : Editing running d texts rs reports last) (later : Extends last final)
    (agrees : final.Agrees) :
    List.Forall₂ (fun text r => List.Forall₂ final.Fits (DepTree.ofItems [] (Calc.parse text)) r)
      texts rs := by
  induction h with
  | nil => exact .nil
  | cons entered more ih =>
    refine .cons (entered.fits (more.extends.trans later) agrees ?_) (ih later)
    exact fun x => Or.inl ⟨rfl, rfl⟩

theorem Entering.known (h : Entering running d items r reports last) :
    ∀ p ∈ r, p.placement ≠ .broken → p.key ∈ last.recordedKeys := by
  induction h with
  | nil => exact fun _ member => absurd member List.not_mem_nil
  | @cons d d' last item items e r reports added more ih =>
    intro p member placement
    rcases List.mem_cons.1 member with rfl | member
    · cases item with
      | broken source err => exact absurd (added.of_broken.2 ▸ rfl) placement
      | decl decl => exact mem_recordedKeys (more.extends.entries.subset added.of_decl.1)
    · exact ih p member placement

theorem Editing.known (h : Editing running d texts rs reports last) :
    ∀ r ∈ rs, ∀ p ∈ r, p.placement ≠ .broken → p.key ∈ last.recordedKeys := by
  induction h with
  | nil => exact fun _ member => absurd member List.not_mem_nil
  | cons entered more ih =>
    intro r member p hp placement
    rcases List.mem_cons.1 member with rfl | member
    · have held := entered.known p hp placement
      rw [more.recordedKeys]
      exact List.mem_append_left _ held
    · exact ih r member p hp placement

end Desk

theorem Revision.mem_startedKeys {r : Revision} {k : Key} :
    k ∈ r.startedKeys ↔ ∃ p ∈ r, p.placement = .started ∧ p.key = k := by
  simp [startedKeys, and_assoc]

/-- The key of a text that cannot be read stands nowhere else. -/
theorem Revision.broken_alone {r : Revision} (fresh : r.freshKeys.Pairwise (· < ·))
    (known : ∀ p ∈ r, p.placement ≠ .broken → p.key ∈ r.startedKeys) :
    r.Pairwise fun p q => p.placement = .broken ∨ q.placement = .broken → p.key ≠ q.key := by
  have differ : r.Pairwise fun p q => p.placement ≠ .reused → q.placement ≠ .reused →
      p.key ≠ q.key := by
    have ascending := List.pairwise_filter.1 (List.pairwise_map.1 fresh)
    refine ascending.imp ?_
    intro p q less hp hq
    exact StrictOrder.ne_of_lt (less (decide_eq_true hp) (decide_eq_true hq))
  have once : r.freshKeys.Nodup := fresh.imp StrictOrder.ne_of_lt
  -- A key that is reused is that of a started item, which is not the broken one.
  have apart : ∀ p ∈ r, p.placement = .broken → ∀ q ∈ r, q.placement = .reused →
      p.key ≠ q.key := by
    intro p hp broken q hq reused same
    obtain ⟨o, ho, started, key⟩ := Revision.mem_startedKeys.1 (known q hq (by simp [reused]))
    have hp' : p ∈ r.filter (·.placement ≠ .reused) := List.mem_filter.2 ⟨hp, by simp [broken]⟩
    have ho' : o ∈ r.filter (·.placement ≠ .reused) := List.mem_filter.2 ⟨ho, by simp [started]⟩
    have eq : p = o := List.inj_on_of_nodup_map once hp' ho' (same.trans key.symm)
    rw [eq, started] at broken
    cases broken
  refine differ.imp_of_mem ?_
  intro p q hp hq differ broken
  rcases broken with broken | broken
  · by_cases reused : q.placement = .reused
    · exact apart p hp broken q hq reused
    · exact differ (by simp [broken]) reused
  · by_cases reused : p.placement = .reused
    · exact (apart q hq broken p hp reused).symm
    · exact differ reused (by simp [broken])

theorem position_unique {α : Type} {R : α → α → Prop} (symmetric : ∀ x y, R x y → R y x)
    {ls : List (List α)} (h : ls.flatten.Pairwise R) {a b i j : Nat} {l l' : List α} {x y : α}
    (hl : ls[a]? = some l) (hx : l[i]? = some x) (hl' : ls[b]? = some l') (hy : l'[j]? = some y)
    (not : ¬ R x y) : a = b ∧ i = j := by
  obtain ⟨inside, across⟩ := List.pairwise_flatten.1 h
  obtain ⟨ha, rfl⟩ := List.getElem?_eq_some_iff.1 hl
  obtain ⟨hb, rfl⟩ := List.getElem?_eq_some_iff.1 hl'
  have memx := List.mem_of_getElem? hx
  have memy := List.mem_of_getElem? hy
  rcases Nat.lt_trichotomy a b with less | rfl | less
  · exact absurd (List.pairwise_iff_getElem.1 across a b ha hb less x memx y memy) not
  · refine ⟨rfl, ?_⟩
    have inside := List.pairwise_iff_getElem.1 (inside _ (List.getElem_mem ha))
    obtain ⟨hi, rfl⟩ := List.getElem?_eq_some_iff.1 hx
    obtain ⟨hj, rfl⟩ := List.getElem?_eq_some_iff.1 hy
    rcases Nat.lt_trichotomy i j with less | same | less
    · exact absurd (inside i j hi hj less) not
    · exact same
    · exact absurd (symmetric _ _ (inside j i hj hi less)) not
  · have before := List.pairwise_iff_getElem.1 across b a hb ha less y memy x memx
    exact absurd (symmetric _ _ before) not

theorem forall₂_at {α β : Type} {R : α → β → Prop} {l : List α} {l' : List β}
    (h : List.Forall₂ R l l') {i : Nat} {y : β} (hy : l'[i]? = some y) :
    ∃ x, l[i]? = some x ∧ R x y := by
  induction h generalizing i with
  | nil => cases hy
  | cons here more ih =>
    cases i with
    | zero => cases hy; exact ⟨_, rfl, here⟩
    | succ i => exact ih hy

namespace Dependency

/-- What stands at a place of the texts: a declaration has a tree, other items have none. -/
def atPlace (texts : List String) (a i : Nat) : Option (Option Dependency) :=
  texts[a]?.bind fun text => (ofText text)[i]?

/-- The trees that a text has, and that no text before it has. -/
def firstIn (earlier : List String) (text : String) : Set Dependency :=
  {t | some t ∈ ofText text ∧ ∀ u ∈ earlier, some t ∉ ofText u}

end Dependency

namespace Desk

variable {running : Bool} {d last final : Desk} {r : Revision} {reports : List Report}
  {texts : List String} {rs : List Revision} {trees : List (Option DepTree)}

theorem Fits.tree_mem (fits : List.Forall₂ final.Fits trees r) {p : Placed} (hp : p ∈ r)
    (placement : p.placement ≠ .broken) :
    p.key ∈ final.recordedKeys ∧ ∃ t, some t ∈ trees ∧ final.memo.tree p.key ≈ t := by
  obtain ⟨i, at_i⟩ := List.mem_iff_getElem?.1 hp
  obtain ⟨tree, found, fit⟩ := forall₂_at fits at_i
  cases tree with
  | none => exact absurd fit placement
  | some t => exact ⟨fit.2.1, t, List.mem_of_getElem? found, fit.2.2⟩

theorem Fits.placed_mem (fits : List.Forall₂ final.Fits trees r) {t : DepTree}
    (ht : some t ∈ trees) : ∃ p ∈ r, p.placement ≠ .broken ∧ p.key ∈ final.recordedKeys ∧
      final.memo.tree p.key ≈ t := by
  obtain ⟨i, at_i⟩ := List.mem_iff_getElem?.1 ht
  obtain ⟨p, found, fit⟩ := forall₂_at fits.flip at_i
  exact ⟨p, List.mem_of_getElem? found, fit⟩

theorem Fits.lengths (fits : List.Forall₂
      (fun text r => List.Forall₂ final.Fits (DepTree.ofItems [] (Calc.parse text)) r) texts rs) :
    (rs.map Revision.order).map List.length =
      texts.map fun text => (Dependency.ofText text).length := by
  induction fits with
  | nil => rfl
  | cons fit more ih =>
    simp only [List.map_cons, ih, Revision.order, Dependency.ofText, List.length_map,
      fit.length_eq]

theorem Fits.count (fits : List.Forall₂ final.Fits trees r) :
    r.count .started + r.count .reused = trees.countP Option.isSome := by
  induction fits with
  | nil => rfl
  | @cons tree p trees r fit more ih =>
    simp only [Revision.count] at ih ⊢
    cases tree with
    | none =>
      have broken : p.placement = .broken := fit
      simp [broken, ih]
    | some t =>
      have placement : p.placement ≠ .broken := fit.1
      cases found : p.placement with
      | broken => exact absurd found placement
      | reused => simp [found, ← ih]; omega
      | started => simp [found, ← ih]; omega

theorem placed_at {a i : Nat} {k : Key}
    (key : (rs.map Revision.order)[a]?.bind (·[i]?) = some k) :
    ∃ r p, rs[a]? = some r ∧ r[i]? = some p ∧ p.key = k := by
  obtain ⟨keys, order, at_i⟩ := Option.bind_eq_some_iff.1 key
  rw [List.getElem?_map] at order
  obtain ⟨r, here, rfl⟩ := Option.map_eq_some_iff.1 order
  rw [Revision.order, List.getElem?_map] at at_i
  obtain ⟨p, placed, key⟩ := Option.map_eq_some_iff.1 at_i
  exact ⟨r, p, here, placed, key⟩

theorem Editing.key_at (h : Editing running .empty texts rs reports last)
    (few : last.memo.issued < UInt64.size) {a i : Nat} {o : Option Dependency} {k : Key}
    (tree : Dependency.atPlace texts a i = some o)
    (key : (rs.map Revision.order)[a]?.bind (·[i]?) = some k) :
    ∃ r p t, rs[a]? = some r ∧ r[i]? = some p ∧ p.key = k ∧ last.Fits t p ∧
      t.map (Quotient.mk _) = o := by
  have fits := h.fits (Extends.refl last) (h.agrees few empty_agrees)
  obtain ⟨r, p, here, placed, key⟩ := placed_at key
  obtain ⟨text, found, fits⟩ := forall₂_at fits here
  obtain ⟨t, at_i, fit⟩ := forall₂_at fits placed
  refine ⟨r, p, t, here, placed, key, fit, ?_⟩
  simpa [Dependency.atPlace, found, Dependency.ofText, at_i] using tree

theorem Editing.key_eq_iff (h : Editing running .empty texts rs reports last)
    (few : last.memo.issued < UInt64.size) {a b i j : Nat} {t u : Dependency} {k l : Key}
    (tree : Dependency.atPlace texts a i = some (some t))
    (tree' : Dependency.atPlace texts b j = some (some u))
    (key : (rs.map Revision.order)[a]?.bind (·[i]?) = some k)
    (key' : (rs.map Revision.order)[b]?.bind (·[j]?) = some l) : k = l ↔ t = u := by
  obtain ⟨_, p, t, _, _, rfl, fit, named⟩ := h.key_at few tree key
  obtain ⟨_, q, u, _, _, rfl, fit', named'⟩ := h.key_at few tree' key'
  obtain ⟨t, rfl, rfl⟩ := Option.map_eq_some_iff.1 named
  obtain ⟨u, rfl, rfl⟩ := Option.map_eq_some_iff.1 named'
  obtain ⟨_, held, alike⟩ := fit
  obtain ⟨_, held', alike'⟩ := fit'
  constructor
  · intro same
    rw [same] at alike
    exact Quotient.sound (DepTree.same_trans (DepTree.same_symm alike) alike')
  · intro same
    have agrees := h.agrees few empty_agrees
    refine agrees.tree_inj (h.recipes_once few) held held' ?_
    exact DepTree.same_trans alike
      (DepTree.same_trans (Quotient.exact same) (DepTree.same_symm alike'))

theorem mem_ofText {text : String} {t : Dependency} (ht : some t ∈ Dependency.ofText text) :
    ∃ u, some u ∈ DepTree.ofItems [] (Calc.parse text) ∧ Quotient.mk _ u = t := by
  obtain ⟨o, ho, named⟩ := List.mem_map.1 ht
  obtain ⟨u, rfl, same⟩ := Option.map_eq_some_iff.1 named
  exact ⟨u, ho, same⟩

theorem ofText_mem {text : String} {u : DepTree}
    (hu : some u ∈ DepTree.ofItems [] (Calc.parse text)) :
    some (Quotient.mk _ u) ∈ Dependency.ofText text := List.mem_map.2 ⟨some u, hu, rfl⟩

theorem Extends.recordedKeys (h : Extends d last) : d.recordedKeys <+: last.recordedKeys :=
  h.entries.map Prod.snd

section FirstTrees

variable {mid d' : Desk} {earlier : List String} {text : String} {reports' : List Report}

theorem Entering.started_apart (entered : Entering running mid.turn (Calc.parse text) r reports d')
    (later : Extends d' last) (agrees : last.Agrees) : r.startedKeys.Nodup ∧
      (∀ j ∈ mid.recordedKeys, ∀ k ∈ r.startedKeys, j ≠ k) ∧
      ∀ k ∈ r.startedKeys, k ∈ last.recordedKeys := by
  have recorded : d'.recordedKeys = mid.recordedKeys ++ r.startedKeys := entered.recordedKeys
  have once := later.recordedKeys.sublist.nodup agrees.recorded_once
  rw [recorded] at once
  obtain ⟨_, nodup, apart⟩ := List.nodup_append.1 once
  refine ⟨nodup, apart, fun k hk => later.recordedKeys.subset ?_⟩
  rw [recorded]
  exact List.mem_append_right _ hk

theorem Entering.started_of_first
    (entered : Entering running mid.turn (Calc.parse text) r reports d')
    (before : Editing running .empty earlier rs reports' mid) (later : Extends d' last)
    (agrees : last.Agrees) {t : Dependency} (first : t ∈ Dependency.firstIn earlier text) :
    ∃ k ∈ r.startedKeys, Quotient.mk _ (last.memo.tree k) = t := by
  obtain ⟨ht, new⟩ := first
  obtain ⟨u, hu, rfl⟩ := mem_ofText ht
  have fits : List.Forall₂ last.Fits (DepTree.ofItems [] (Calc.parse text)) r :=
    entered.fits later agrees fun x => Or.inl ⟨rfl, rfl⟩
  have fits_before := before.fits
    (Extends.trans ⟨entered.extends.issued, entered.extends.entries⟩ later) agrees
  obtain ⟨p, hp, placement, _, alike⟩ := Fits.placed_mem fits hu
  have known := entered.known p hp placement
  rw [entered.recordedKeys] at known
  rcases List.mem_append.1 known with old | started
  · -- The key was started by an earlier text, which has the same tree then.
    have old : p.key ∈ mid.recordedKeys := old
    rw [before.recordedKeys] at old
    obtain ⟨r₁, hr, started⟩ := List.mem_flatMap.1
      ((List.mem_append.1 old).resolve_left List.not_mem_nil)
    obtain ⟨q, hq, started, key⟩ := Revision.mem_startedKeys.1 started
    obtain ⟨b, at_b⟩ := List.mem_iff_getElem?.1 hr
    obtain ⟨early, found, fit⟩ := forall₂_at fits_before at_b
    obtain ⟨_, v, hv, alike'⟩ := Fits.tree_mem fit hq (by simp [started])
    rw [key] at alike'
    have same : Quotient.mk _ v = Quotient.mk _ u :=
      Quotient.sound (DepTree.same_trans (DepTree.same_symm alike') alike)
    have member := ofText_mem hv
    rw [same] at member
    exact absurd member (new early (List.mem_of_getElem? found))
  · exact ⟨p.key, started, Quotient.sound alike⟩

theorem Entering.first_of_started
    (entered : Entering running mid.turn (Calc.parse text) r reports d')
    (before : Editing running .empty earlier rs reports' mid) (later : Extends d' last)
    (agrees : last.Agrees) (recipes : (last.memo.entries.map Prod.fst).Nodup) {k : Key}
    (started : k ∈ r.startedKeys) :
    Quotient.mk _ (last.memo.tree k) ∈ Dependency.firstIn earlier text := by
  have fits : List.Forall₂ last.Fits (DepTree.ofItems [] (Calc.parse text)) r :=
    entered.fits later agrees fun x => Or.inl ⟨rfl, rfl⟩
  have fits_before := before.fits
    (Extends.trans ⟨entered.extends.issued, entered.extends.entries⟩ later) agrees
  obtain ⟨_, apart, _⟩ := entered.started_apart later agrees
  obtain ⟨p, hp, placement, rfl⟩ := Revision.mem_startedKeys.1 started
  obtain ⟨known, u, hu, alike⟩ := Fits.tree_mem fits hp (by simp [placement])
  have same : Quotient.mk DepTree.setoid (last.memo.tree p.key) = Quotient.mk _ u :=
    Quotient.sound alike
  constructor
  · rw [same]
    exact ofText_mem hu
  · intro early he ht
    obtain ⟨b, at_b⟩ := List.mem_iff_getElem?.1 he
    obtain ⟨v, hv, eq⟩ := mem_ofText ht
    obtain ⟨r₁, at_b', fit⟩ := forall₂_at fits_before.flip at_b
    obtain ⟨q, hq, placement', held, alike'⟩ := Fits.placed_mem fit hv
    have key : q.key = p.key := agrees.tree_inj recipes held known
      (DepTree.same_trans alike' (Quotient.exact eq))
    have old := before.known r₁ (List.mem_of_getElem? at_b') q hq placement'
    exact apart _ old _ started key

end FirstTrees

/-- A text starts as many cells as there are trees that it is the first to have. -/
theorem Editing.started_count {earlier more : List String} {text : String}
    (h : Editing running .empty (earlier ++ text :: more) rs reports last)
    (few : last.memo.issued < UInt64.size) (here : rs[earlier.length]? = some r) :
    r.count .started = (Dependency.firstIn earlier text).ncard := by
  have agrees := h.agrees few empty_agrees
  have recipes := h.recipes_once few
  obtain ⟨mid, rs₁, rs₂, _, _, before, behind, rfl, _⟩ := h.split
  have length := before.length
  cases behind with
  | @cons _ d' _ _ _ r' _ _ _ entered others =>
    have same : r' = r := by
      rw [← length, List.getElem?_append_right (Nat.le_refl _), Nat.sub_self] at here
      exact Option.some.inj here
    subst same
    obtain ⟨once, _, known⟩ := entered.started_apart others.extends agrees
    have trees : Dependency.firstIn earlier text =
        (fun k => Quotient.mk _ (last.memo.tree k)) '' (r'.startedKeys.toFinset : Set Key) := by
      ext t
      constructor
      · intro first
        obtain ⟨k, started, tree⟩ := entered.started_of_first before others.extends agrees first
        exact ⟨k, List.mem_toFinset.2 started, tree⟩
      · rintro ⟨k, started, rfl⟩
        exact entered.first_of_started before others.extends agrees recipes
          (List.mem_toFinset.1 started)
    have injective : Set.InjOn (fun k => Quotient.mk DepTree.setoid (last.memo.tree k))
        (r'.startedKeys.toFinset : Set Key) := by
      intro j hj k hk same
      exact agrees.tree_inj recipes (known j (List.mem_toFinset.1 hj))
        (known k (List.mem_toFinset.1 hk)) (Quotient.exact same)
    rw [trees, injective.ncard_image, Set.ncard_coe_finset, List.toFinset_card_of_nodup once,
      Revision.startedKeys, List.length_map]
    rfl

end Desk

namespace Workshop

def keyAt (s : Workshop) (a i : Nat) : Option Key := (Report.orders s.sent)[a]?.bind (·[i]?)

variable {ev : Evaluator} {capacity : Nat} {texts : List String} {s : Workshop}

theorem broken_alone_of_work {moves : List Move} {reports : List Report}
    (work : (start capacity texts).work ev moves = some s) (few : s.memo.issued < UInt64.size)
    (idle : s.call = none) (edited : Desk.Editing true .empty texts (s.ended.map Call.placed) reports
      s.toDesk.idle) :
    (s.ended.map Call.placed).flatten.Pairwise fun p q =>
      p.placement = .broken ∨ q.placement = .broken → p.key ≠ q.key := by
  obtain ⟨fresh, recorded⟩ := placements_of_run work
  have all : s.placements = (s.ended.map Call.placed).flatten := by
    simp [placements, idle, List.flatMap_def]
  rw [all] at fresh recorded
  refine Revision.broken_alone ((issues_ascend work few).sublist fresh) ?_
  intro p hp placement
  obtain ⟨r, hr, hp⟩ := List.mem_flatten.1 hp
  rw [← recorded]
  exact edited.known r hr p hp placement

/-- Keys are those of dependency trees: of two declarations of any texts, the keys are the same just
when the trees are. A text starts a cell for each tree that no text before it has, and reuses the
cells of its other declarations. The key of what cannot be read stands at one place only. -/
theorem keys_are_dependencies (ev : Evaluator) (capacity : Nat) (texts : List String)
    (moves : List Move) (s : Workshop) (work : (start capacity texts).work ev moves = some s)
    (few : s.memo.issued < UInt64.size) (last : s.texts = []) (idle : s.call = none) :
    (Report.orders s.sent).map List.length = texts.map (fun text => (Dependency.ofText text).length) ∧
    (∀ a b i j t u k l, Dependency.atPlace texts a i = some (some t) →
      Dependency.atPlace texts b j = some (some u) → s.keyAt a i = some k → s.keyAt b j = some l →
      (k = l ↔ t = u)) ∧
    (∀ earlier text more, texts = earlier ++ text :: more →
      ∃ call, s.ended[earlier.length]? = some call ∧
        call.placed.count .started = (Dependency.firstIn earlier text).ncard ∧
        call.placed.count .started + call.placed.count .reused =
          (Dependency.ofText text).countP Option.isSome) ∧
    (∀ a b i j k, Dependency.atPlace texts a i = some none → s.keyAt a i = some k →
      s.keyAt b j = some k → a = b ∧ i = j) := by
  have h := atWork_of_work work few
  obtain ⟨reports, edited, _⟩ := h.editing last idle
  have orders : Report.orders s.sent = (s.ended.map Call.placed).map Revision.order := by
    rw [h.orders, List.map_map]
    rfl
  have fits := edited.fits (Desk.Extends.refl _) (edited.agrees few Desk.empty_agrees)
  simp only [keyAt, orders]
  refine ⟨Desk.Fits.lengths fits, ?_, ?_, ?_⟩
  · intro a b i j t u k l tree tree' key key'
    exact edited.key_eq_iff few tree tree' key key'
  · rintro earlier text more rfl
    have at_text : (earlier ++ text :: more)[earlier.length]? = some text := by simp
    obtain ⟨r, here, fit⟩ := forall₂_at fits.flip at_text
    have started := edited.started_count few here
    rw [List.getElem?_map] at here
    obtain ⟨call, ended, rfl⟩ := Option.map_eq_some_iff.1 here
    refine ⟨call, ended, started, ?_⟩
    rw [Desk.Fits.count fit, Dependency.ofText, List.countP_map]
    refine List.countP_congr fun o _ => ?_
    rw [Function.comp, Option.isSome_map]
  · intro a b i j k tree key key'
    obtain ⟨r, p, o, here, placed, rfl, fit, none_read⟩ := edited.key_at few tree key
    obtain ⟨r', q, here', placed', same⟩ := Desk.placed_at key'
    have broken : p.placement = .broken := by
      cases Option.map_eq_none_iff.1 none_read
      exact fit
    have alone := broken_alone_of_work work few idle edited
    refine position_unique ?_ alone here placed here' placed' ?_
    · exact fun p q differ broken => (differ broken.symm).symm
    · exact fun differ => differ (Or.inl broken) same.symm

theorem keys_are_dependencies_when_reordered : ∃ s : Workshop,
    (start 4 ["a = 1\nb = a", "b = a\na = 1"]).work (.calc ∅)
      [.turn, .add, .add, .close, .turn, .add, .add, .close] = some s ∧
    s.texts = [] ∧ s.call = none ∧ s.keyAt 0 0 = some ⟨0⟩ ∧ s.keyAt 1 1 = some ⟨0⟩ ∧
    (Dependency.firstIn ["a = 1\nb = a"] "b = a\na = 1").ncard = 1 := by
  have ends : ((start 4 ["a = 1\nb = a", "b = a\na = 1"]).work (.calc ∅)
      [.turn, .add, .add, .close, .turn, .add, .add, .close]).isSome = true := by cbv
  have few : (Option.get _ ends).memo.issued < UInt64.size := by
    have issued : (Option.get _ ends).memo.issued = 3 := by cbv
    rw [issued]
    decide
  have texts : (Option.get _ ends).texts = [] := by cbv
  have idle : (Option.get _ ends).call = none := by cbv
  have key : (Option.get _ ends).keyAt 0 0 = some ⟨0⟩ := by cbv
  have key' : (Option.get _ ends).keyAt 1 1 = some ⟨0⟩ := by cbv
  have calls : (Option.get _ ends).ended[1]?.map (·.placed.count .started) = some 1 := by cbv
  have work := (Option.some_get ends).symm
  obtain ⟨call, here, count⟩ := Option.map_eq_some_iff.1 calls
  obtain ⟨_, _, counts, _⟩ :=
    keys_are_dependencies (.calc ∅) 4 _ _ _ work few texts idle
  obtain ⟨_, here', first, _⟩ := counts ["a = 1\nb = a"] "b = a\na = 1" [] rfl
  cases Option.some.inj (here'.symm.trans here)
  exact ⟨_, work, texts, idle, key, key', first.symm.trans count⟩

end Workshop

end Worksheet
