import Worksheet.Proofs.Keys
import Worksheet.Proofs.Ledger
import Worksheet.Proofs.Shift
/-! What a worksheet reports while its evaluations take their time, and how often it evaluates. A key is
reported on once when it is given out, and once more when the only evaluation for it has ended. -/
namespace Worksheet

open Calc (Decl Env)
open Report (entriesOf)

namespace Report

/-- A report fits behind others: a key that it is the first to tell of is larger than all before, and
its order has only keys that were told of before. -/
structure Follows (before : List Report) (r : Report) : Prop where
  above : ∀ j k, about k [r] ≠ [] → about k before = [] → about j before ≠ [] → j < k
  known : ∀ keys, r.order = some keys → ∀ k ∈ keys, about k before ≠ []

/-- Each report fits behind those before it. -/
def Orderly (rs : List Report) : Prop := ∀ before r after, rs = before ++ r :: after → Follows before r

theorem orderly_nil : Orderly [] := by
  intro before r after split
  cases before with
  | nil => cases split
  | cons => cases split

theorem Orderly.concat {rs : List Report} {r : Report} (h : Orderly rs) (next : Follows rs r) :
    Orderly (rs ++ [r]) := by
  intro before x after split
  rcases List.eq_nil_or_concat after with rfl | ⟨others, last, rfl⟩
  · obtain ⟨rfl, same⟩ := List.append_inj' split rfl
    cases same
    exact next
  · have split' : rs ++ [r] = (before ++ x :: others) ++ [last] := by
      rw [split, List.concat_eq_append, List.append_assoc]
      rfl
    obtain ⟨rfl, _⟩ := List.append_inj' split' rfl
    exact h before x others rfl

end Report

open Report (about Follows Orderly)

namespace Cells

variable {cs : Cells} {k : Key} {begun underway : List (Key × Env)}

theorem mem_setPhase {d : Cell} {p : Phase} (hd : d ∈ (cs.setPhase k p).all) :
    ∃ b ∈ cs.all, (b.key = k ∧ d = { b with phase := p }) ∨ (b.key ≠ k ∧ d = b) := by
  obtain ⟨b, hb, rfl⟩ := List.mem_map.1 hd
  refine ⟨b, hb, ?_⟩
  by_cases same : b.key = k
  · exact Or.inl ⟨same, if_pos same⟩
  · exact Or.inr ⟨same, if_neg same⟩

theorem keys_setPhase (cs : Cells) (k : Key) (p : Phase) : (cs.setPhase k p).keys = cs.keys := by
  simp only [keys_eq_rows, rows_setPhase]

theorem not_waiting {p : Phase} (quiet : p ≠ .waiting) (c : Cell) :
    Cell.isWaiting { c with phase := p } = false := by
  cases p with
  | waiting => exact absurd rfl quiet
  | serving env => rfl
  | stopped => rfl

/-- The evaluations that were begun and what the cells are doing. A cell that waits and has been called is
under way. -/
structure Busy (cs : Cells) (begun underway : List (Key × Env)) : Prop where
  calls : cs.calls = begun.map Prod.fst
  once : cs.calls.Nodup
  known : ∀ k ∈ cs.calls, k ∈ cs.keys
  begun : ∀ u ∈ underway, u ∈ begun
  waits : ∀ c ∈ cs.all, c.key ∈ underway.map Prod.fst → c.isWaiting = true
  going : ∀ c ∈ cs.all, c.isWaiting = true → c.key ∈ cs.calls → c.key ∈ underway.map Prod.fst
  served : ∀ c ∈ cs.all, c.served?.isSome → c.key ∈ cs.calls

namespace Busy

theorem underway_called (h : cs.Busy begun underway) (going : k ∈ underway.map Prod.fst) :
    k ∈ cs.calls := by
  obtain ⟨u, member, rfl⟩ := List.mem_map.1 going
  rw [h.calls]
  exact List.mem_map_of_mem (h.begun u member)

theorem start (h : cs.Busy begun underway) (new : k ∉ cs.keys) (decl : Decl) (parents : List Key) :
    (cs.start k decl parents).Busy begun underway where
  calls := h.calls
  once := h.once
  known := by
    intro j called
    rw [keys_start]
    exact List.mem_append_left _ (h.known j called)
  begun := h.begun
  waits := by
    intro c hc going
    rcases List.mem_append.1 hc with hc | hc
    · exact h.waits c hc going
    · cases List.mem_singleton.1 hc
      rfl
  going := by
    intro c hc waits called
    rcases List.mem_append.1 hc with hc | hc
    · exact h.going c hc waits called
    · cases List.mem_singleton.1 hc
      exact absurd (h.known k called) new
  served := by
    intro c hc served
    rcases List.mem_append.1 hc with hc | hc
    · exact h.served c hc served
    · cases List.mem_singleton.1 hc
      cases served

theorem evaluate (h : cs.Busy begun underway) (ordered : cs.Ordered) {c : Cell} (hc : c ∈ cs.all)
    (waits : c.isWaiting = true) (idle : c.key ∉ underway.map Prod.fst) (env : Env) :
    ({ cs with calls := cs.calls ++ [c.key] } : Cells).Busy (begun ++ [(c.key, env)])
      (underway ++ [(c.key, env)]) where
  calls := by
    rw [List.map_append, h.calls]
    rfl
  once := by
    refine List.nodup_append.2 ⟨h.once, List.nodup_singleton _, ?_⟩
    rintro j called _ last rfl
    cases List.mem_singleton.1 last
    exact idle (h.going c hc waits called)
  known := by
    intro j called
    rcases List.mem_append.1 called with called | last
    · exact h.known j called
    · cases List.mem_singleton.1 last
      exact mem_keys hc
  begun := by
    intro u member
    rcases List.mem_append.1 member with member | last
    · exact List.mem_append_left _ (h.begun u member)
    · exact List.mem_append_right _ last
  waits := by
    intro d hd going
    rw [List.map_append] at going
    rcases List.mem_append.1 going with going | last
    · exact h.waits d hd going
    · have same : d.key = c.key := List.mem_singleton.1 last
      rw [ordered.eq_of_key hd hc same]
      exact waits
  going := by
    intro d hd waits called
    rw [List.map_append]
    rcases List.mem_append.1 called with called | last
    · exact List.mem_append_left _ (h.going d hd waits called)
    · exact List.mem_append_right _ last
  served := fun d hd served => List.mem_append_left _ (h.served d hd served)

/-- A cell that leaves the evaluation that it had, if any. -/
theorem leave (h : cs.Busy begun underway) {p : Phase} (quiet : p ≠ .waiting)
    (called : p = .stopped ∨ k ∈ cs.calls) :
    (cs.setPhase k p).Busy begun (underway.filter fun u => u.1 ≠ k) := by
  have others : ∀ j, j ∈ (underway.filter fun u => u.1 ≠ k).map Prod.fst ↔
      j ∈ underway.map Prod.fst ∧ j ≠ k := by
    intro j
    simp only [List.mem_map, List.mem_filter, decide_eq_true_eq]
    constructor
    · rintro ⟨u, ⟨member, other⟩, rfl⟩
      exact ⟨⟨u, member, rfl⟩, other⟩
    · rintro ⟨⟨u, member, rfl⟩, other⟩
      exact ⟨u, ⟨member, other⟩, rfl⟩
  constructor
  · exact h.calls
  · exact h.once
  · rw [keys_setPhase]
    exact h.known
  · exact fun u member => h.begun u (List.mem_filter.1 member).1
  · intro d hd going
    obtain ⟨b, hb, ⟨rfl, rfl⟩ | ⟨other, rfl⟩⟩ := mem_setPhase hd
    · exact absurd rfl ((others _).1 going).2
    · exact h.waits d hb ((others _).1 going).1
  · intro d hd waits called
    obtain ⟨b, hb, ⟨rfl, rfl⟩ | ⟨other, rfl⟩⟩ := mem_setPhase hd
    · rw [not_waiting quiet b] at waits
      cases waits
    · exact (others _).2 ⟨h.going d hb waits called, other⟩
  · intro d hd served
    obtain ⟨b, hb, ⟨rfl, rfl⟩ | ⟨other, rfl⟩⟩ := mem_setPhase hd
    · rcases called with rfl | called
      · cases served
      · exact called
    · exact h.served d hb served

end Busy

/-- The report that the evaluation of a cell has ended, if this was its environment. -/
def closing (ev : Evaluator) (c : Cell) (env : Env) : Report :=
  .finished c.key (ev.evaluate c.decl env).status (ev.evaluate c.decl env).output

/-- What was reported about the cells, and about keys without one. -/
structure Posted (ev : Evaluator) (cs : Cells) (begun : List (Key × Env)) (issued : Nat)
    (sent : List Report) : Prop where
  cells : ∀ c ∈ cs.all, about c.key sent = [.announced c.key c.decl.source] ∨
    (c.isWaiting = false ∧ ∃ env, (c.key, env) ∈ begun ∧
      about c.key sent = [.announced c.key c.decl.source, closing ev c env])
  others : ∀ k, k ∉ cs.keys → about k sent = [] ∨
    ∃ source message, about k sent = [.rejected k source message]
  unissued : ∀ k : Key, issued ≤ k.number → about k sent = []

namespace Posted

variable {ev : Evaluator} {issued : Nat} {sent : List Report} {e : Entry}

theorem told (h : cs.Posted ev begun issued sent) (known : k ∈ cs.keys) : about k sent ≠ [] := by
  obtain ⟨c, hc, rfl⟩ := List.mem_map.1 known
  rcases h.cells c hc with alone | ⟨_, _, _, both⟩
  · simp [alone]
  · simp [both]

theorem below (h : cs.Posted ev begun issued sent) (told : about k sent ≠ []) :
    k.number < issued :=
  Nat.lt_of_not_le fun new => told (h.unissued k new)

theorem issue (h : cs.Posted ev begun issued sent) : cs.Posted ev begun (issued + 1) sent where
  cells := h.cells
  others := h.others
  unissued := fun k new => h.unissued k (Nat.le_of_succ_le new)

theorem order (h : cs.Posted ev begun issued sent) (keys : List Key) :
    cs.Posted ev begun issued (sent ++ [.ofOrder keys]) := by
  have same : ∀ k, about k (sent ++ [.ofOrder keys]) = about k sent := by
    intro k
    rw [Report.about_append, Report.about_ofOrder, List.append_nil]
  constructor
  · simp only [same]
    exact h.cells
  · simp only [same]
    exact h.others
  · simp only [same]
    exact h.unissued

theorem reject (h : cs.Posted ev begun issued sent) (new : k.number = issued)
    (old : ∀ j ∈ cs.keys, j.number < issued) (source message : String) :
    cs.Posted ev begun (issued + 1) (sent ++ [.rejected k source message]) where
  cells := by
    intro c hc
    have other : c.key ≠ k := fun same => Nat.lt_irrefl _ (new ▸ same ▸ old _ (mem_keys hc))
    rw [Report.rejected, Report.about_other other]
    exact h.cells c hc
  others := by
    intro j without
    by_cases same : j = k
    · subst same
      right
      refine ⟨source, message, ?_⟩
      rw [Report.rejected, Report.about_here, h.unissued j (Nat.le_of_eq new.symm)]
      rfl
    · rw [Report.rejected, Report.about_other same]
      exact h.others j without
  unissued := by
    intro j above
    have other : j ≠ k := by
      rintro rfl
      omega
    rw [Report.rejected, Report.about_other other]
    exact h.unissued j (Nat.le_of_succ_le above)

theorem start (h : cs.Posted ev begun issued sent) (new : k.number = issued)
    (old : ∀ j ∈ cs.keys, j.number < issued) (decl : Decl) (parents : List Key) :
    (cs.start k decl parents).Posted ev begun (issued + 1)
      (sent ++ [.announced k decl.source]) where
  cells := by
    intro c hc
    rcases List.mem_append.1 hc with hc | hc
    · have other : c.key ≠ k := fun same => Nat.lt_irrefl _ (new ▸ same ▸ old _ (mem_keys hc))
      rw [Report.announced, Report.about_other other]
      exact h.cells c hc
    · cases List.mem_singleton.1 hc
      left
      rw [Report.announced, Report.about_here, h.unissued k (Nat.le_of_eq new.symm)]
      rfl
  others := by
    intro j without
    rw [keys_start, List.mem_append, List.mem_singleton, not_or] at without
    rw [Report.announced, Report.about_other without.2]
    exact h.others j without.1
  unissued := by
    intro j above
    have other : j ≠ k := by
      rintro rfl
      omega
    rw [Report.announced, Report.about_other other]
    exact h.unissued j (Nat.le_of_succ_le above)

theorem evaluate (h : cs.Posted ev begun issued sent) (j : Key) (env : Env) :
    ({ cs with calls := cs.calls ++ [j] } : Cells).Posted ev (begun ++ [(j, env)]) issued sent where
  cells := by
    intro c hc
    rcases h.cells c hc with alone | ⟨still, env, member, both⟩
    · exact Or.inl alone
    · exact Or.inr ⟨still, env, List.mem_append_left _ member, both⟩
  others := h.others
  unissued := h.unissued

theorem leave (h : cs.Posted ev begun issued sent) {p : Phase}
    (quiet : p ≠ .waiting) : (cs.setPhase k p).Posted ev begun issued sent where
  cells := by
    intro d hd
    obtain ⟨b, hb, ⟨rfl, rfl⟩ | ⟨_, rfl⟩⟩ := mem_setPhase hd
    · rcases h.cells b hb with alone | ⟨_, env, member, both⟩
      · exact Or.inl alone
      · exact Or.inr ⟨not_waiting quiet b, env, member, both⟩
    · exact h.cells d hb
  others := by
    rw [keys_setPhase]
    exact h.others
  unissued := h.unissued

theorem close (h : cs.Posted ev begun issued sent) (ordered : cs.Ordered) {c : Cell}
    (hc : c ∈ cs.all) (waits : c.isWaiting = true) {env : Env} (given : (c.key, env) ∈ begun)
    {p : Phase} (quiet : p ≠ .waiting) :
    (cs.setPhase c.key p).Posted ev begun issued (sent ++ [closing ev c env]) where
  cells := by
    intro d hd
    obtain ⟨b, hb, ⟨same, rfl⟩ | ⟨other, rfl⟩⟩ := mem_setPhase hd
    · cases ordered.eq_of_key hb hc same
      rcases h.cells c hc with alone | ⟨still, _⟩
      · refine Or.inr ⟨not_waiting quiet c, env, given, ?_⟩
        show about c.key (sent ++ [.finished c.key _ _]) = _
        rw [Report.finished, Report.about_here, alone]
        rfl
      · rw [waits] at still
        cases still
    · rw [closing, Report.finished, Report.about_other other]
      exact h.cells d hb
  others := by
    intro j without
    rw [keys_setPhase] at without
    have other : j ≠ c.key := fun same => without (same ▸ mem_keys hc)
    rw [closing, Report.finished, Report.about_other other]
    exact h.others j without
  unissued := by
    intro j new
    have other : j ≠ c.key := by
      rintro rfl
      exact h.told (mem_keys hc) (h.unissued _ new)
    rw [closing, Report.finished, Report.about_other other]
    exact h.unissued j new

theorem follows_new (h : cs.Posted ev begun issued sent) (new : k.number = issued) :
    Follows sent (.ofEntry k e) where
  above := by
    intro j i told _ old
    rw [Report.eq_of_about told, Key.lt_iff, new]
    exact h.below old
  known := fun _ order => nomatch order

theorem follows_old (known : about k sent ≠ []) : Follows sent (.ofEntry k e) where
  above := by
    intro j i told new _
    exact absurd new (Report.eq_of_about told ▸ known)
  known := fun _ order => nomatch order

variable {rs : List Report} {entry : Entry}

/-- What is known about a key behind the first ones of the reports. -/
theorem known_cell (h : cs.Posted ev begun issued sent) {c : Cell} (hc : c ∈ cs.all)
    (first : rs <+: sent) (known : (Report.empty.mergeAll rs).entries.get? c.key = some entry) :
    entry.source = some c.decl.source ∧ (entry.output = "" ∨
      ∃ env, (c.key, env) ∈ begun ∧ entry.output = (ev.evaluate c.decl env).output) := by
  have part := Report.entriesOf_first c.key first
  rw [Report.get?_mergeAll] at known
  generalize entriesOf c.key rs = entries at part known
  have here : ∀ e, entriesOf c.key [.ofEntry c.key e] = [e] := fun e => by
    rw [Report.entriesOf_ofEntry, if_pos rfl]
  rcases h.cells c hc with alone | ⟨_, env, given, both⟩
  · rw [alone, Report.announced, here] at part
    rcases List.prefix_cons_iff.1 part with rfl | ⟨_, rfl, rest⟩
    · cases known
    · cases List.prefix_nil.1 rest
      cases known
      exact ⟨rfl, Or.inl rfl⟩
  · rw [both, Report.announced, closing, Report.finished, ← List.singleton_append,
      Report.entriesOf_append, here, here, List.singleton_append] at part
    rcases List.prefix_cons_iff.1 part with rfl | ⟨_, rfl, rest⟩
    · cases known
    · rcases List.prefix_cons_iff.1 rest with rfl | ⟨_, rfl, last⟩
      · cases known
        exact ⟨rfl, Or.inl rfl⟩
      · cases List.prefix_nil.1 last
        cases known
        refine ⟨rfl, Or.inr ⟨env, given, ?_⟩⟩
        exact String.empty_append

theorem known_other (h : cs.Posted ev begun issued sent) (without : k ∉ cs.keys)
    (first : rs <+: sent) (known : (Report.empty.mergeAll rs).entries.get? k = some entry) :
    entry.output = "" ∧
      ∃ source message, about k sent = [.rejected k source message] ∧ entry.source = some source := by
  have part := Report.entriesOf_first k first
  rw [Report.get?_mergeAll] at known
  generalize entriesOf k rs = entries at part known
  rcases h.others k without with none | ⟨source, message, one⟩
  · rw [none] at part
    cases List.prefix_nil.1 part
    cases known
  · rw [one, Report.rejected, Report.entriesOf_ofEntry, if_pos rfl] at part
    rcases List.prefix_cons_iff.1 part with rfl | ⟨_, rfl, rest⟩
    · cases known
    · cases List.prefix_nil.1 rest
      cases known
      exact ⟨rfl, source, message, one, rfl⟩

end Posted

theorem callCounts_get? (cs : Cells) (source : String) :
    (cs.callCounts.get? source).getD 0 =
      (cs.calls.filterMap cs.find?).countP (·.decl.source = source) := by
  have from_counts : ∀ (l : List Cell) (m : SortedMap String Nat),
      ((l.foldl (fun m c => m.insertWith (· + ·) c.decl.source 1) m).get? source).getD 0 =
        (m.get? source).getD 0 + l.countP (·.decl.source = source) := by
    intro l
    induction l with
    | nil => exact fun m => rfl
    | cons c l ih =>
      intro m
      rw [List.foldl_cons, ih, SortedMap.get?_insertWith, List.countP_cons]
      by_cases same : c.decl.source = source
      · rw [same, if_pos rfl, Option.getD_some]
        cases m.get? source with
        | none => simp [Nat.add_comm]
        | some n => simp [Nat.add_assoc, Nat.add_comm]
      · simp [same, Ne.symm same]
  rw [callCounts, from_counts, SortedMap.get?_empty, Option.getD_none, Nat.zero_add]

theorem filterMap_find?_keys {cs : Cells} (ordered : cs.Ordered) :
    cs.keys.filterMap cs.find? = cs.all := by
  rw [keys, List.filterMap_map]
  have found : ∀ c ∈ cs.all, (cs.find? ∘ Cell.key) c = some c := fun c hc =>
    find?_of_mem ordered.ascending hc
  rw [List.filterMap_congr found, List.filterMap_some]

end Cells

theorem Memo.lookup_isSome {m : Memo} {r : Recipe} :
    (m.lookup r).isSome ↔ r ∈ m.entries.map Prod.fst := by
  simp [lookup]

/-- Under how many sets of parents a text is on record. -/
theorem Memo.ncard_parents {m : Memo} (once : (m.entries.map Prod.fst).Nodup) (source : String) :
    {P : KeySet | (m.lookup ⟨source, P⟩).isSome}.ncard =
      m.entries.countP (·.1.source = source) := by
  have same : {P : KeySet | (m.lookup ⟨source, P⟩).isSome} =
      ((((m.entries.map Prod.fst).filter (·.source = source)).map Recipe.parents).toFinset :
        Set KeySet) := by
    ext P
    simp only [Set.mem_ofPred_eq, lookup_isSome, Finset.mem_coe, List.mem_toFinset, List.mem_map,
      List.mem_filter, decide_eq_true_eq]
    constructor
    · exact fun held => ⟨⟨source, P⟩, ⟨held, rfl⟩, rfl⟩
    · rintro ⟨⟨_, _⟩, ⟨held, rfl⟩, rfl⟩
      exact held
  have distinct : (((m.entries.map Prod.fst).filter (·.source = source)).map
      Recipe.parents).Nodup := by
    refine (once.filter _).map_on ?_
    rintro ⟨_, _⟩ hr ⟨_, _⟩ hr' rfl
    have source_r := of_decide_eq_true (List.mem_filter.1 hr).2
    have source_r' := of_decide_eq_true (List.mem_filter.1 hr').2
    cases source_r
    cases source_r'
    rfl
  rw [same, Set.ncard_coe_finset, List.toFinset_card_of_nodup distinct, List.length_map,
    List.countP_eq_length_filter, List.filter_map, List.length_map]
  rfl

namespace Shift

variable {ev : Evaluator} {s t : Shift} {e : Event}

/-- What holds in every state of every run. -/
structure Kept (ev : Evaluator) (s : Shift) : Prop where
  agrees : s.toDesk.Agrees
  recipes : (s.memo.entries.map Prod.fst).Nodup
  busy : s.cells.Busy s.begun s.underway
  posted : s.cells.Posted ev s.begun s.memo.issued s.sent
  placed : ∀ placed rest, s.call = some (placed, rest) → ∀ p ∈ placed, about p.key s.sent ≠ []
  orderly : Orderly s.sent
  hub : s.hub.state = Report.empty.mergeAll (s.sent.take s.taken)
  taken : s.taken ≤ s.sent.length

theorem start_kept (capacity : Nat) (texts : List String) : (start capacity texts).Kept ev where
  agrees := Desk.empty_agrees
  recipes := List.nodup_nil
  busy := by constructor <;> simp [start, Workshop.start, Desk.empty, Cells.empty]
  posted := by constructor <;> simp [start, Workshop.start, Desk.empty, Cells.empty, about]
  placed := fun _ _ call => nomatch call
  orderly := Report.orderly_nil
  hub := rfl
  taken := Nat.le_refl _

namespace Kept

theorem hub_send (h : s.Kept ev) (rs : List Report) :
    s.hub.state = Report.empty.mergeAll ((s.sent ++ rs).take s.taken) ∧
      s.taken ≤ (s.sent ++ rs).length := by
  rw [List.take_append_of_le_length h.taken, List.length_append]
  exact ⟨h.hub, Nat.le_add_right_of_le h.taken⟩

theorem added (h : s.Kept ev) {placed : Revision} {item : Calc.Section} {rest : List Calc.Section}
    {d : Desk} {entered : Entered} (call : s.call = some (placed, item :: rest))
    (added : s.toDesk.add s.hub.running item = (d, .ok entered)) (few : d.memo.issued < UInt64.size) :
    ({ s with toWorkshop := s.toWorkshop.enter d placed rest entered } : Shift).Kept ev := by
  have add := Desk.Added.of_add added
  obtain ⟨hub, taken⟩ := h.hub_send entered.report.toList
  have agrees := h.agrees.added add few
  have recipes := add.recipes_once h.recipes
  have placed_before := h.placed placed (item :: rest) call
  have placed_now : about entered.placed.key (s.sent ++ entered.report.toList) ≠ [] →
      ∀ p ∈ placed ++ [entered.placed], about p.key (s.sent ++ entered.report.toList) ≠ [] := by
    intro told p hp
    rcases List.mem_append.1 hp with hp | hp
    · exact Report.about_stays (placed_before p hp) _
    · cases List.mem_singleton.1 hp
      exact told
  cases add with
  | broken source err =>
    have number := Memo.nextKey_number (Nat.lt_of_succ_lt few)
    refine ⟨agrees, recipes, h.busy, h.posted.reject number h.agrees.issued source err.message, ?_,
      h.orderly.concat (h.posted.follows_new number), hub, taken⟩
    rintro _ _ same
    cases same
    exact placed_now (Report.about_last _ _ _)
  | reused decl key held =>
    have posted : s.cells.Posted ev s.begun s.memo.issued (s.sent ++ []) := by
      rw [List.append_nil]
      exact h.posted
    have orderly : Orderly (s.sent ++ []) := by
      rw [List.append_nil]
      exact h.orderly
    have known := h.agrees.recorded_key (Memo.mem_of_lookup held)
    refine ⟨agrees, recipes, h.busy, posted, ?_, orderly, hub, taken⟩
    rintro _ _ same
    cases same
    exact placed_now (posted.told known)
  | started decl =>
    have number := Memo.nextKey_number (Nat.lt_of_succ_lt few)
    have new : s.memo.nextKey ∉ s.cells.keys := by
      intro known
      exact Nat.lt_irrefl _ (number ▸ h.agrees.issued _ known)
    refine ⟨agrees, recipes, h.busy.start new decl _, h.posted.start number h.agrees.issued decl _, ?_,
      h.orderly.concat (h.posted.follows_new number), hub, taken⟩
    rintro _ _ same
    cases same
    exact placed_now (Report.about_last _ _ _)

theorem moved (h : s.Kept ev) {m : Move} {w : Workshop} (other : ∀ key, m ≠ .finish key)
    (step : Workshop.Stepped ev s.toWorkshop m w) (few : w.memo.issued < UInt64.size) :
    ({ s with toWorkshop := w } : Shift).Kept ev := by
  cases step with
  | turn text more idle next =>
    refine ⟨h.agrees.turn, h.recipes, h.busy, h.posted, ?_, h.orderly, h.hub, h.taken⟩
    rintro _ _ same
    cases same
    exact fun _ member => absurd member List.not_mem_nil
  | add placed item rest d entered call added => exact h.added call added few
  | fail placed item rest d f call added =>
    have add := Desk.Added.of_add added
    obtain ⟨_, _, rfl⟩ := h.agrees.failure add
    exact ⟨h.agrees.issue, h.recipes, h.busy, h.posted.issue, (fun _ _ same => nomatch same), h.orderly,
      h.hub, h.taken⟩
  | close placed call heard =>
    obtain ⟨hub, taken⟩ := h.hub_send [.ofOrder placed.order]
    refine ⟨h.agrees, h.recipes, h.busy, h.posted.order placed.order, (fun _ _ same => nomatch same), ?_,
      hub, taken⟩
    refine h.orderly.concat ⟨fun _ _ told => (told rfl).elim, ?_⟩
    rintro keys same k hk
    cases same
    obtain ⟨p, hp, rfl⟩ := List.mem_map.1 hk
    exact h.placed placed [] call p hp
  | lose placed call deaf =>
    exact ⟨h.agrees, h.recipes, h.busy, h.posted, (fun _ _ same => nomatch same), h.orderly, h.hub,
      h.taken⟩
  | finish key => exact absurd rfl (other key)
  | waste key => exact absurd rfl (other key)
  | receive report next heard =>
    refine ⟨h.agrees, h.recipes, h.busy, h.posted, h.placed, h.orderly, ?_, ?_⟩
    · show s.hub.state.merge report = _
      rw [h.hub, List.take_add_one, next, Report.mergeAll_append]
      rfl
    · exact (List.getElem?_eq_some_iff.1 next).1

theorem leave (h : s.Kept ev) {key : Key} {p : Phase} (quiet : p ≠ .waiting)
    (called : p = .stopped ∨ key ∈ s.cells.calls) : (s.leave key p).Kept ev where
  agrees := h.agrees.withCells (Cells.rows_setPhase s.cells key p)
  recipes := h.recipes
  busy := h.busy.leave quiet called
  posted := h.posted.leave quiet
  placed := h.placed
  orderly := h.orderly
  hub := h.hub
  taken := h.taken

theorem serve (h : s.Kept ev) {key : Key} {given : Env} (begun : (key, given) ∈ s.underway)
    (env : Env) : (s.serve key env).Kept ev := by
  have called := h.busy.underway_called (List.mem_map_of_mem (f := Prod.fst) begun)
  have left := h.leave (p := .serving env) Phase.noConfusion (Or.inr called)
  exact ⟨left.agrees, left.recipes, left.busy, left.posted, left.placed, left.orderly, left.hub,
    left.taken⟩

theorem finish (h : s.Kept ev) {key : Key} {c : Cell} {given : Env}
    (found : s.cells.find? key = some c) (begun : (key, given) ∈ s.underway) (env : Env) :
    ((s.serve key env).tell (Cells.closing ev c given)).Kept ev := by
  obtain ⟨hc, rfl⟩ := Cells.find?_mem found
  have served := h.serve begun env
  have waits := h.busy.waits c hc (List.mem_map_of_mem (f := Prod.fst) begun)
  obtain ⟨hub, taken⟩ := h.hub_send [Cells.closing ev c given]
  have known := h.posted.told (Cells.mem_keys hc)
  refine ⟨served.agrees, served.recipes, served.busy, ?_, ?_, ?_, hub, taken⟩
  · exact h.posted.close h.agrees.ordered hc waits (h.busy.begun _ begun) Phase.noConfusion
  · exact fun placed rest call p hp => Report.about_stays (h.placed placed rest call p hp) _
  · exact h.orderly.concat (Cells.Posted.follows_old known)

theorem evaluate (h : s.Kept ev) {c : Cell} (hc : c ∈ s.cells.all) (waits : c.isWaiting = true)
    (idle : c.key ∉ s.underway.map Prod.fst) (env : Env) : (s.give c.key env).Kept ev where
  agrees := h.agrees.withCells rfl
  recipes := h.recipes
  busy := h.busy.evaluate h.agrees.ordered hc waits idle env
  posted := h.posted.evaluate c.key env
  placed := h.placed
  orderly := h.orderly
  hub := h.hub
  taken := h.taken

end Kept

theorem Handled.kept (handled : Handled ev s e t) (h : s.Kept ev)
    (few : t.memo.issued < UInt64.size) : t.Kept ev := by
  cases handled with
  | move m w other step => exact h.moved other step few
  | finish key c env found begun =>
    cases (Cells.find?_mem found).2
    exact h.finish found begun _
  | waste key c env found begun => exact h.serve begun _
  | evaluate key gone c env found waits idle =>
    obtain ⟨hc, rfl⟩ := Cells.find?_mem found
    exact h.evaluate hc waits idle env
  | halt =>
    exact ⟨h.agrees, h.recipes, h.busy, h.posted, h.placed, h.orderly, h.hub, h.taken⟩
  | shutdown =>
    exact ⟨h.agrees, h.recipes, h.busy, h.posted, h.placed, h.orderly, h.hub, h.taken⟩
  | stop key => exact h.leave Phase.noConfusion (Or.inl rfl)

theorem kept_of_run {events : List Event} {capacity : Nat} {texts : List String}
    (run : (start capacity texts).run ev events = some s) (few : s.memo.issued < UInt64.size) :
    s.Kept ev :=
  run_induction (fun _ _ _ h handled few => handled.kept h few) run few (start_kept capacity texts)

/-- Only the end of an evaluation that is under way is reported as one. -/
theorem Handled.finished (handled : Handled ev s e t) {k : Key} {status : Status} {output : String}
    (told : t.sent = s.sent ++ [.finished k status output]) : k ∈ s.underway.map Prod.fst := by
  have differs : ∀ {rs : List Report}, t.sent = s.sent ++ rs → rs = [.finished k status output] :=
    fun same => List.append_cancel_left (same.symm.trans told)
  have silent : t.sent = s.sent → k ∈ s.underway.map Prod.fst := by
    intro same
    have none := differs (same.trans (List.append_nil _).symm)
    cases none
  cases handled with
  | move m w other step =>
    cases step with
    | turn => exact silent rfl
    | add placed item rest d entered call added =>
      have same : entered.report.toList = [.finished k status output] := differs rfl
      have add := Desk.Added.of_add added
      cases add with
      | broken =>
        obtain ⟨_, entry⟩ := Report.ofEntry_inj (List.singleton_inj.1 same)
        cases entry
      | reused => cases same
      | started =>
        obtain ⟨_, entry⟩ := Report.ofEntry_inj (List.singleton_inj.1 same)
        cases entry
    | fail => exact silent rfl
    | close placed =>
      have same := congrArg Report.order (List.singleton_inj.1 (differs rfl))
      cases same
    | lose => exact silent rfl
    | finish key => exact absurd rfl (other key)
    | waste key => exact absurd rfl (other key)
    | receive => exact silent rfl
  | finish key c env found begun =>
    obtain ⟨rfl, _⟩ := Report.ofEntry_inj (List.singleton_inj.1 (differs rfl))
    exact List.mem_map_of_mem (f := Prod.fst) begun
  | waste => exact silent rfl
  | evaluate => exact silent rfl
  | halt => exact silent rfl
  | shutdown => exact silent rfl
  | stop => exact silent rfl

/-- What is reported in a run, and how often the evaluator is called. -/
structure Protocol (ev : Evaluator) (s : Shift) : Prop where
  /-- A key is told of once as broken; or when its cell is started, and once more when the only
  evaluation of the cell has ended. -/
  forms : ∀ k, about k s.sent ≠ [] →
    (∃ source message, about k s.sent = [.rejected k source message] ∧ k ∉ s.cells.calls) ∨
    (∃ source, about k s.sent = [.announced k source]) ∨
    ∃ c env, s.cells.find? k = some c ∧ s.begun.filter (·.1 = k) = [(k, env)] ∧
      about k s.sent = [.announced k c.decl.source,
        .finished k (ev.evaluate c.decl env).status (ev.evaluate c.decl env).output]
  /-- Keys are first told of in ascending order, and no order lists one that was not told of before. -/
  orderly : ∀ before r after, s.sent = before ++ r :: after → Follows before r
  calls : s.cells.calls = s.begun.map Prod.fst
  once : s.cells.calls.Nodup
  /-- The evaluator has been called when the end of an evaluation is reported. -/
  called : ∀ e t k status output, s.handle ev e = some t →
    t.sent = s.sent ++ [.finished k status output] → s.cells.calls.count k = 1
  merged : s.hub.state = Report.empty.mergeAll (s.sent.take s.taken)
  /-- In no merged state is there other output than that of the only evaluation. -/
  outputs : ∀ n k entry, (Report.empty.mergeAll (s.sent.take n)).entries.get? k = some entry →
    entry.output = "" ∨ ∃ c env, s.cells.find? k = some c ∧
      s.begun.filter (·.1 = k) = [(k, env)] ∧ entry.output = (ev.evaluate c.decl env).output
  sources : ∀ k, ∃ source, ∀ n entry,
    (Report.empty.mergeAll (s.sent.take n)).entries.get? k = some entry → entry.source = some source
  /-- When all cells have evaluated, a text has been evaluated once for each set of parents. -/
  counts : (∀ c ∈ s.cells.all, c.served?.isSome) → ∀ source,
    (s.cells.callCounts.get? source).getD 0 =
      {P : KeySet | (s.memo.lookup ⟨source, P⟩).isSome}.ncard

namespace Kept

variable {k : Key}

theorem only (h : s.Kept ev) {env : Env} (given : (k, env) ∈ s.begun) :
    s.begun.filter (·.1 = k) = [(k, env)] := by
  have once : (s.begun.map Prod.fst).Nodup := h.busy.calls ▸ h.busy.once
  generalize s.begun = begun at given once
  induction begun with
  | nil => cases given
  | cons u begun ih =>
    obtain ⟨new, once⟩ := List.nodup_cons.1 once
    rcases List.mem_cons.1 given with rfl | given
    · have none_other : begun.filter (·.1 = k) = [] := by
        refine List.filter_eq_nil_iff.2 fun v member same => new ?_
        exact List.mem_map.2 ⟨v, member, of_decide_eq_true same⟩
      rw [List.filter_cons_of_pos (by simp), none_other]
    · have other : u.1 ≠ k := fun same => new (List.mem_map.2 ⟨(k, env), given, same.symm⟩)
      rw [List.filter_cons_of_neg (by simpa using other)]
      exact ih given once

theorem forms (h : s.Kept ev) (told : about k s.sent ≠ []) :
    (∃ source message, about k s.sent = [.rejected k source message] ∧ k ∉ s.cells.calls) ∨
    (∃ source, about k s.sent = [.announced k source]) ∨
    ∃ c env, s.cells.find? k = some c ∧ s.begun.filter (·.1 = k) = [(k, env)] ∧
      about k s.sent = [.announced k c.decl.source,
        .finished k (ev.evaluate c.decl env).status (ev.evaluate c.decl env).output] := by
  by_cases known : k ∈ s.cells.keys
  · obtain ⟨c, hc, rfl⟩ := List.mem_map.1 known
    rcases h.posted.cells c hc with alone | ⟨_, env, given, both⟩
    · exact Or.inr (Or.inl ⟨_, alone⟩)
    · exact Or.inr (Or.inr ⟨c, env, Cells.find?_of_mem h.agrees.ordered.ascending hc, h.only given,
        both⟩)
  · rcases h.posted.others k known with none | ⟨source, message, one⟩
    · exact absurd none told
    · exact Or.inl ⟨source, message, one, fun called => known (h.busy.known k called)⟩

theorem outputs (h : s.Kept ev) {rs : List Report} (first : rs <+: s.sent) {entry : Entry}
    (known : (Report.empty.mergeAll rs).entries.get? k = some entry) :
    entry.output = "" ∨ ∃ c env, s.cells.find? k = some c ∧
      s.begun.filter (·.1 = k) = [(k, env)] ∧ entry.output = (ev.evaluate c.decl env).output := by
  by_cases cell : k ∈ s.cells.keys
  · obtain ⟨c, hc, rfl⟩ := List.mem_map.1 cell
    rcases (h.posted.known_cell hc first known).2 with none | ⟨env, given, output⟩
    · exact Or.inl none
    · exact Or.inr ⟨c, env, Cells.find?_of_mem h.agrees.ordered.ascending hc, h.only given, output⟩
  · exact Or.inl (h.posted.known_other cell first known).1

theorem sources (h : s.Kept ev) (k : Key) : ∃ source, ∀ rs entry, rs <+: s.sent →
    (Report.empty.mergeAll rs).entries.get? k = some entry → entry.source = some source := by
  by_cases cell : k ∈ s.cells.keys
  · obtain ⟨c, hc, rfl⟩ := List.mem_map.1 cell
    exact ⟨c.decl.source, fun rs entry first known => (h.posted.known_cell hc first known).1⟩
  · rcases h.posted.others k cell with none | ⟨source, message, one⟩
    · refine ⟨"", fun rs entry first known => ?_⟩
      obtain ⟨_, _, _, one, _⟩ := h.posted.known_other cell first known
      rw [none] at one
      cases one
    · refine ⟨source, fun rs entry first known => ?_⟩
      obtain ⟨_, _, _, one', same⟩ := h.posted.known_other cell first known
      rw [one] at one'
      obtain ⟨_, entries⟩ := Report.ofEntry_inj (List.singleton_inj.1 one')
      cases entries
      exact same

theorem counts (h : s.Kept ev) (all : ∀ c ∈ s.cells.all, c.served?.isSome) (source : String) :
    (s.cells.callCounts.get? source).getD 0 =
      {P : KeySet | (s.memo.lookup ⟨source, P⟩).isSome}.ncard := by
  have keys : s.cells.calls.Perm s.cells.keys := by
    refine (List.perm_ext_iff_of_nodup h.busy.once ?_).2 fun k => ⟨h.busy.known k, fun known => ?_⟩
    · exact h.agrees.ordered.ascending.imp StrictOrder.ne_of_lt
    · obtain ⟨c, hc, rfl⟩ := List.mem_map.1 known
      exact h.busy.served c hc (all c hc)
  have rows : s.cells.all.map Cell.row = s.memo.rows := h.agrees.recorded.symm
  calc (s.cells.callCounts.get? source).getD 0
    _ = (s.cells.calls.filterMap s.cells.find?).countP (·.decl.source = source) :=
      s.cells.callCounts_get? source
    _ = s.cells.all.countP (·.decl.source = source) := by
      rw [(keys.filterMap s.cells.find?).countP_eq, Cells.filterMap_find?_keys h.agrees.ordered]
    _ = (s.cells.all.map Cell.row).countP (·.source = source) := by
      rw [List.countP_map]
      rfl
    _ = s.memo.entries.countP (·.1.source = source) := by
      rw [rows, Memo.rows, List.countP_map]
      rfl
    _ = _ := (Memo.ncard_parents h.recipes source).symm

end Kept

/-- In every run, with any evaluator and whenever the hub stops or the desk shuts down: a key is
reported on when it is given out and when its only evaluation has ended, and at no other time; keys
come in ascending order; an order speaks of known keys; and the merge of all reports so far never has
other output or another source for a key. -/
theorem protocol_of_run (ev : Evaluator) (capacity : Nat) (texts : List String)
    (events : List Event) (s : Shift) (run : (start capacity texts).run ev events = some s)
    (few : s.memo.issued < UInt64.size) : s.Protocol ev := by
  have h := kept_of_run run few
  constructor
  · exact fun k told => h.forms told
  · exact h.orderly
  · exact h.busy.calls
  · exact h.busy.once
  · intro e t k status output step told
    have going := (handled step).finished told
    exact List.count_eq_one_of_mem h.busy.once (h.busy.underway_called going)
  · exact h.hub
  · exact fun n k entry known => h.outputs (List.take_prefix n s.sent) known
  · intro k
    obtain ⟨source, same⟩ := h.sources k
    exact ⟨source, fun n entry known => same _ entry (List.take_prefix n s.sent) known⟩
  · exact h.counts

theorem protocol_of_run_when_stopped : ∃ s : Shift,
    (start 4 ["a = 1\nb = (\nc = a"]).run (.calc ∅)
      [.move .turn, .move .add, .evaluate ⟨0⟩ [], .move .add, .move .add, .move (.finish ⟨0⟩),
        .move .close, .evaluate ⟨2⟩ [], .shutdown, .stop ⟨0⟩, .stop ⟨2⟩, .move .receive] = some s ∧
    s.memo.issued = 3 ∧ s.begun.map Prod.fst = [⟨0⟩, ⟨2⟩] ∧
    about ⟨0⟩ s.sent = [.announced ⟨0⟩ "a = 1", .finished ⟨0⟩ .complete "a = 1"] ∧
    about ⟨2⟩ s.sent = [.announced ⟨2⟩ "c = a"] ∧ s.Protocol (.calc ∅) := by
  have ends : ((start 4 ["a = 1\nb = (\nc = a"]).run (.calc ∅)
      [.move .turn, .move .add, .evaluate ⟨0⟩ [], .move .add, .move .add, .move (.finish ⟨0⟩),
        .move .close, .evaluate ⟨2⟩ [], .shutdown, .stop ⟨0⟩, .stop ⟨2⟩, .move .receive]).map
      (fun s => (s.memo.issued, s.begun.map Prod.fst, about ⟨0⟩ s.sent, about ⟨2⟩ s.sent)) =
        some (3, [⟨0⟩, ⟨2⟩], [.announced ⟨0⟩ "a = 1", .finished ⟨0⟩ .complete "a = 1"],
          [.announced ⟨2⟩ "c = a"]) := by cbv
  obtain ⟨s, run, facts⟩ := Option.map_eq_some_iff.1 ends
  simp only [Prod.mk.injEq] at facts
  obtain ⟨issued, begun, first, last⟩ := facts
  have few : s.memo.issued < UInt64.size := by
    rw [issued]
    decide
  exact ⟨s, run, issued, begun, first, last, protocol_of_run (.calc ∅) 4 _ _ s run few⟩

end Shift

end Worksheet
