import Worksheet.Proofs.Records
import Worksheet.Report.Wire
/-! Presentations of a report: the texts that say the same as its encoding, with the members of objects
and the pairs in another order, with or without what goes without saying, with more members and more
pairs than are looked at, and with white space. Main statement: each of them is decoded to that report,
and a text with a field that comes twice in its object is refused. -/
namespace Worksheet

open Json

variable {α β : Type} {text inner rest space : List Char} {ts : List Token}

/-! ## Pairs -/

/-- Pairs in another order, with more pairs in front of later ones that have the same key. -/
inductive Listed {K V : Type} (pairs : List (K × V)) : List (K × V) → Prop
  | order {ps : List (K × V)} : ps.Perm pairs → Listed pairs ps
  | earlier {front back : List (K × V)} {k : K} {v : V} :
    Listed pairs (front ++ back) → k ∈ back.map Prod.fst → Listed pairs (front ++ (k, v) :: back)

theorem SortedMap.ofList_listed {K V : Type} [LT K] [DecidableLT K] [DecidableEq K] [StrictOrder K]
    {m : SortedMap K V} {ps : List (K × V)} (listed : Listed m.toList ps) : ofList ps = m := by
  refine ext_get? fun k => ?_
  induction listed with
  | order same =>
    have distinct : (m.toList.map Prod.fst).Nodup :=
      List.pairwise_map.2 (m.sorted.imp fun less => StrictOrder.ne_of_lt less)
    have back := (List.reverse_perm _).trans same
    rw [get?_ofList, findSorted?_perm back ((back.map _).nodup_iff.2 distinct)]
    rfl
  | @earlier front back j v _ later ih =>
    rw [← ih, get?_ofList, get?_ofList, List.reverse_append, List.reverse_append,
      findSorted?_append, findSorted?_append, List.reverse_cons, findSorted?_append]
    by_cases here : j = k
    · subst here
      have known : (findSorted? j back.reverse).isSome := findSorted?_isSome.2 (by simpa using later)
      obtain ⟨w, found⟩ := Option.isSome_iff_exists.1 known
      simp [found]
    · simp [findSorted?, here]

/-! ## Fields -/

/-- A string, in any spelling. -/
def textShown (s : String) (ts : List Token) : Prop := ∃ token, Spelling token s ∧ ts = [token]

def optionShown (shown : α → List Token → Prop) : Option α → List Token → Prop
  | none, ts => ts = [nullToken]
  | some a, ts => shown a ts

theorem reads_text {s : String} (shown : textShown s ts) :
    Reads readString ts s ∧ first? ts ≠ some 'n' := by
  obtain ⟨token, spelled, rfl⟩ := shown
  refine ⟨spelled.reads, ?_⟩
  obtain ⟨ls, -, rfl⟩ := spelled
  exact fun same => absurd same (by simp [first?, quoted])

theorem reads_option {read : Reader α} {shown : α → List Token → Prop}
    (each : ∀ {a ts}, shown a ts → Reads read ts a ∧ first? ts ≠ some 'n') {a : Option α}
    (h : optionShown shown a ts) : Reads (readOption read) ts a := by
  cases a with
  | none =>
    obtain rfl : ts = [nullToken] := h
    exact reads_none read
  | some a =>
    obtain ⟨reads, present⟩ := each h
    exact reads.some present

theorem shown_option {toTree : α → Tree} {shown : α → List Token → Prop}
    (each : ∀ a, shown a (toTree a).tokens) (a : Option α) :
    optionShown shown a (optionTree toTree a).tokens := by
  cases a with
  | none => exact by rw [optionTree, Tree.tokens]; rfl
  | some a => exact each a

theorem shown_string (s : String) : textShown s (Tree.string s).tokens :=
  ⟨quote s.toList, spelling_quote s, by rw [Tree.tokens]⟩

namespace Status

theorem yields_read {name : String} {read : Reader Status} {s : Status}
    {named coloned behind : List Char} (blank : Blank space)
    (hname : Yields (readString inner) name named) (chosen : readNamed name = .ok read)
    (colon : Yields (readColon named) () coloned) (h : Yields (read coloned) s behind)
    (closed : Yields (readMark '}' malformed behind) () rest) :
    Yields (Status.read (space ++ '{' :: inner)) s rest := by
  obtain ⟨n, ok_name, rfl, rfl⟩ := hname
  obtain ⟨c, ok_colon, -, rfl⟩ := colon
  obtain ⟨t, ok, rfl, rfl⟩ := h
  obtain ⟨e, ok_close, -, rfl⟩ := closed
  exact .spaced blank (solid_cons rfl) (.after ok_name (.after chosen (.after ok_colon
    (.after ok (.after ok_close ⟨_, rfl, rfl, rfl⟩)))))

/-- A status is the only member of its object. -/
inductive Shown : Status → List Token → Prop
  | complete {name : Token} : Spelling name "complete" →
    Shown complete (braced [member name [nullToken]])
  | failed {name text : Token} {message : String} : Spelling name "failed" → Spelling text message →
    Shown (failed message) (braced [member name [text]])

theorem reads_named {name : String} {token : Token} {read : Reader Status} {s : Status}
    (spelled : Spelling token name) (chosen : readNamed name = .ok read) (h : Reads read ts s) :
    Reads Status.read (braced [member token ts]) s := by
  have single : braced [member token ts] = ['{'] :: token :: [':'] :: (ts ++ [['}']]) := by
    simp [braced, items, separator, member]
  rw [single]
  refine ⟨⟨'{', rfl, rfl, by decide⟩, fun {text rest} spread _ => ?_⟩
  obtain ⟨space, inner, rfl, blank, spread⟩ := spread.behind
  obtain ⟨space', named, rfl, blank', spread⟩ := spread.behind
  obtain ⟨coloned, colon, spread⟩ := spread.mark malformed rfl
  obtain ⟨middle, value, closing⟩ := spread.split
  obtain ⟨more, closed, spread⟩ := closing.mark malformed rfl
  cases spread
  exact yields_read blank (spelled.yields blank') chosen colon (h.yields value (closing.ends rfl))
    closed

theorem reads {s : Status} (shown : s.Shown ts) : Reads Status.read ts s ∧ first? ts ≠ some 'n' := by
  cases shown with
  | complete spelled =>
    exact ⟨reads_named spelled rfl (reads_null.map fun _ => Status.complete), fun same => nomatch same⟩
  | failed spelled text =>
    exact ⟨reads_named spelled rfl (text.reads.map Status.failed), fun same => nomatch same⟩

theorem shown_tree (s : Status) : s.Shown s.toTree.tokens := by
  cases s with
  | complete =>
    simp only [toTree, Tree.tokens, Tree.memberTokens]
    exact .complete (spelling_quote "complete")
  | failed message =>
    simp only [toTree, Tree.tokens, Tree.memberTokens]
    exact .failed (spelling_quote "failed") (spelling_quote message)

end Status

/-- What is left out is as it is when nothing is said. -/
theorem getD_kept {p : Prop} [Decidable p] {a default : α} (kept : p ∨ a = default) :
    (if p then some a else none).getD default = a := by
  by_cases here : p
  · rw [if_pos here]
    rfl
  · rw [if_neg here]
    exact (kept.resolve_left here).symm

namespace Entry

/-- Only the output has no `null`. -/
def fields (e : Entry) : List Field := [
  ⟨"source", e.source = none, optionShown textShown e.source⟩,
  ⟨"status", e.status = none, optionShown Status.Shown e.status⟩,
  ⟨"output", e.output = "", textShown e.output⟩]

/-- What is known of an entry when members with these names have been read. -/
def draft (e : Entry) (seen : List String) : Draft where
  source := if "source" ∈ seen then some e.source else none
  status := if "status" ∈ seen then some e.status else none
  output := if "output" ∈ seen then some e.output else none

theorem draws (e : Entry) :
    Draws Draft.members (fun d => .ok d.finish) e.fields e.draft e where
  field := by
    intro f listed seen new
    simp only [fields, List.mem_cons, List.not_mem_nil, or_false] at listed
    obtain rfl | rfl | rfl := listed
    · refine ⟨_, if_neg (by simp [draft, new]), fun ts shown => ?_⟩
      have read := (reads_option reads_text shown).map fun v =>
        { e.draft seen with source := some v }
      simpa [draft] using read
    · refine ⟨_, if_neg (by simp [draft, new]), fun ts shown => ?_⟩
      have read := (reads_option Status.reads shown).map fun v =>
        { e.draft seen with status := some v }
      simpa [draft] using read
    · refine ⟨_, if_neg (by simp [draft, new]), fun ts shown => ?_⟩
      have read := (reads_text shown).1.map fun v => { e.draft seen with output := some v }
      simpa [draft] using read
  again := by
    intro f listed seen known
    simp only [fields, List.mem_cons, List.not_mem_nil, or_false] at listed
    obtain rfl | rfl | rfl := listed <;> exact if_pos (by simp [draft, known])
  other := by
    intro name foreign seen
    simp only [fields, List.mem_cons, List.not_mem_nil, or_false, forall_eq_or_imp, forall_eq] at foreign
    obtain ⟨no_source, no_status, no_output⟩ := foreign
    have same : e.draft (name :: seen) = e.draft seen := by
      simp [draft, no_source, no_status, no_output]
    rw [same, Draft.members]
    · exact no_source.symm
    · exact no_status.symm
    · exact no_output.symm
  whole := by
    intro seen whole
    simp only [fields, List.mem_cons, List.not_mem_nil, or_false, forall_eq_or_imp, forall_eq] at whole
    obtain ⟨source, status, output⟩ := whole
    simp [Draft.finish, draft, getD_kept source, getD_kept status, getD_kept output]

theorem yields_readFields {e : Entry} {tss : List (List Token)}
    (shown : List.Forall₂ Field.Shows e.fields tss)
    (spread : Spread rest (items true tss ++ [[']']]) text) :
    ∃ middle, Yields (readFields text) e middle ∧ Spread rest [[']']] middle := by
  simp only [fields, List.forall₂_cons_left_iff, List.forall₂_nil_left_iff] at shown
  obtain ⟨source, _, source_shown, ⟨status, _, status_shown, ⟨output, _, output_shown, rfl, rfl⟩,
    rfl⟩, rfl⟩ := shown
  obtain ⟨_, ⟨t, ok, source_is, rfl⟩, spread⟩ :=
    (reads_option reads_text source_shown).element spread fun behind => behind.ends_item rfl
  obtain ⟨_, ⟨u, ok', status_is, rfl⟩, spread⟩ :=
    (reads_option Status.reads status_shown).element spread fun behind => behind.ends_item rfl
  have read := (reads_text output_shown).1
  obtain ⟨inner, middle, ⟨l, ahead, rfl⟩, here, behind⟩ := spread.element read.opens
  obtain ⟨w, ok'', output_is, rfl⟩ := read.yields here (behind.ends_item rfl)
  refine ⟨_, .after ok (.after ok' (.after ahead (.after ok'' ⟨_, rfl, ?_, rfl⟩))), behind⟩
  show (⟨t.value, u.value, w.value⟩ : Entry) = e
  rw [source_is, status_is, output_is]

theorem reads {e : Entry} (record : Record e.fields ts) : Reads Entry.read ts e :=
  reads_record e.draws yields_readFields record

theorem faults {e : Entry} (repeats : Repeats e.fields ts) : Faults Entry.read ts :=
  faults_record e.draws repeats

theorem record_tree (e : Entry) : Record e.fields e.toTree.tokens := by
  have source := shown_option shown_string e.source
  have status := shown_option Status.shown_tree e.status
  have output := shown_string e.output
  rw [toTree, Tree.tokens, Tree.memberTokens, Tree.memberTokens, Tree.memberTokens,
    Tree.memberTokens]
  refine .object [.written "source" (optionTree Tree.string e.source).tokens,
    .written "status" (optionTree Status.toTree e.status).tokens,
    .written "output" (Tree.string e.output).tokens] ⟨?_, ?_, ?_⟩ ?_
  · simp [fields, Member.written, source, status, output]
  · simp [fields, Member.written]
  · simp [fields, Member.written]
  · simp [fields, Member.written]

end Entry

def Key.token (k : Key) : Token := wholeToken k.val

theorem Key.reads (k : Key) : Reads Key.read [k.token] k := (reads_whole k.val).map Key.mk

theorem Key.tokens_tree (k : Key) : k.toTree.tokens = [k.token] := by
  rw [toTree, Tree.tokens]
  rfl

namespace Order

def fields (o : Order) : List Field :=
  [⟨"val", False, fun ts => ts = bracketed (o.keys.map fun k => [k.token])⟩]

def draft (o : Order) (seen : List String) : Option (List Key) :=
  if "val" ∈ seen then some o.keys else none

theorem reads_keys (keys : List Key) :
    Reads (readArray Key.read) (bracketed (keys.map fun k => [k.token])) keys :=
  reads_array (List.forall₂_map_left_iff.2 (List.forall₂_same.2 fun k _ => k.reads))

theorem draws (o : Order) : Draws members finish o.fields o.draft o where
  field := by
    intro f listed seen new
    obtain rfl := List.mem_singleton.1 listed
    refine ⟨_, if_neg (by simp [draft, new]), fun ts shown => ?_⟩
    obtain rfl : ts = bracketed (o.keys.map fun k => [k.token]) := shown
    simpa [draft] using (reads_keys o.keys).map some
  again := by
    intro f listed seen known
    obtain rfl := List.mem_singleton.1 listed
    exact if_pos (by simp [draft, known])
  other := by
    intro name foreign seen
    have other : "val" ≠ name := foreign _ (List.mem_cons_self ..)
    have same : o.draft (name :: seen) = o.draft seen := by simp [draft, other]
    rw [same, members]
    exact other.symm
  whole := by
    intro seen whole
    have known : "val" ∈ seen := by simpa [fields] using whole
    rw [draft, if_pos known]
    rfl

theorem yields_readFields {o : Order} {tss : List (List Token)}
    (shown : List.Forall₂ Field.Shows o.fields tss)
    (spread : Spread rest (items true tss ++ [[']']]) text) :
    ∃ middle, Yields (readFields text) o middle ∧ Spread rest [[']']] middle := by
  simp only [fields, List.forall₂_cons_left_iff, List.forall₂_nil_left_iff] at shown
  obtain ⟨_, _, rfl, rfl, rfl⟩ := shown
  obtain ⟨middle, read, behind⟩ := (reads_keys o.keys).element spread fun h => h.ends_item rfl
  exact ⟨middle, read.map Order.mk, behind⟩

theorem reads {o : Order} (record : Record o.fields ts) : Reads Order.read ts o :=
  reads_record o.draws yields_readFields record

theorem faults {o : Order} (repeats : Repeats o.fields ts) : Faults Order.read ts :=
  faults_record o.draws repeats

theorem record_tree (o : Order) : Record o.fields o.toTree.tokens := by
  have keys : (Tree.array (o.keys.map Key.toTree)).tokens =
      bracketed (o.keys.map fun k => [k.token]) := by
    rw [Tree.tokens, Tree.elementTokens_map]
    simp only [Key.tokens_tree]
  rw [toTree, Tree.tokens, Tree.memberTokens, Tree.memberTokens]
  refine .object [.written "val" (Tree.array (o.keys.map Key.toTree)).tokens] ⟨?_, ?_, ?_⟩ ?_
  · simp [fields, Member.written, keys]
  · simp [fields, Member.written]
  · simp
  · simp [fields, Member.written]

end Order

/-! ## Reports -/

namespace Report

theorem yields_two {first : Reader α} {second : Reader β} {a : α} {b : β}
    {between behind : List Char} (opened : Yields (readMark '[' wrongKind text) () inner)
    (ha : Yields (readElement true first inner) a between)
    (hb : Yields (readElement false second between) b behind)
    (closed : Yields (closeArray behind) () rest) :
    Yields (readTwo first second text) (a, b) rest := by
  obtain ⟨s, ok_open, -, rfl⟩ := opened
  obtain ⟨t, ok, rfl, rfl⟩ := ha
  obtain ⟨u, ok', rfl, rfl⟩ := hb
  obtain ⟨e, ok_close, -, rfl⟩ := closed
  exact .after ok_open (.after ok (.after ok' (.after ok_close ⟨_, rfl, rfl, rfl⟩)))

section Two

variable {first : Reader α} {second : Reader β} {us : List Token} {a : α} {b : β}

theorem reads_two (ha : Reads first ts a) (hb : Reads second us b) :
    Reads (readTwo first second) (bracketed [ts, us]) (a, b) := by
  refine ⟨⟨'[', rfl, rfl, by decide⟩, fun {text rest} spread _ => ?_⟩
  obtain ⟨inner, opened, spread⟩ := spread.mark wrongKind rfl
  obtain ⟨between, read, spread⟩ := ha.element spread fun h => h.ends_item rfl
  obtain ⟨behind, read', spread⟩ := hb.element spread fun h => h.ends_item rfl
  obtain ⟨more, closed, spread⟩ := Spread.mark spread malformed rfl
  cases spread
  exact yields_two opened read read' closed

theorem faults_first (second : Reader β) (h : Faults first ts) :
    Faults (readTwo first second) (['['] :: items true [ts]) := by
  refine ⟨⟨'[', rfl, rfl, by decide⟩, fun spread => ?_⟩
  obtain ⟨inner, ⟨t, ok, -, rfl⟩, spread⟩ := spread.mark wrongKind rfl
  exact fault_after ok (congrArg (· >>= _) (h.element spread))

theorem faults_second (ha : Reads first ts a) (h : Faults second us) :
    Faults (readTwo first second) (['['] :: items true [ts, us]) := by
  refine ⟨⟨'[', rfl, rfl, by decide⟩, fun spread => ?_⟩
  obtain ⟨inner, ⟨t, ok, -, rfl⟩, spread⟩ := spread.mark wrongKind rfl
  rw [← List.append_nil (items true _)] at spread
  obtain ⟨between, ⟨u, ok', -, rfl⟩, spread⟩ := ha.element spread fun h => Spread.ends h rfl
  rw [List.append_nil] at spread
  exact fault_after ok (fault_after ok' (congrArg (· >>= _) (h.element spread)))

end Two

def orderShown : Option (List Key) → List Token → Prop :=
  optionShown fun keys => Record (Order.mk keys).fields

def pairShown (p : Key × Entry) (ts : List Token) : Prop :=
  ∃ record, Record p.2.fields record ∧ ts = bracketed [[p.1.token], record]

/-- The tokens of a report: its order, and its pairs as they may be listed. -/
inductive Shown (r : Report) : List Token → Prop
  | whole {order : List Token} {ps : List (Key × Entry)} {pairs : List (List Token)} :
    orderShown r.order order → Listed r.entries.toList ps → List.Forall₂ pairShown ps pairs →
    Shown r (bracketed [order, bracketed pairs])

/-- A text that says what a report says: its tokens, with white space before and behind each of them. -/
def Presents (r : Report) (text : String) : Prop :=
  ∃ ts space, r.Shown ts ∧ Blank space ∧ Spread space ts text.toList

/-- The front of a text for a report, up to where the first object repeats a field: that of the order,
or that of a pair behind others. -/
inductive Spoiled : List Token → Prop
  | order {o : Order} {front : List Token} : Repeats o.fields front →
    Spoiled (['['] :: items true [front])
  | entry {keys : Option (List Key)} {order : List Token} {ps : List (Key × Entry)}
    {pairs : List (List Token)} {k : Key} {e : Entry} {front : List Token} :
    orderShown keys order → List.Forall₂ pairShown ps pairs → Repeats e.fields front →
    Spoiled (['['] :: items true
      [order, ['['] :: items true (pairs ++ [['['] :: items true [[k.token], front]])])

theorem reads_order {keys : Option (List Key)} (shown : orderShown keys ts) :
    Reads (readOption Order.read) ts (keys.map Order.mk) := by
  cases keys with
  | none => exact reads_option (fun h => ⟨Order.reads h, h.first⟩) shown
  | some keys => exact (Order.reads shown).some (Record.first shown)

theorem reads_pair {p : Key × Entry} (shown : pairShown p ts) :
    Reads (readTwo Key.read Entry.read) ts p := by
  obtain ⟨record, entry, rfl⟩ := shown
  exact reads_two p.1.reads (Entry.reads entry)

theorem reads_pairs {ps : List (Key × Entry)} {pairs : List (List Token)}
    (shown : List.Forall₂ pairShown ps pairs) :
    List.Forall₂ (Reads (readTwo Key.read Entry.read)) pairs ps :=
  (shown.imp fun _ _ => reads_pair).flip

theorem reads {r : Report} (shown : r.Shown ts) : Reads Report.read ts r := by
  cases shown with
  | whole order listed pairs =>
    have both := (reads_two (reads_order order) (reads_array (reads_pairs pairs))).map fun p =>
      (⟨p.1.map Order.keys, SortedMap.ofList p.2⟩ : Report)
    have keys : (r.order.map Order.mk).map Order.keys = r.order := by
      cases r.order <;> rfl
    rw [SortedMap.ofList_listed listed, keys] at both
    exact both

theorem faults {front : List Token} (spoiled : Spoiled front) : Faults Report.read front := by
  cases spoiled with
  | order repeats => exact (faults_first _ ((Order.faults repeats).some repeats.first)).map _
  | @entry keys _ ps _ k _ _ order pairs repeats =>
    have pair := faults_second k.reads (Entry.faults repeats)
    exact (faults_second (reads_order order) (pair.array (reads_pairs pairs))).map _

/-! ## What is written -/

theorem shown_pair (p : Key × Entry) : pairShown p (pairTree p).tokens := by
  refine ⟨_, p.2.record_tree, ?_⟩
  rw [pairTree, Tree.tokens, Tree.elementTokens, Tree.elementTokens, Tree.elementTokens,
    Key.tokens_tree]

theorem shown_tree (r : Report) : r.Shown r.toTree.tokens := by
  have order : orderShown r.order (optionTree (fun keys => (Order.mk keys).toTree) r.order).tokens :=
    shown_option (fun keys => Order.record_tree ⟨keys⟩) r.order
  have pairs : List.Forall₂ pairShown r.entries.toList
      (r.entries.toList.map fun p => (pairTree p).tokens) :=
    List.forall₂_map_right_iff.2 (List.forall₂_same.2 fun p _ => shown_pair p)
  rw [toTree, Tree.tokens, Tree.elementTokens, Tree.elementTokens, Tree.elementTokens,
    Tree.tokens, Tree.elementTokens_map]
  exact .whole order (.order (.refl _)) pairs

/-- The encoding is one of the texts that say what a report says, in either layout. -/
theorem presents_text (r : Report) (layout : Layout) : r.Presents (r.toTree.text layout) := by
  refine ⟨r.toTree.tokens, [], r.shown_tree, blank_nil, ?_⟩
  rw [Tree.text, String.toList_ofList, ← List.append_nil (r.toTree.write layout 0)]
  exact r.toTree.spread_write layout 0 []

/-- A text that says what a report says is decoded to that report, however it is presented. An object
with a field that comes twice is refused as soon as the name comes again, alone and within a report,
whatever stands behind the name and whatever value the field has there. -/
theorem decoded_however_presented :
    (∀ (r : Report) (text : String), r.Presents text → decode text = .ok r) ∧
    (∀ (front : List Token) (text : String) (rest : List Char), Spoiled front →
      Spread rest front text.toList → decode text = .error .mismatched) ∧
    (∀ (e : Entry) (front : List Token) (text rest : List Char), Repeats e.fields front →
      Spread rest front text → readAll Entry.read text = .error .mismatched) ∧
    (∀ (o : Order) (front : List Token) (text rest : List Char), Repeats o.fields front →
      Spread rest front text → readAll Order.read text = .error .mismatched) := by
  refine ⟨?_, ?_, ?_, ?_⟩
  · intro r text presents
    obtain ⟨ts, space, shown, blank, spread⟩ := presents
    exact (reads shown).readAll blank spread
  · intro front text rest spoiled spread
    exact (faults spoiled).readAll spread
  · intro e front text rest repeats spread
    exact (Entry.faults repeats).readAll spread
  · intro o front text rest repeats spread
    exact (Order.faults repeats).readAll spread

theorem decoded_however_presented_when_scattered : ∃ r : Report,
    r = ⟨some [⟨7⟩], SortedMap.ofList [(⟨7⟩, ⟨some "x", none, ""⟩)]⟩ ∧
    decode ("[ \x7b\"note\": [true, \x7b\x7d], \"val\": [7]\x7d,\n" ++
      " [[7, [null, null, \"y\"]], [7, \x7b\"by\": null, \"source\": \"x\"\x7d]] ]") = .ok r ∧
    decode "[\x7b\"val\": [7], \"val\": [7]\x7d, []]" = .error .mismatched ∧
    decode "[null, [[7, \x7b\"source\": null, \"source\": null\x7d]]]" = .error .mismatched ∧
    readAll Entry.read "\x7b\"source\": null, \"source\": null\x7d".toList = .error .mismatched ∧
    readAll Order.read "\x7b\"val\": [7], \"val\": [7]\x7d".toList = .error .mismatched := by
  let r : Report := ⟨some [⟨7⟩], SortedMap.ofList [(⟨7⟩, ⟨some "x", none, ""⟩)]⟩
  obtain ⟨decoded, spoiled, entries, orders⟩ := decoded_however_presented
  have anything : Value (bracketed [[trueToken], braced []]) := by
    refine .array fun ts listed => ?_
    simp only [List.mem_cons, List.not_mem_nil, or_false] at listed
    obtain rfl | rfl := listed
    · exact .true
    · exact @Value.object [] nofun
  have order : orderShown r.order (braced [
      (Member.written "note" (bracketed [[trueToken], braced []])).tokens,
      (Member.written "val" (bracketed [[Key.token ⟨7⟩]])).tokens]) := by
    refine .object [.written "note" _, .written "val" _] ⟨?_, ?_, ?_⟩ ?_
    · simp [Order.fields, Member.written]
    · simpa [Order.fields, Member.written] using anything
    · simp [Order.fields, Member.written]
    · simp [Order.fields, Member.written]
  have early : pairShown (⟨7⟩, ⟨none, none, "y"⟩) (bracketed [[Key.token ⟨7⟩],
      bracketed [[nullToken], [nullToken], [quote "y".toList]]]) :=
    ⟨_, .array (.cons rfl (.cons rfl (.cons ⟨_, spelling_quote "y", rfl⟩ .nil))), rfl⟩
  have late : pairShown (⟨7⟩, ⟨some "x", none, ""⟩) (bracketed [[Key.token ⟨7⟩], braced [
      (Member.written "by" [nullToken]).tokens,
      (Member.written "source" [quote "x".toList]).tokens]]) := by
    refine ⟨_, .object [.written "by" _, .written "source" _] ⟨?_, ?_, ?_⟩ ?_, rfl⟩
    · simp [Entry.fields, Member.written, optionShown]
      exact ⟨_, spelling_quote "x", rfl⟩
    · simpa [Entry.fields, Member.written] using Value.null
    · simp [Entry.fields, Member.written]
    · simp [Entry.fields, Member.written]
  have listed : Listed r.entries.toList
      ([] ++ (⟨7⟩, ⟨none, none, "y"⟩) :: [(⟨7⟩, ⟨some "x", none, ""⟩)]) :=
    .earlier (.order (.refl _)) (by simp)
  have again : Repeats (Order.mk [⟨7⟩]).fields (['{'] ::
      (items true [(Member.written "val" (bracketed [[Key.token ⟨7⟩]])).tokens] ++
        [[','], quote "val".toList])) := by
    refine .again [.written "val" _] ⟨?_, ?_, ?_⟩ (List.mem_cons_self ..) ?_ (spelling_quote "val")
    · simp [Order.fields, Member.written]
    · simp [Order.fields, Member.written]
    · simp
    · simp [Member.written]
  have again' : Repeats (Entry.mk none none "").fields (['{'] ::
      (items true [(Member.written "source" [nullToken]).tokens] ++
        [[','], quote "source".toList])) := by
    refine .again [.written "source" _] ⟨?_, ?_, ?_⟩ (List.mem_cons_self ..) ?_
      (spelling_quote "source")
    · simp [Entry.fields, Member.written, optionShown]
    · simp [Entry.fields, Member.written]
    · simp
    · simp [Member.written]
  refine ⟨r, rfl, ?_, ?_, ?_, ?_, ?_⟩
  · exact decoded r _ ⟨_, [], .whole order listed (.cons early (.cons late .nil)), blank_nil,
      .of_strip (by decide +kernel)⟩
  · exact spoiled _ _ ": [7]\x7d, []]".toList (.order again) (.of_strip (by decide +kernel))
  · exact spoiled _ _ ": null\x7d]]]".toList (@Spoiled.entry none _ [] [] ⟨7⟩ _ _ rfl .nil again')
      (.of_strip (by decide +kernel))
  · exact entries _ _ _ ": null\x7d".toList again' (.of_strip (by decide +kernel))
  · exact orders _ _ _ ": [7]\x7d".toList again (.of_strip (by decide +kernel))

end Report

end Worksheet
