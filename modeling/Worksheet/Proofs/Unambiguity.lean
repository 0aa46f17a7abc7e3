import Mathlib
import Worksheet.Proofs.Parsing
/-! The grammar is unambiguous: tokens have one derivation at most. Main statement: an item is read
just when its tokens are derived, and the result is the tree of the one derivation. -/
namespace Worksheet.Calc.Grammar

variable {σ α : Type}

/-- The one phrase that has these tokens. -/
def Unique (tokens : α → List Token) (a : α) : Prop := ∀ b, tokens a = tokens b → a = b

/-- Where phrases end is clear from what is behind them. -/
def Delimited (tokens : α → List Token) (Ends : List Token → Prop) : Prop :=
  ∀ a b rest rest', Ends rest → Ends rest' → tokens a ++ rest = tokens b ++ rest' → rest = rest'

/-- The tokens of phrases that each stand behind a sign. -/
def linkTokens (sign : σ → Token) (tokens : α → List Token) : List (σ × α) → List Token
  | [] => []
  | (s, a) :: more => sign s :: (tokens a ++ linkTokens sign tokens more)

theorem linkTokens_append (sign : σ → Token) (tokens : α → List Token) (l l' : List (σ × α)) :
    linkTokens sign tokens (l ++ l') = linkTokens sign tokens l ++ linkTokens sign tokens l' := by
  induction l with
  | nil => rfl
  | cons x l ih =>
    obtain ⟨s, a⟩ := x
    simp only [List.cons_append, linkTokens, ih, List.append_assoc]

section Chain

variable {sign : σ → Token} {tokens : α → List Token} {Ends : List Token → Prop}

theorem ends_links (nil : Ends []) (cons : ∀ s rest, Ends (sign s :: rest)) :
    ∀ l : List (σ × α), Ends (linkTokens sign tokens l)
  | [] => nil
  | (s, _) :: _ => cons s _

/-- A chain of phrases can be cut at its signs in one way only. -/
theorem chain_unique (delimited : Delimited tokens Ends)
    (distinct : ∀ s s', sign s = sign s' → s = s') (nil : Ends [])
    (cons : ∀ s rest, Ends (sign s :: rest)) {a b : α} {l l' : List (σ × α)}
    (one : Unique tokens a) (each : ∀ x ∈ l, Unique tokens x.2)
    (same : tokens a ++ linkTokens sign tokens l = tokens b ++ linkTokens sign tokens l') :
    a = b ∧ l = l' := by
  induction l generalizing a b l' with
  | nil =>
    have behind := delimited a b _ _ (ends_links nil cons []) (ends_links nil cons l') same
    rw [behind] at same
    have first := one b (List.append_cancel_right same)
    cases l' with
    | nil => exact ⟨first, rfl⟩
    | cons x l' => cases behind
  | cons x l ih =>
    have behind := delimited a b _ _ (ends_links nil cons (x :: l)) (ends_links nil cons l') same
    rw [behind] at same
    have first := one b (List.append_cancel_right same)
    cases l' with
    | nil => cases behind
    | cons y l' =>
      obtain ⟨s, c⟩ := x
      obtain ⟨s', d⟩ := y
      obtain ⟨signs, rest⟩ := List.cons.inj behind
      obtain ⟨rfl, rfl⟩ := ih (each _ (List.mem_cons_self ..))
        (fun x hx => each x (List.mem_cons_of_mem _ hx)) rest
      cases distinct s s' signs
      exact ⟨first, rfl⟩

end Chain

theorem SumSign.token_inj (s s' : SumSign) (same : s.token = s'.token) : s = s' := by
  cases s with
  | plus => cases s' with
    | plus => rfl
    | minus => cases same
  | minus => cases s' with
    | plus => cases same
    | minus => rfl

theorem ProductSign.token_inj (s s' : ProductSign) (same : s.token = s'.token) : s = s' := by
  have ops := s.productOp?_token.symm.trans (same ▸ s'.productOp?_token)
  cases s with
  | star => cases s' with
    | star => rfl
    | _ => cases ops
  | slash => cases s' with
    | slash => rfl
    | _ => cases ops
  | percent => cases s' with
    | percent => rfl
    | _ => cases ops

theorem factor_delimited : Delimited Factor.tokens fun rest => rest.head? ≠ some .lparen := by
  intro f g rest rest' ends ends' same
  have read := f.read ends
  rw [same, g.read ends'] at read
  exact (Prod.mk.inj (Except.ok.inj read)).2.symm

theorem product_delimited : Delimited Product.tokens EndsProduct := by
  intro p q rest rest' ends ends' same
  have read := p.read id ends.no_call
  rw [same, q.read id ends'.no_call, behind_end ends.no_sign, behind_end ends'.no_sign] at read
  exact (Prod.mk.inj (Except.ok.inj read)).2.symm

theorem sum_delimited : Delimited Sum.tokens EndsSum := by
  intro d e rest rest' ends ends' same
  have read := d.read id ends.toEndsProduct
  rw [same, e.read id ends'.toEndsProduct, behind_end ends.no_sum, behind_end ends'.no_sum] at read
  exact (Prod.mk.inj (Except.ok.inj read)).2.symm

/-- The first product of a sum. -/
def Sum.head : Sum → Product
  | .product p => p
  | .join l _ _ => l.head

def Sum.links : Sum → List (SumSign × Product)
  | .product _ => []
  | .join l s r => l.links ++ [(s, r)]

def Sum.ofLinks (p : Product) (l : List (SumSign × Product)) : Sum :=
  l.foldl (fun d x => .join d x.1 x.2) (.product p)

theorem Sum.ofLinks_links : ∀ d : Sum, ofLinks d.head d.links = d
  | .product _ => rfl
  | .join l s r => by
    have before := l.ofLinks_links
    rw [ofLinks] at before
    rw [head, links, ofLinks, List.foldl_append, before]
    rfl

theorem Sum.tokens_links : ∀ d : Sum,
    d.tokens = d.head.tokens ++ linkTokens SumSign.token Product.tokens d.links
  | .product p => (List.append_nil _).symm
  | .join l s r => by
    rw [head, links, linkTokens_append, ← List.append_assoc, ← l.tokens_links, tokens, linkTokens,
      linkTokens, List.append_nil]

def Product.head : Product → Factor
  | .factor f => f
  | .join l _ _ => l.head

def Product.links : Product → List (ProductSign × Factor)
  | .factor _ => []
  | .join l s r => l.links ++ [(s, r)]

def Product.ofLinks (f : Factor) (l : List (ProductSign × Factor)) : Product :=
  l.foldl (fun d x => .join d x.1 x.2) (.factor f)

theorem Product.ofLinks_links : ∀ d : Product, ofLinks d.head d.links = d
  | .factor _ => rfl
  | .join l s r => by
    have before := l.ofLinks_links
    rw [ofLinks] at before
    rw [head, links, ofLinks, List.foldl_append, before]
    rfl

theorem Product.tokens_links : ∀ d : Product,
    d.tokens = d.head.tokens ++ linkTokens ProductSign.token Factor.tokens d.links
  | .factor f => (List.append_nil _).symm
  | .join l s r => by
    rw [head, links, linkTokens_append, ← List.append_assoc, ← l.tokens_links, tokens, linkTokens,
      linkTokens, List.append_nil]

theorem Sum.unique_of_parts {d : Sum} (one : Unique Product.tokens d.head)
    (each : ∀ x ∈ d.links, Unique Product.tokens x.2) : Unique Sum.tokens d := by
  intro e same
  rw [d.tokens_links, e.tokens_links] at same
  obtain ⟨head, links⟩ := chain_unique product_delimited SumSign.token_inj endsSum_nil.toEndsProduct
    endsProduct_sign one each same
  rw [← d.ofLinks_links, head, links, e.ofLinks_links]

theorem Product.unique_of_parts {d : Product} (one : Unique Factor.tokens d.head)
    (each : ∀ x ∈ d.links, Unique Factor.tokens x.2) : Unique Product.tokens d := by
  intro e same
  rw [d.tokens_links, e.tokens_links] at same
  obtain ⟨head, links⟩ := chain_unique factor_delimited ProductSign.token_inj nofun ProductSign.no_call
    one each same
  rw [← d.ofLinks_links, head, links, e.ofLinks_links]

theorem moreTokens_links (more : List Sum) :
    moreTokens more = linkTokens (fun _ : Unit => .comma) Sum.tokens (more.map ((), ·)) := by
  induction more with
  | nil => rfl
  | cons e more ih => rw [moreTokens, ih, List.map_cons, linkTokens]

theorem arguments_unique {args : List Sum} (each : ∀ e ∈ args, Unique Sum.tokens e) :
    Unique argumentTokens args := by
  have not_nil : ∀ (e : Sum) (more : List Sum), argumentTokens (e :: more) ≠ [] := by
    intro e more
    obtain ⟨t, rest, begins, _⟩ := e.starts
    rw [argumentTokens, begins]
    exact List.cons_ne_nil _ _
  intro args' same
  cases args with
  | nil => cases args' with
    | nil => rfl
    | cons e' more' => exact absurd same.symm (not_nil e' more')
  | cons e more => cases args' with
    | nil => exact absurd same (not_nil e more)
    | cons e' more' =>
      rw [argumentTokens, argumentTokens, moreTokens_links, moreTokens_links] at same
      have each' : ∀ x ∈ more.map (Prod.mk ()), Unique Sum.tokens x.2 := by
        intro x hx
        obtain ⟨d, hd, rfl⟩ := List.mem_map.1 hx
        exact each d (List.mem_cons_of_mem _ hd)
      obtain ⟨rfl, links⟩ := chain_unique sum_delimited (fun _ _ _ => rfl) endsSum_nil
        (fun _ rest => endsSum_comma rest) (each e (List.mem_cons_self ..)) each' same
      rw [(List.map_inj_right fun _ _ pairs => (Prod.mk.inj pairs).2).1 links]

mutual

theorem Sum.parts_unique : ∀ d : Sum, Unique Product.tokens d.head ∧
    ∀ x ∈ d.links, Unique Product.tokens x.2
  | .product p => ⟨Product.unique_of_parts p.parts_unique.1 p.parts_unique.2, nofun⟩
  | .join l s r => by
    refine ⟨l.parts_unique.1, fun x hx => ?_⟩
    rcases List.mem_append.1 hx with hx | hx
    · exact l.parts_unique.2 x hx
    · cases List.mem_singleton.1 hx
      exact Product.unique_of_parts r.parts_unique.1 r.parts_unique.2

theorem Product.parts_unique : ∀ d : Product, Unique Factor.tokens d.head ∧
    ∀ x ∈ d.links, Unique Factor.tokens x.2
  | .factor f => ⟨f.unique, nofun⟩
  | .join l s r => by
    refine ⟨l.parts_unique.1, fun x hx => ?_⟩
    rcases List.mem_append.1 hx with hx | hx
    · exact l.parts_unique.2 x hx
    · cases List.mem_singleton.1 hx
      exact r.unique

theorem Factor.unique : ∀ f : Factor, Unique Factor.tokens f
  | .minus f, .minus g, same => by rw [f.unique g (List.cons.inj same).2]
  | .minus f, .atom a, same => by
    obtain ⟨t, more, begins, other, _⟩ := a.starts
    exact absurd (List.cons.inj (same.trans begins)).1.symm other
  | .atom a, .minus f, same => by
    obtain ⟨t, more, begins, other, _⟩ := a.starts
    exact absurd (List.cons.inj (same.symm.trans begins)).1.symm other
  | .atom a, .atom b, same => by rw [a.unique b same]

theorem Atom.unique : ∀ a : Atom, Unique Atom.tokens a
  | .int n, b, same => by
    cases b with
    | int m => cases same; rfl
    | _ => cases same
  | .text s, b, same => by
    cases b with
    | text s' => cases same; rfl
    | _ => cases same
  | .name x, b, same => by
    cases b with
    | name y => cases same; rfl
    | _ => cases same
  | .call f args, b, same => by
    cases b with
    | call g args' =>
      obtain ⟨names, behind⟩ := List.cons.inj same
      cases names
      have inside := List.append_cancel_right (List.cons.inj behind).2
      rw [arguments_unique (args_unique args) args' inside]
    | _ => cases same
  | .parens e, b, same => by
    cases b with
    | parens e' =>
      have inside := List.append_cancel_right (List.cons.inj same).2
      rw [Sum.unique_of_parts e.parts_unique.1 e.parts_unique.2 e' inside]
    | _ => cases same

theorem args_unique : ∀ args : List Sum, ∀ e ∈ args, Unique Sum.tokens e
  | [], _, he => absurd he List.not_mem_nil
  | e :: more, d, hd => by
    rcases List.mem_cons.1 hd with same | hd
    · rw [same]
      exact Sum.unique_of_parts e.parts_unique.1 e.parts_unique.2
    · exact args_unique more d hd

end

theorem Sum.unique (d : Sum) : Unique Sum.tokens d :=
  unique_of_parts d.parts_unique.1 d.parts_unique.2

/-- An equals sign behind a name ends the sum, so a binding is never read as one. -/
theorem Sum.no_binding (d : Sum) (x : String) (rest : List Token) :
    d.tokens ≠ .name x :: .equals :: rest := by
  intro same
  have no_minus : (.name x :: .equals :: rest : List Token).head? ≠ some .minus := nofun
  have no_call : (.equals :: rest : List Token).head? ≠ some .lparen := nofun
  have whole := d.read id endsSum_nil.toEndsProduct
  rw [List.append_nil, same, plain_readSum, plain_readProduct, plain_readFactor_other no_minus,
    plain_readAtom_name x no_call] at whole
  cases (Prod.mk.inj (Except.ok.inj whole)).2

theorem readExpr_iff {tokens : List Token} {e : Expr} :
    readExpr tokens = .ok e ↔ ∃ d : Sum, d.tokens = tokens ∧ d.tree = e := by
  have whole : readExpr tokens = .ok e ↔ plain (readSum id tokens) = .ok (e, []) := by
    rw [readExpr]
    cases readSum id tokens with
    | error f => simp [plain, Except.map]
    | ok taken =>
      obtain ⟨value, rest, shorter⟩ := taken
      cases rest with
      | nil => simp [plain, Except.map]
      | cons t rest => simp [plain, Except.map]
  rw [whole]
  constructor
  · intro read
    obtain ⟨d, same, rfl⟩ := (sound tokens).sum read
    exact ⟨d, by rw [same, List.append_nil], d.graft_id.symm⟩
  · rintro ⟨d, rfl, rfl⟩
    have read := d.read id endsSum_nil.toEndsProduct
    rw [List.append_nil] at read
    rw [read, d.graft_id]
    rfl

theorem ofTokens_bare {tokens : List Token} (bare : ∀ x rest, tokens ≠ .name x :: .equals :: rest) :
    Item.ofTokens tokens = (readExpr tokens).map (⟨none, ·⟩) := by
  rw [Item.ofTokens]
  exact bare

theorem ofTokens_iff {tokens : List Token} {item : Item} :
    Item.ofTokens tokens = .ok item ↔ ∃ s : Sentence, s.tokens = tokens ∧ s.tree = item := by
  constructor
  · intro read
    by_cases binding : ∃ x rest, tokens = .name x :: .equals :: rest
    · obtain ⟨x, rest, rfl⟩ := binding
      obtain ⟨e, inside, rfl⟩ := map_ok read
      obtain ⟨d, rfl, rfl⟩ := readExpr_iff.1 inside
      exact ⟨⟨some x, d⟩, rfl, rfl⟩
    · have bare : ∀ x rest, tokens ≠ .name x :: .equals :: rest :=
        fun x rest same => binding ⟨x, rest, same⟩
      rw [ofTokens_bare bare] at read
      obtain ⟨e, inside, rfl⟩ := map_ok read
      obtain ⟨d, rfl, rfl⟩ := readExpr_iff.1 inside
      exact ⟨⟨none, d⟩, rfl, rfl⟩
  · rintro ⟨⟨name, body⟩, rfl, rfl⟩
    have inside : readExpr body.tokens = .ok body.tree := readExpr_iff.2 ⟨body, rfl, rfl⟩
    cases name with
    | none =>
      show Item.ofTokens body.tokens = _
      rw [ofTokens_bare body.no_binding, inside]
      rfl
    | some x =>
      show (readExpr body.tokens).map _ = _
      rw [inside]
      rfl

theorem Sentence.unique (s : Sentence) : Unique Sentence.tokens s := by
  intro s' same
  obtain ⟨name, body⟩ := s
  obtain ⟨name', body'⟩ := s'
  cases name with
  | none => cases name' with
    | none => rw [body.unique body' same]
    | some y => exact absurd same (body.no_binding y body'.tokens)
  | some x => cases name' with
    | none => exact absurd same.symm (body'.no_binding x body.tokens)
    | some y =>
      obtain ⟨names, behind⟩ := List.cons.inj same
      cases names
      rw [body.unique body' (List.cons.inj behind).2]

/-- A text with a piece that is no token fails for the first one. A text of tokens is read just when
the grammar derives its tokens, the derivation is the only one, and the item is its tree. -/
theorem parsed_iff_derived (text : String) :
    (∀ piece span, (lex text).bad = some (piece, span) →
      ∃ e, Item.parse text = .error e ∧ e.message = "unexpected input '" ++ piece ++ "'") ∧
    ((lex text).bad = none →
      (∀ item, Item.parse text = .ok item ↔
        ∃ s : Sentence, s.tokens = (lex text).tokens ∧ s.tree = item) ∧
      ∀ s s' : Sentence, s.tokens = (lex text).tokens → s'.tokens = (lex text).tokens → s = s') := by
  constructor
  · intro piece span bad
    refine ⟨.badInput piece, by simp only [Item.parse, bad], ?_⟩
    simp [ParseError.message, ParseError.pieces, String.join]
  · intro good
    have parsed : Item.parse text = Item.ofTokens (lex text).tokens := by
      simp only [Item.parse, good]
    refine ⟨fun item => by rw [parsed, ofTokens_iff], fun s s' same same' => ?_⟩
    exact s.unique s' (same.trans same'.symm)

theorem parsed_iff_derived_when_mixed :
    Item.parse "a = 1 - 2 - -f(b, 4) * (3)" = .ok ⟨some "a", .bin .sub (.bin .sub (.int 1) (.int 2))
      (.bin .mul (.neg (.call "f" [.var "b", .int 4])) (.int 3))⟩ ∧
    ∃ e, Item.parse "f(1 + $ #" = .error e ∧ e.message = "unexpected input '$'" := by
  let one : Product := .factor (.atom (.int 1))
  let two : Product := .factor (.atom (.int 2))
  let args : List Sum := [.product (.factor (.atom (.name "b"))), .product (.factor (.atom (.int 4)))]
  let three : Atom := .parens (.product (.factor (.atom (.int 3))))
  let last : Product := .join (.factor (.minus (.atom (.call "f" args)))) .star (.atom three)
  have good : (lex "a = 1 - 2 - -f(b, 4) * (3)").bad = none := by cbv
  have tokens : (⟨some "a", .join (.join (.product one) .minus two) .minus last⟩ : Sentence).tokens =
      (lex "a = 1 - 2 - -f(b, 4) * (3)").tokens := by cbv
  have bad : (lex "f(1 + $ #").bad = some ("$", ⟨6, 7⟩) := by cbv
  have parsed := ((parsed_iff_derived "a = 1 - 2 - -f(b, 4) * (3)").2 good).1
  exact ⟨(parsed _).2 ⟨_, tokens, rfl⟩, (parsed_iff_derived "f(1 + $ #").1 "$" _ bad⟩

end Worksheet.Calc.Grammar
