import Worksheet.Proofs.Grammar
/-! The readers accept exactly what the grammar derives. -/
namespace Worksheet.Calc

variable {α : Type} {tokens rest : List Token}

/-- What a reader gives, without the proof that it takes something. -/
def plain (r : Except ParseError (Taken α tokens)) : Except ParseError (α × List Token) :=
  r.map fun t => (t.value, t.rest)

theorem bind_ok {ε β γ : Type} {first : Except ε β} {next : β → Except ε γ} {c : γ}
    (h : first.bind next = .ok c) : ∃ b, first = .ok b ∧ next b = .ok c := by
  cases first with
  | error e => cases h
  | ok b => exact ⟨b, rfl, h⟩

theorem map_ok {ε β γ : Type} {first : Except ε β} {f : β → γ} {c : γ} (h : first.map f = .ok c) :
    ∃ b, first = .ok b ∧ f b = c := by
  cases first with
  | error e => cases h
  | ok b => exact ⟨b, rfl, Except.ok.inj h⟩

theorem plain_shorter {r : Except ParseError (Taken α tokens)} {value : α}
    (h : plain r = .ok (value, rest)) : rest.length < tokens.length := by
  cases r with
  | error e => cases h
  | ok t =>
    cases h
    exact t.shorter

/-- How sums and products go on behind an operand: with a sign and the rest of the chain, or not. -/
def behind (op? : Token → Option Op)
    (read : (Expr → Expr) → (tokens : List Token) → Except ParseError (Taken Expr tokens))
    (e : Expr) : List Token → Except ParseError (Expr × List Token)
  | [] => .ok (e, [])
  | t :: rest =>
    match op? t with
    | none => .ok (e, t :: rest)
    | some op => plain (read (.bin op e) rest)

theorem plain_readSum (left : Expr → Expr) (tokens : List Token) :
    plain (readSum left tokens) = (plain (readProduct id tokens)).bind fun (value, rest) =>
      behind sumOp? readSum (left value) rest := by
  rw [readSum]
  cases readProduct id tokens with
  | error e => rfl
  | ok taken =>
    obtain ⟨value, rest, shorter⟩ := taken
    cases rest with
    | nil => rfl
    | cons t rest =>
      simp only [plain, Except.map, Except.bind, behind]
      cases sumOp? t with
      | none => rfl
      | some op =>
        simp only
        cases readSum (.bin op (left value)) rest with
        | error e => rfl
        | ok taken => rfl

theorem plain_readProduct (left : Expr → Expr) (tokens : List Token) :
    plain (readProduct left tokens) = (plain (readFactor tokens)).bind fun (value, rest) =>
      behind productOp? readProduct (left value) rest := by
  rw [readProduct]
  cases readFactor tokens with
  | error e => rfl
  | ok taken =>
    obtain ⟨value, rest, shorter⟩ := taken
    cases rest with
    | nil => rfl
    | cons t rest =>
      simp only [plain, Except.map, Except.bind, behind]
      cases productOp? t with
      | none => rfl
      | some op =>
        simp only
        cases readProduct (.bin op (left value)) rest with
        | error e => rfl
        | ok taken => rfl

theorem plain_readFactor_minus (rest : List Token) :
    plain (readFactor (.minus :: rest)) =
      (plain (readFactor rest)).map fun (value, rest) => (.neg value, rest) := by
  rw [readFactor, if_pos rfl]
  cases readFactor rest with
  | error e => rfl
  | ok taken => rfl

theorem plain_readFactor_other (other : tokens.head? ≠ some .minus) :
    plain (readFactor tokens) = plain (readAtom tokens) := by
  cases tokens with
  | nil => rw [readFactor]
  | cons t rest =>
    have differ : t ≠ .minus := fun same => other (congrArg some same)
    rw [readFactor, if_neg differ]

theorem plain_readAtom_call (f : String) (rest : List Token) :
    plain (readAtom (.name f :: .lparen :: rest)) =
      (plain (readCall rest)).map fun (args, rest) => (.call f args, rest) := by
  rw [readAtom, if_pos rfl]
  cases readCall rest with
  | error e => rfl
  | ok taken => rfl

theorem plain_readAtom_name (x : String) (alone : rest.head? ≠ some .lparen) :
    plain (readAtom (.name x :: rest)) = .ok (.var x, rest) := by
  cases rest with
  | nil =>
    rw [readAtom]
    rfl
  | cons u more =>
    have differ : u ≠ .lparen := fun same => alone (congrArg some same)
    rw [readAtom, if_neg differ]
    rfl

/-- The closing parenthesis behind a sum. -/
def closeBehind (e : Expr) : List Token → Except ParseError (Expr × List Token)
  | [] => .error (.unclosed none)
  | u :: rest => if u = .rparen then .ok (e, rest) else .error (.unclosed (some u))

theorem plain_readAtom_parens (rest : List Token) :
    plain (readAtom (.lparen :: rest)) =
      (plain (readSum id rest)).bind fun (e, rest) => closeBehind e rest := by
  rw [readAtom]
  simp only
  cases readSum id rest with
  | error e => rfl
  | ok taken =>
    obtain ⟨value, rest, shorter⟩ := taken
    cases rest with
    | nil => rfl
    | cons u rest =>
      simp only [plain, Except.map, Except.bind, closeBehind]
      by_cases close : u = .rparen
      · simp only [if_pos close]
      · simp only [if_neg close]

def argumentsBehind (e : Expr) : List Token → Except ParseError (List Expr × List Token)
  | [] => .error (.unclosed none)
  | t :: rest =>
    if t = .comma then (plain (readArguments rest)).map fun (more, rest) => (e :: more, rest)
    else if t = .rparen then .ok ([e], rest)
    else .error (.badSeparator t)

theorem plain_readArguments (tokens : List Token) :
    plain (readArguments tokens) =
      (plain (readSum id tokens)).bind fun (e, rest) => argumentsBehind e rest := by
  rw [readArguments]
  cases readSum id tokens with
  | error e => rfl
  | ok taken =>
    obtain ⟨value, rest, shorter⟩ := taken
    cases rest with
    | nil => rfl
    | cons t rest =>
      simp only [plain, Except.map, Except.bind, argumentsBehind]
      by_cases comma : t = .comma
      · simp only [if_pos comma]
        cases readArguments rest with
        | error e => rfl
        | ok taken => rfl
      · simp only [if_neg comma]
        by_cases close : t = .rparen
        · simp only [if_pos close]
        · simp only [if_neg close]

theorem plain_readCall_other (other : tokens.head? ≠ some .rparen) (some_left : tokens ≠ []) :
    plain (readCall tokens) = plain (readArguments tokens) := by
  cases tokens with
  | nil => exact absurd rfl some_left
  | cons t rest =>
    have differ : t ≠ .rparen := fun same => other (congrArg some same)
    rw [readCall, if_neg differ]

theorem behind_end {op? : Token → Option Op}
    {read : (Expr → Expr) → (tokens : List Token) → Except ParseError (Taken Expr tokens)} {e : Expr}
    (ends : ∀ t, rest.head? = some t → op? t = none) : behind op? read e rest = .ok (e, rest) := by
  cases rest with
  | nil => rfl
  | cons t rest => simp only [behind, ends t rfl]

theorem behind_sign {op? : Token → Option Op}
    {read : (Expr → Expr) → (tokens : List Token) → Except ParseError (Taken Expr tokens)} {e : Expr}
    {t : Token} {op : Op} (sign : op? t = some op) :
    behind op? read e (t :: rest) = plain (read (.bin op e) rest) := by
  simp only [behind, sign]

theorem behind_ok {op? : Token → Option Op}
    {read : (Expr → Expr) → (tokens : List Token) → Except ParseError (Taken Expr tokens)}
    {e e' : Expr} (h : behind op? read e tokens = .ok (e', rest)) :
    (tokens = rest ∧ e = e') ∨ ∃ t op more, tokens = t :: more ∧ op? t = some op ∧
      plain (read (.bin op e) more) = .ok (e', rest) := by
  cases tokens with
  | nil =>
    cases h
    exact Or.inl ⟨rfl, rfl⟩
  | cons t more =>
    simp only [behind] at h
    split at h
    · cases h
      exact Or.inl ⟨rfl, rfl⟩
    · exact Or.inr ⟨t, _, more, rfl, ‹_›, h⟩

theorem closeBehind_ok {e e' : Expr} {behind rest : List Token}
    (h : closeBehind e behind = .ok (e', rest)) : behind = .rparen :: rest ∧ e' = e := by
  cases behind with
  | nil => cases h
  | cons u more =>
    simp only [closeBehind] at h
    split at h
    · rename_i close
      cases h
      exact ⟨by rw [close], rfl⟩
    · cases h

theorem argumentsBehind_ok {e : Expr} {es : List Expr}
    (h : argumentsBehind e tokens = .ok (es, rest)) :
    (tokens = .rparen :: rest ∧ es = [e]) ∨ ∃ more es', tokens = .comma :: more ∧ es = e :: es' ∧
      plain (readArguments more) = .ok (es', rest) := by
  cases tokens with
  | nil => cases h
  | cons t more =>
    simp only [argumentsBehind] at h
    split at h
    · rename_i comma
      obtain ⟨⟨es', rest⟩, inside, same⟩ := map_ok h
      cases same
      exact Or.inr ⟨more, es', by rw [comma], rfl, inside⟩
    · split at h
      · rename_i close
        cases h
        exact Or.inl ⟨by rw [close], rfl⟩
      · cases h

namespace Grammar

/-- No product goes on with these tokens. -/
structure EndsProduct (rest : List Token) : Prop where
  no_call : rest.head? ≠ some .lparen
  no_sign : ∀ t, rest.head? = some t → productOp? t = none

/-- No sum goes on with these tokens. -/
structure EndsSum (rest : List Token) : Prop extends EndsProduct rest where
  no_sum : ∀ t, rest.head? = some t → sumOp? t = none

theorem endsSum_nil : EndsSum [] := ⟨⟨nofun, nofun⟩, nofun⟩

theorem endsSum_rparen (rest : List Token) : EndsSum (.rparen :: rest) :=
  ⟨⟨nofun, fun _ h => Option.some.inj h ▸ rfl⟩, fun _ h => Option.some.inj h ▸ rfl⟩

theorem endsSum_comma (rest : List Token) : EndsSum (.comma :: rest) :=
  ⟨⟨nofun, fun _ h => Option.some.inj h ▸ rfl⟩, fun _ h => Option.some.inj h ▸ rfl⟩

theorem endsProduct_sign (s : SumSign) (rest : List Token) : EndsProduct (s.token :: rest) := by
  cases s with
  | plus => exact ⟨nofun, fun _ h => Option.some.inj h ▸ rfl⟩
  | minus => exact ⟨nofun, fun _ h => Option.some.inj h ▸ rfl⟩

theorem ProductSign.no_call (s : ProductSign) (rest : List Token) :
    (s.token :: rest).head? ≠ some .lparen := by
  cases s with
  | star => exact nofun
  | slash => exact nofun
  | percent => exact nofun

/-- The tree of a sum whose first product is put in its place by `left`. -/
def Sum.graft (left : Expr → Expr) : Sum → Expr
  | .product p => left p.tree
  | .join l s r => .bin s.op (l.graft left) r.tree

def Product.graft (left : Expr → Expr) : Product → Expr
  | .factor f => left f.tree
  | .join l s r => .bin s.op (l.graft left) r.tree

theorem Sum.graft_id : ∀ d : Sum, d.graft id = d.tree
  | .product _ => rfl
  | .join l s r => by rw [graft, l.graft_id, tree]

theorem Product.graft_id : ∀ d : Product, d.graft id = d.tree
  | .factor _ => rfl
  | .join l s r => by rw [graft, l.graft_id, tree]

theorem Atom.starts (a : Atom) : ∃ t more, a.tokens = t :: more ∧ t ≠ .minus ∧ t ≠ .rparen := by
  cases a with
  | int n => exact ⟨_, _, rfl, nofun, nofun⟩
  | text s => exact ⟨_, _, rfl, nofun, nofun⟩
  | name x => exact ⟨_, _, rfl, nofun, nofun⟩
  | call f args => exact ⟨_, _, rfl, nofun, nofun⟩
  | parens e => exact ⟨_, _, rfl, nofun, nofun⟩

theorem Factor.starts : ∀ f : Factor, ∃ t more, f.tokens = t :: more ∧ t ≠ .rparen
  | .minus f => ⟨.minus, f.tokens, rfl, nofun⟩
  | .atom a => by
    obtain ⟨t, more, begins, _, other⟩ := a.starts
    exact ⟨t, more, begins, other⟩

theorem Product.starts : ∀ p : Product, ∃ t more, p.tokens = t :: more ∧ t ≠ .rparen
  | .factor f => f.starts
  | .join l s r => by
    obtain ⟨t, more, begins, other⟩ := l.starts
    exact ⟨t, more ++ s.token :: r.tokens, by rw [tokens, begins, List.cons_append], other⟩

theorem Sum.starts : ∀ e : Sum, ∃ t more, e.tokens = t :: more ∧ t ≠ .rparen
  | .product p => p.starts
  | .join l s r => by
    obtain ⟨t, more, begins, other⟩ := l.starts
    exact ⟨t, more ++ s.token :: r.tokens, by rw [tokens, begins, List.cons_append], other⟩

mutual

theorem Sum.read : ∀ (d : Sum) (left : Expr → Expr) {rest : List Token}, EndsProduct rest →
    plain (readSum left (d.tokens ++ rest)) = behind sumOp? readSum (d.graft left) rest
  | .product p, left, rest, ends => by
    rw [Sum.tokens, plain_readSum, p.read id ends.no_call, behind_end ends.no_sign, p.graft_id]
    rfl
  | .join l s r, left, rest, ends => by
    rw [Sum.tokens, List.append_assoc, List.cons_append, l.read left (endsProduct_sign s _),
      behind_sign s.sumOp?_token, plain_readSum, r.read id ends.no_call, behind_end ends.no_sign,
      r.graft_id]
    rfl

theorem Product.read : ∀ (d : Product) (left : Expr → Expr) {rest : List Token},
    rest.head? ≠ some .lparen →
    plain (readProduct left (d.tokens ++ rest)) = behind productOp? readProduct (d.graft left) rest
  | .factor f, left, rest, ends => by
    rw [Product.tokens, plain_readProduct, f.read ends]
    rfl
  | .join l s r, left, rest, ends => by
    rw [Product.tokens, List.append_assoc, List.cons_append, l.read left (s.no_call _),
      behind_sign s.productOp?_token, plain_readProduct, r.read ends]
    rfl

theorem Factor.read : ∀ (d : Factor) {rest : List Token}, rest.head? ≠ some .lparen →
    plain (readFactor (d.tokens ++ rest)) = .ok (d.tree, rest)
  | .minus f, rest, ends => by
    rw [Factor.tokens, List.cons_append, plain_readFactor_minus, f.read ends]
    rfl
  | .atom a, rest, ends => by
    obtain ⟨t, more, begins, other, _⟩ := a.starts
    have no_minus : (a.tokens ++ rest).head? ≠ some .minus := by
      rw [begins]
      exact fun same => other (Option.some.inj same)
    rw [Factor.tokens, plain_readFactor_other no_minus, a.read ends]
    rfl

theorem Atom.read : ∀ (d : Atom) {rest : List Token}, rest.head? ≠ some .lparen →
    plain (readAtom (d.tokens ++ rest)) = .ok (d.tree, rest)
  | .int n, rest, ends => by
    rw [Atom.tokens, List.singleton_append, readAtom]
    rfl
  | .text s, rest, ends => by
    rw [Atom.tokens, List.singleton_append, readAtom]
    rfl
  | .name x, rest, ends => by
    rw [Atom.tokens, List.singleton_append, plain_readAtom_name x ends, Atom.tree]
  | .call f args, rest, ends => by
    rw [Atom.tokens, List.cons_append, List.cons_append, plain_readAtom_call, List.append_assoc,
      List.singleton_append, read_call args]
    rfl
  | .parens e, rest, ends => by
    rw [Atom.tokens, List.cons_append, plain_readAtom_parens, List.append_assoc,
      List.singleton_append, e.read id (endsSum_rparen _).toEndsProduct,
      behind_end (endsSum_rparen _).no_sum, e.graft_id]
    rfl

theorem read_call : ∀ (args : List Sum) {rest : List Token},
    plain (readCall (argumentTokens args ++ .rparen :: rest)) = .ok (trees args, rest)
  | [], rest => by
    rw [argumentTokens, List.nil_append, readCall, if_pos rfl]
    rfl
  | e :: more, rest => by
    obtain ⟨t, _, begins, other⟩ := e.starts
    have no_close : (argumentTokens (e :: more) ++ .rparen :: rest).head? ≠ some .rparen := by
      rw [argumentTokens, begins]
      exact fun same => other (Option.some.inj same)
    rw [plain_readCall_other no_close (by simp), read_arguments (e :: more) rest (List.cons_ne_nil _ _)]

theorem read_arguments : ∀ (args : List Sum) (rest : List Token), args ≠ [] →
    plain (readArguments (argumentTokens args ++ .rparen :: rest)) = .ok (trees args, rest)
  | [], _, missing => absurd rfl missing
  | [e], rest, _ => by
    rw [argumentTokens, moreTokens, List.append_nil, plain_readArguments,
      e.read id (endsSum_rparen _).toEndsProduct, behind_end (endsSum_rparen _).no_sum, e.graft_id]
    rfl
  | e :: e' :: more, rest, _ => by
    have others := read_arguments (e' :: more) rest (List.cons_ne_nil _ _)
    rw [argumentTokens] at others
    rw [argumentTokens, moreTokens, List.append_assoc, List.cons_append, plain_readArguments,
      e.read id (endsSum_comma _).toEndsProduct, behind_end (endsSum_comma _).no_sum, e.graft_id]
    show (plain (readArguments (e'.tokens ++ moreTokens more ++ .rparen :: rest))).map _ = _
    rw [others]
    rfl

end

/-- Puts a factor in front of a product. -/
def Product.prepend (f : Factor) (s : ProductSign) : Product → Product
  | .factor g => .join (.factor f) s g
  | .join l s' r => .join (l.prepend f s) s' r

theorem Product.tokens_prepend (f : Factor) (s : ProductSign) :
    ∀ d : Product, (d.prepend f s).tokens = f.tokens ++ s.token :: d.tokens
  | .factor g => rfl
  | .join l s' r => by
    rw [prepend, tokens, l.tokens_prepend f s, tokens, List.append_assoc, List.cons_append]

theorem Product.graft_prepend (f : Factor) (s : ProductSign) (left : Expr → Expr) :
    ∀ d : Product, (d.prepend f s).graft left = d.graft (.bin s.op (left f.tree))
  | .factor g => rfl
  | .join l s' r => by rw [prepend, graft, l.graft_prepend f s left, graft]

def Sum.prepend (p : Product) (s : SumSign) : Sum → Sum
  | .product q => .join (.product p) s q
  | .join l s' r => .join (l.prepend p s) s' r

theorem Sum.tokens_prepend (p : Product) (s : SumSign) :
    ∀ d : Sum, (d.prepend p s).tokens = p.tokens ++ s.token :: d.tokens
  | .product q => rfl
  | .join l s' r => by
    rw [prepend, tokens, l.tokens_prepend p s, tokens, List.append_assoc, List.cons_append]

theorem Sum.graft_prepend (p : Product) (s : SumSign) (left : Expr → Expr) :
    ∀ d : Sum, (d.prepend p s).graft left = d.graft (.bin s.op (left p.tree))
  | .product q => rfl
  | .join l s' r => by rw [prepend, graft, l.graft_prepend p s left, graft]

/-- What the readers take off the front of these tokens is derived by the grammar. -/
structure Sound (tokens : List Token) : Prop where
  sum : ∀ {left e rest}, plain (readSum left tokens) = .ok (e, rest) →
    ∃ d : Sum, tokens = d.tokens ++ rest ∧ e = d.graft left
  product : ∀ {left e rest}, plain (readProduct left tokens) = .ok (e, rest) →
    ∃ d : Product, tokens = d.tokens ++ rest ∧ e = d.graft left
  factor : ∀ {e rest}, plain (readFactor tokens) = .ok (e, rest) →
    ∃ d : Factor, tokens = d.tokens ++ rest ∧ e = d.tree
  call : ∀ {es rest}, plain (readCall tokens) = .ok (es, rest) →
    ∃ args : List Sum, tokens = argumentTokens args ++ .rparen :: rest ∧ es = trees args
  arguments : ∀ {es rest}, plain (readArguments tokens) = .ok (es, rest) →
    ∃ args : List Sum, args ≠ [] ∧ tokens = argumentTokens args ++ .rparen :: rest ∧ es = trees args

section Sound

variable (shorter : ∀ us : List Token, us.length < tokens.length → Sound us)
include shorter

theorem atom_sound {e : Expr} (h : plain (readAtom tokens) = .ok (e, rest)) :
    ∃ d : Atom, tokens = d.tokens ++ rest ∧ e = d.tree := by
  cases tokens with
  | nil =>
    rw [readAtom] at h
    cases h
  | cons t more =>
    cases t with
    | int n =>
      rw [readAtom] at h
      cases h
      exact ⟨.int n, rfl, rfl⟩
    | text s =>
      rw [readAtom] at h
      cases h
      exact ⟨.text s, rfl, rfl⟩
    | name x =>
      by_cases call : more.head? = some .lparen
      · obtain ⟨more, rfl⟩ := List.head?_eq_some_iff.1 call
        rw [plain_readAtom_call] at h
        obtain ⟨⟨es, rest⟩, inside, same⟩ := map_ok h
        cases same
        obtain ⟨args, rfl, rfl⟩ := (shorter more (by simp only [List.length_cons]; omega)).call inside
        exact ⟨.call x args, by simp [Atom.tokens], rfl⟩
      · rw [plain_readAtom_name x call] at h
        cases h
        exact ⟨.name x, rfl, rfl⟩
    | lparen =>
      rw [plain_readAtom_parens] at h
      obtain ⟨⟨value, behind⟩, inside, close⟩ := bind_ok h
      obtain ⟨d, rfl, rfl⟩ := (shorter more (Nat.lt_succ_self _)).sum inside
      obtain ⟨rfl, rfl⟩ := closeBehind_ok close
      exact ⟨.parens d, by simp [Atom.tokens], d.graft_id⟩
    | _ =>
      rw [readAtom] at h
      cases h

theorem factor_sound {e : Expr} (h : plain (readFactor tokens) = .ok (e, rest)) :
    ∃ d : Factor, tokens = d.tokens ++ rest ∧ e = d.tree := by
  by_cases minus : tokens.head? = some .minus
  · obtain ⟨more, rfl⟩ := List.head?_eq_some_iff.1 minus
    rw [plain_readFactor_minus] at h
    obtain ⟨⟨value, rest⟩, inside, same⟩ := map_ok h
    cases same
    obtain ⟨d, rfl, rfl⟩ := (shorter more (Nat.lt_succ_self _)).factor inside
    exact ⟨.minus d, rfl, rfl⟩
  · rw [plain_readFactor_other minus] at h
    obtain ⟨d, rfl, rfl⟩ := atom_sound shorter h
    exact ⟨.atom d, rfl, rfl⟩

theorem product_sound {left : Expr → Expr} {e : Expr}
    (h : plain (readProduct left tokens) = .ok (e, rest)) :
    ∃ d : Product, tokens = d.tokens ++ rest ∧ e = d.graft left := by
  rw [plain_readProduct] at h
  obtain ⟨⟨value, more⟩, first, next⟩ := bind_ok h
  have less := plain_shorter first
  obtain ⟨f, rfl, rfl⟩ := factor_sound shorter first
  rcases behind_ok next with ⟨rfl, rfl⟩ | ⟨t, op, others, rfl, sign, next⟩
  · exact ⟨.factor f, rfl, rfl⟩
  · obtain ⟨s, rfl, rfl⟩ := ProductSign.of_productOp? sign
    obtain ⟨d, rfl, rfl⟩ := (shorter others (Nat.lt_of_succ_lt less)).product next
    exact ⟨d.prepend f s, by simp [d.tokens_prepend], (d.graft_prepend f s left).symm⟩

theorem sum_sound {left : Expr → Expr} {e : Expr} (h : plain (readSum left tokens) = .ok (e, rest)) :
    ∃ d : Sum, tokens = d.tokens ++ rest ∧ e = d.graft left := by
  rw [plain_readSum] at h
  obtain ⟨⟨value, more⟩, first, next⟩ := bind_ok h
  have less := plain_shorter first
  obtain ⟨p, rfl, rfl⟩ := product_sound shorter first
  rw [p.graft_id] at next
  rcases behind_ok next with ⟨rfl, rfl⟩ | ⟨t, op, others, rfl, sign, next⟩
  · exact ⟨.product p, rfl, rfl⟩
  · obtain ⟨s, rfl, rfl⟩ := SumSign.of_sumOp? sign
    obtain ⟨d, rfl, rfl⟩ := (shorter others (Nat.lt_of_succ_lt less)).sum next
    exact ⟨d.prepend p s, by simp [d.tokens_prepend], (d.graft_prepend p s left).symm⟩

theorem arguments_sound {es : List Expr} (h : plain (readArguments tokens) = .ok (es, rest)) :
    ∃ args : List Sum, args ≠ [] ∧ tokens = argumentTokens args ++ .rparen :: rest ∧
      es = trees args := by
  rw [plain_readArguments] at h
  obtain ⟨⟨value, more⟩, first, next⟩ := bind_ok h
  have less := plain_shorter first
  obtain ⟨d, rfl, rfl⟩ := sum_sound shorter first
  rcases argumentsBehind_ok next with ⟨rfl, rfl⟩ | ⟨others, es, rfl, rfl, inside⟩
  · exact ⟨[d], List.cons_ne_nil _ _, by simp [argumentTokens, moreTokens], by
      rw [d.graft_id]
      rfl⟩
  · obtain ⟨args, some_left, rfl, rfl⟩ := (shorter others (Nat.lt_of_succ_lt less)).arguments inside
    cases args with
    | nil => exact absurd rfl some_left
    | cons e args =>
      refine ⟨d :: e :: args, List.cons_ne_nil _ _, ?_, ?_⟩
      · simp [argumentTokens, moreTokens]
      · rw [d.graft_id]
        rfl

theorem call_sound {es : List Expr} (h : plain (readCall tokens) = .ok (es, rest)) :
    ∃ args : List Sum, tokens = argumentTokens args ++ .rparen :: rest ∧ es = trees args := by
  by_cases close : tokens.head? = some .rparen
  · obtain ⟨more, rfl⟩ := List.head?_eq_some_iff.1 close
    rw [readCall, if_pos rfl] at h
    cases h
    exact ⟨[], rfl, rfl⟩
  · by_cases none_left : tokens = []
    · subst none_left
      rw [readCall] at h
      cases h
    · rw [plain_readCall_other close none_left] at h
      obtain ⟨args, _, same⟩ := arguments_sound shorter h
      exact ⟨args, same⟩

end Sound

theorem sound (tokens : List Token) : Sound tokens := by
  -- Every reader calls one for less on the same tokens, or any of them on fewer tokens.
  obtain ⟨n, length⟩ : ∃ n, n = tokens.length := ⟨_, rfl⟩
  induction n using Nat.strongRecOn generalizing tokens with
  | ind n ih =>
    have shorter : ∀ us : List Token, us.length < tokens.length → Sound us :=
      fun us less => ih us.length (length ▸ less) us rfl
    exact ⟨sum_sound shorter, product_sound shorter, factor_sound shorter, call_sound shorter,
      arguments_sound shorter⟩

end Grammar

end Worksheet.Calc
