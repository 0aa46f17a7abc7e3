import Worksheet.Proofs.Spacing
import Worksheet.Proofs.Unambiguity
/-! Where reading stops. A reader fails at the first token with which nothing can go on, and up to
there it has looked at no other tokens. Main statement: an error of the grammar names the token
behind the longest front that some item has. -/
namespace Worksheet.Calc

variable {α β : Type} {tokens front rest : List Token} {e : ParseError}

/-- The token that an error names, which is missing at the end. -/
def ParseError.found : ParseError → Option (Option Token)
  | badInput _ => none
  | endOfInput => some none
  | unexpected t => some (some t)
  | afterExpression t => some (some t)
  | unclosed found => some found
  | badSeparator t => some (some t)

/-- Some phrase of the language begins like this. -/
def Viable (L : Language Token) (front : List Token) : Prop :=
  ∃ more, (∀ t ∈ more, t.Regular) ∧ front ++ more ∈ L

/-- The error names the token behind a viable front, and is the same whatever comes later. -/
def Stuck (L : Language Token) (read : List Token → Except ParseError β) (tokens : List Token)
    (e : ParseError) : Prop :=
  ∃ front rest, tokens = front ++ rest ∧ e.found = some rest.head? ∧ Viable L front ∧
    ∀ rest', rest'.head? = rest.head? → read (front ++ rest') = .error e

/-- A reader takes a phrase of the language off the front, or is stuck in one. It looks at the phrase
and at one token behind it. -/
structure Prompt (L : Language Token) (read : List Token → Except ParseError (α × List Token))
    (tokens : List Token) : Prop where
  ok : ∀ {a rest}, read tokens = .ok (a, rest) → ∃ front ∈ L, tokens = front ++ rest ∧
    ∀ rest', rest'.head? = rest.head? → read (front ++ rest') = .ok (a, rest')
  error : ∀ {e}, read tokens = .error e → Stuck L read tokens e

theorem Viable.mono {L M : Language Token} (h : Viable L front) (sub : ∀ ts ∈ L, ts ∈ M) :
    Viable M front := by
  obtain ⟨more, regular, phrase⟩ := h
  exact ⟨more, regular, sub _ phrase⟩

/-- A viable front of one phrase goes on with another one. -/
theorem Viable.append {L M N : Language Token} (h : Viable L front) (filled : Viable M [])
    (joined : ∀ ts ∈ L, ∀ us ∈ M, ts ++ us ∈ N) : Viable N front := by
  obtain ⟨more, regular, phrase⟩ := h
  obtain ⟨back, regular', phrase'⟩ := filled
  refine ⟨more ++ back, List.forall_mem_append.2 ⟨regular, regular'⟩, ?_⟩
  rw [← List.append_assoc]
  exact joined _ phrase _ phrase'

theorem Viable.behind {L M : Language Token} (h : Viable L rest) (ts : List Token)
    (joined : ∀ us ∈ L, ts ++ us ∈ M) : Viable M (ts ++ rest) := by
  obtain ⟨more, regular, phrase⟩ := h
  refine ⟨more, regular, ?_⟩
  rw [List.append_assoc]
  exact joined _ phrase

theorem map_error {ε γ δ : Type} {first : Except ε γ} {f : γ → δ} {e : ε}
    (h : first.map f = .error e) : first = .error e := by
  cases first with
  | error e' =>
    cases h
    rfl
  | ok b => cases h

theorem head?_append_congr {rest' : List Token} (front : List Token)
    (same : rest'.head? = rest.head?) : (front ++ rest').head? = (front ++ rest).head? := by
  rw [List.head?_append, List.head?_append, same]

/-! ## Readers put together -/

namespace Prompt

variable {L M N : Language Token} {read read' : List Token → Except ParseError (α × List Token)}

theorem fail (all : ∀ ts, ts.head? = tokens.head? → read ts = .error e)
    (found : e.found = some tokens.head?) (filled : Viable L []) : Prompt L read tokens where
  ok h := by
    rw [all tokens rfl] at h
    cases h
  error h := by
    rw [all tokens rfl] at h
    cases h
    exact ⟨[], tokens, rfl, found, filled, all⟩

theorem pass {a : α} (all : ∀ ts, ts.head? = tokens.head? → read ts = .ok (a, ts)) (empty : [] ∈ L) :
    Prompt L read tokens where
  ok h := by
    rw [all tokens rfl] at h
    cases h
    exact ⟨[], empty, rfl, all⟩
  error h := by
    rw [all tokens rfl] at h
    cases h

theorem congr (h : Prompt L read tokens) (agree : ∀ ts, ts.head? = tokens.head? → read' ts = read ts)
    (sub : ∀ ts ∈ L, ts ∈ M) : Prompt M read' tokens where
  ok same := by
    rw [agree tokens rfl] at same
    obtain ⟨front, phrase, rfl, steady⟩ := h.ok same
    refine ⟨front, sub _ phrase, rfl, fun rest' head => ?_⟩
    rw [agree _ (head?_append_congr front head), steady rest' head]
  error same := by
    rw [agree tokens rfl] at same
    obtain ⟨front, rest, rfl, found, viable, steady⟩ := h.error same
    refine ⟨front, rest, rfl, found, viable.mono sub, fun rest' head => ?_⟩
    rw [agree _ (head?_append_congr front head), steady rest' head]

/-- The first token is read, and the rest by another reader. -/
theorem token {t : Token} (later : Prompt L read tokens)
    (step : ∀ ts, ts.head? = tokens.head? → read' (t :: ts) = read ts)
    (joined : ∀ ts ∈ L, t :: ts ∈ M) : Prompt M read' (t :: tokens) where
  ok same := by
    rw [step tokens rfl] at same
    obtain ⟨front, phrase, rfl, steady⟩ := later.ok same
    refine ⟨t :: front, joined _ phrase, rfl, fun rest' head => ?_⟩
    rw [List.cons_append, step _ (head?_append_congr front head), steady rest' head]
  error same := by
    rw [step tokens rfl] at same
    obtain ⟨front, rest, rfl, found, viable, steady⟩ := later.error same
    refine ⟨t :: front, rest, rfl, found, viable.behind [t] joined, fun rest' head => ?_⟩
    rw [List.cons_append, step _ (head?_append_congr front head), steady rest' head]

theorem single {t : Token} {a : α}
    (step : ∀ ts, ts.head? = tokens.head? → read (t :: ts) = .ok (a, ts)) (phrase : [t] ∈ L) :
    Prompt L read (t :: tokens) :=
  token (L := {[]}) (pass (fun _ _ => rfl) rfl) step (by rintro _ rfl; exact phrase)

/-- One reader behind another. What the first one leaves has the same head as long as the second one
finds its own phrase there. -/
theorem bind {next : α → List Token → Except ParseError (β × List Token)}
    (first : Prompt L read tokens)
    (later : ∀ a rest, read tokens = .ok (a, rest) → Prompt M (next a) rest) (filled : Viable M [])
    (joined : ∀ ts ∈ L, ∀ us ∈ M, ts ++ us ∈ N) :
    Prompt N (fun ts => (read ts).bind fun (a, rest) => next a rest) tokens where
  ok same := by
    obtain ⟨⟨a, middle⟩, head, tail⟩ := bind_ok same
    obtain ⟨front, phrase, split, steady⟩ := first.ok head
    obtain ⟨back, phrase', rfl, steady'⟩ := (later a middle head).ok tail
    refine ⟨front ++ back, joined _ phrase _ phrase', by rw [split, List.append_assoc], ?_⟩
    intro rest' next
    rw [List.append_assoc, steady _ (head?_append_congr back next)]
    exact steady' rest' next
  error same := by
    cases head : read tokens with
    | error e =>
      rw [head] at same
      cases same
      obtain ⟨front, rest, split, found, viable, steady⟩ := first.error head
      refine ⟨front, rest, split, found, viable.append filled joined, fun rest' next => ?_⟩
      simp only [steady rest' next]
      rfl
    | ok pair =>
      obtain ⟨a, middle⟩ := pair
      rw [head] at same
      obtain ⟨front, phrase, split, steady⟩ := first.ok head
      obtain ⟨back, rest, rfl, found, viable, steady'⟩ := (later a middle head).error same
      refine ⟨front ++ back, rest, by rw [split, List.append_assoc], found,
        viable.behind front (joined front phrase), fun rest' next => ?_⟩
      simp only [List.append_assoc, steady _ (head?_append_congr back next)]
      exact steady' rest' next

theorem map {f : α → β} (h : Prompt L read tokens) :
    Prompt L (fun ts => (read ts).map fun (a, rest) => (f a, rest)) tokens := by
  have taken := h.bind (N := L) (fun a rest _ => pass (a := f a) (L := {[]}) (fun _ _ => rfl) rfl)
    ⟨[], nofun, rfl⟩ (by
      rintro ts phrase _ rfl
      rwa [List.append_nil])
  refine taken.congr (fun ts _ => ?_) fun _ => id
  cases read ts with
  | error e => rfl
  | ok pair => rfl

end Prompt

namespace Grammar

/-! ## What the grammar derives, as languages -/

def sums : Language Token := {ts | ∃ d : Sum, d.tokens = ts}

def products : Language Token := {ts | ∃ d : Product, d.tokens = ts}

def factors : Language Token := {ts | ∃ d : Factor, d.tokens = ts}

def atoms : Language Token := {ts | ∃ d : Atom, d.tokens = ts}

/-- What stands behind the opening parenthesis of a call. -/
def calls : Language Token := {ts | ∃ args, argumentTokens args ++ [.rparen] = ts}

/-- What stands there when there are arguments. -/
def arguments : Language Token := {ts | ∃ args ≠ [], argumentTokens args ++ [.rparen] = ts}

def sentences : Language Token := {ts | ∃ s : Sentence, s.tokens = ts}

/-- The rest of a chain: nothing, or a sign with what it joins. -/
def onward (op? : Token → Option Op) (L : Language Token) : Language Token :=
  {ts | ts = [] ∨ ∃ t op more, op? t = some op ∧ more ∈ L ∧ ts = t :: more}

/-- The rest of the arguments behind one of them. -/
def moreArguments : Language Token := {ts | ts = [.rparen] ∨ ∃ more ∈ arguments, ts = .comma :: more}

theorem sums_of_products {ts us : List Token} (first : ts ∈ products)
    (later : us ∈ onward sumOp? sums) : ts ++ us ∈ sums := by
  obtain ⟨p, rfl⟩ := first
  rcases later with rfl | ⟨t, op, more, sign, ⟨d, rfl⟩, rfl⟩
  · exact ⟨.product p, by rw [List.append_nil, Sum.tokens]⟩
  · obtain ⟨s, rfl, _⟩ := SumSign.of_sumOp? sign
    exact ⟨d.prepend p s, d.tokens_prepend p s⟩

theorem products_of_factors {ts us : List Token} (first : ts ∈ factors)
    (later : us ∈ onward productOp? products) : ts ++ us ∈ products := by
  obtain ⟨f, rfl⟩ := first
  rcases later with rfl | ⟨t, op, more, sign, ⟨d, rfl⟩, rfl⟩
  · exact ⟨.factor f, by rw [List.append_nil, Product.tokens]⟩
  · obtain ⟨s, rfl, _⟩ := ProductSign.of_productOp? sign
    exact ⟨d.prepend f s, d.tokens_prepend f s⟩

theorem arguments_of_sums {ts us : List Token} (first : ts ∈ sums) (later : us ∈ moreArguments) :
    ts ++ us ∈ arguments := by
  obtain ⟨d, rfl⟩ := first
  rcases later with rfl | ⟨more, ⟨args, some_left, rfl⟩, rfl⟩
  · exact ⟨[d], List.cons_ne_nil _ _, by rw [argumentTokens, moreTokens, List.append_nil]⟩
  · cases args with
    | nil => exact absurd rfl some_left
    | cons d' args =>
      refine ⟨d :: d' :: args, List.cons_ne_nil _ _, ?_⟩
      simp only [argumentTokens, moreTokens, List.append_assoc, List.cons_append]

/-! ## The readers of the grammar -/

theorem viable_atoms : Viable atoms [] :=
  ⟨[.int 0], List.forall_mem_singleton.2 (show 0 ≤ (0 : Int64).toInt by decide), .int 0, rfl⟩

theorem viable_onward (op? : Token → Option Op) (L : Language Token) : Viable (onward op? L) [] :=
  ⟨[], nofun, Or.inl rfl⟩

theorem viable_of_rparen {L : Language Token} (close : [.rparen] ∈ L) : Viable L [] :=
  ⟨[.rparen], List.forall_mem_singleton.2 trivial, close⟩

theorem behind_prompt {op? : Token → Option Op} {L : Language Token} {e : Expr}
    {read : (Expr → Expr) → (tokens : List Token) → Except ParseError (Taken Expr tokens)}
    (later : ∀ op more, more.length < rest.length →
      Prompt L (fun ts => plain (read (.bin op e) ts)) more) :
    Prompt (onward op? L) (behind op? read e) rest := by
  have ends (last : ∀ t, rest.head? = some t → op? t = none) :
      Prompt (onward op? L) (behind op? read e) rest :=
    .pass (fun ts head => behind_end fun t first => last t (head ▸ first)) (Or.inl rfl)
  cases rest with
  | nil => exact ends nofun
  | cons t more =>
    cases sign : op? t with
    | none => exact ends fun u first => Option.some.inj first ▸ sign
    | some op =>
      refine (later op more (Nat.lt_succ_self _)).token (fun ts _ => behind_sign sign) ?_
      intro ts phrase
      exact Or.inr ⟨t, op, ts, sign, phrase, rfl⟩

theorem closeBehind_prompt (e : Expr) : Prompt {[.rparen]} (closeBehind e) tokens := by
  cases tokens with
  | nil =>
    refine .fail (e := .unclosed none) (fun ts head => ?_) rfl (viable_of_rparen rfl)
    rw [List.head?_eq_none_iff.1 head, closeBehind]
  | cons u more =>
    by_cases close : u = .rparen
    · subst close
      exact .single (fun ts _ => rfl) rfl
    · refine .fail (e := .unclosed (some u)) (fun ts head => ?_) rfl (viable_of_rparen rfl)
      obtain ⟨ts, rfl⟩ := List.head?_eq_some_iff.1 head
      rw [closeBehind, if_neg close]

/-- The readers are prompt on these tokens. -/
structure Steady (tokens : List Token) : Prop where
  sum : ∀ left, Prompt sums (fun ts => plain (readSum left ts)) tokens
  product : ∀ left, Prompt products (fun ts => plain (readProduct left ts)) tokens
  factor : Prompt factors (fun ts => plain (readFactor ts)) tokens
  call : Prompt calls (fun ts => plain (readCall ts)) tokens
  arguments : Prompt arguments (fun ts => plain (readArguments ts)) tokens

section Steady

variable (shorter : ∀ us : List Token, us.length < tokens.length → Steady us)
include shorter

theorem atom_prompt : Prompt atoms (fun ts => plain (readAtom ts)) tokens := by
  cases tokens with
  | nil =>
    refine .fail (e := .endOfInput) (fun ts head => ?_) rfl viable_atoms
    rw [List.head?_eq_none_iff.1 head, readAtom]
    rfl
  | cons t more =>
    have unexpected (wrong : ∀ ts, readAtom (t :: ts) = .error (.unexpected t)) :
        Prompt atoms (fun ts => plain (readAtom ts)) (t :: more) := by
      refine .fail (e := .unexpected t) (fun ts head => ?_) rfl viable_atoms
      obtain ⟨ts, rfl⟩ := List.head?_eq_some_iff.1 head
      rw [wrong]
      rfl
    cases t with
    | int n => exact .single (fun ts _ => by rw [readAtom]; rfl) ⟨.int n, rfl⟩
    | text s => exact .single (fun ts _ => by rw [readAtom]; rfl) ⟨.text s, rfl⟩
    | name x =>
      by_cases call : more.head? = some .lparen
      · obtain ⟨more, rfl⟩ := List.head?_eq_some_iff.1 call
        have less : more.length < (Token.name x :: Token.lparen :: more).length := by
          simp only [List.length_cons]
          omega
        have inside := (shorter more less).call.map (f := Expr.call x)
        -- Nothing is settled by the name alone, so two tokens are taken before the next reader.
        have behind : Prompt {ts | ∃ us ∈ calls, ts = .lparen :: us}
            (fun ts => plain (readAtom (.name x :: ts))) (.lparen :: more) :=
          inside.token (fun ts _ => plain_readAtom_call x ts) fun us phrase => ⟨us, phrase, rfl⟩
        refine behind.token (fun _ _ => rfl) ?_
        rintro _ ⟨_, ⟨args, rfl⟩, rfl⟩
        exact ⟨.call x args, rfl⟩
      · exact .single (fun ts head => plain_readAtom_name x (head ▸ call)) ⟨.name x, rfl⟩
    | lparen =>
      have closed : ∀ ts ∈ sums, ∀ us ∈ ({[.rparen]} : Language Token),
          ts ++ us ∈ {ts | ∃ d : Sum, d.tokens ++ [.rparen] = ts} := by
        rintro _ ⟨d, rfl⟩ _ rfl
        exact ⟨d, rfl⟩
      have inside := ((shorter more (Nat.lt_succ_self _)).sum id).bind
        (fun e rest _ => closeBehind_prompt e) (viable_of_rparen rfl) closed
      refine inside.token (fun ts _ => plain_readAtom_parens ts) ?_
      rintro _ ⟨d, rfl⟩
      exact ⟨.parens d, rfl⟩
    | _ => exact unexpected fun ts => by rw [readAtom]

theorem factor_prompt : Prompt factors (fun ts => plain (readFactor ts)) tokens := by
  by_cases minus : tokens.head? = some .minus
  · obtain ⟨more, rfl⟩ := List.head?_eq_some_iff.1 minus
    have inside := (shorter more (Nat.lt_succ_self _)).factor.map (f := Expr.neg)
    refine inside.token (fun ts _ => plain_readFactor_minus ts) ?_
    rintro _ ⟨f, rfl⟩
    exact ⟨.minus f, rfl⟩
  · refine (atom_prompt shorter).congr (fun ts head => plain_readFactor_other (head ▸ minus)) ?_
    rintro _ ⟨a, rfl⟩
    exact ⟨.atom a, rfl⟩

theorem product_prompt (left : Expr → Expr) :
    Prompt products (fun ts => plain (readProduct left ts)) tokens := by
  have later (e : Expr) (rest : List Token) (first : plain (readFactor tokens) = .ok (e, rest)) :
      Prompt (onward productOp? products) (behind productOp? readProduct (left e)) rest :=
    behind_prompt fun _ more less => (shorter more (less.trans (plain_shorter first))).product _
  have chain := (factor_prompt shorter).bind later (viable_onward _ _)
    fun _ first _ => products_of_factors first
  exact chain.congr (fun ts _ => plain_readProduct left ts) fun _ => id

theorem sum_prompt (left : Expr → Expr) : Prompt sums (fun ts => plain (readSum left ts)) tokens := by
  have later (e : Expr) (rest : List Token) (first : plain (readProduct id tokens) = .ok (e, rest)) :
      Prompt (onward sumOp? sums) (behind sumOp? readSum (left e)) rest :=
    behind_prompt fun _ more less => (shorter more (less.trans (plain_shorter first))).sum _
  have chain := (product_prompt shorter id).bind later (viable_onward _ _)
    fun _ first _ => sums_of_products first
  exact chain.congr (fun ts _ => plain_readSum left ts) fun _ => id

theorem argumentsBehind_prompt (e : Expr) (less : rest.length < tokens.length) :
    Prompt moreArguments (argumentsBehind e) rest := by
  have filled : Viable moreArguments [] := viable_of_rparen (Or.inl rfl)
  cases rest with
  | nil =>
    refine .fail (e := .unclosed none) (fun ts head => ?_) rfl filled
    rw [List.head?_eq_none_iff.1 head, argumentsBehind]
  | cons t more =>
    by_cases comma : t = .comma
    · subst comma
      have later := (shorter more (Nat.lt_of_succ_lt less)).arguments.map (f := (e :: ·))
      exact later.token (fun ts _ => rfl) fun us phrase => Or.inr ⟨us, phrase, rfl⟩
    · by_cases close : t = .rparen
      · subst close
        exact .single (fun ts _ => rfl) (Or.inl rfl)
      · refine .fail (e := .badSeparator t) (fun ts head => ?_) rfl filled
        obtain ⟨ts, rfl⟩ := List.head?_eq_some_iff.1 head
        rw [argumentsBehind, if_neg comma, if_neg close]

theorem arguments_prompt : Prompt arguments (fun ts => plain (readArguments ts)) tokens := by
  have later (e : Expr) (rest : List Token) (first : plain (readSum id tokens) = .ok (e, rest)) :=
    argumentsBehind_prompt shorter e (plain_shorter first)
  have chain := (sum_prompt shorter id).bind later (viable_of_rparen (Or.inl rfl))
    fun _ first _ => arguments_of_sums first
  exact chain.congr (fun ts _ => plain_readArguments ts) fun _ => id

theorem call_prompt : Prompt calls (fun ts => plain (readCall ts)) tokens := by
  cases tokens with
  | nil =>
    refine .fail (e := .endOfInput) (fun ts head => ?_) rfl (viable_of_rparen ⟨[], rfl⟩)
    rw [List.head?_eq_none_iff.1 head, readCall]
    rfl
  | cons t more =>
    by_cases close : t = .rparen
    · subst close
      refine .single (a := []) (fun ts _ => ?_) ⟨[], rfl⟩
      rw [readCall, if_pos rfl]
      rfl
    · refine (arguments_prompt shorter).congr (fun ts head => ?_) fun _ ⟨args, _, same⟩ => ⟨args, same⟩
      obtain ⟨ts, rfl⟩ := List.head?_eq_some_iff.1 head
      exact plain_readCall_other (fun same => close (Option.some.inj same)) (List.cons_ne_nil _ _)

end Steady

theorem steady (tokens : List Token) : Steady tokens := by
  -- As for soundness, each reader calls a lower one on the same tokens or any on fewer.
  obtain ⟨n, length⟩ : ∃ n, n = tokens.length := ⟨_, rfl⟩
  induction n using Nat.strongRecOn generalizing tokens with
  | ind n ih =>
    have shorter : ∀ us : List Token, us.length < tokens.length → Steady us :=
      fun us less => ih us.length (length ▸ less) us rfl
    exact ⟨sum_prompt shorter, product_prompt shorter, factor_prompt shorter, call_prompt shorter,
      arguments_prompt shorter⟩

/-! ## Whole items -/

/-- What must stand behind a whole expression: nothing. -/
def atEnd : Expr × List Token → Except ParseError Expr
  | (e, []) => .ok e
  | (_, t :: _) => .error (.afterExpression t)

theorem readExpr_eq (tokens : List Token) :
    readExpr tokens = (plain (readSum id tokens)).bind atEnd := by
  rw [readExpr]
  cases readSum id tokens with
  | error e => rfl
  | ok taken =>
    obtain ⟨value, rest, shorter⟩ := taken
    cases rest with
    | nil => rfl
    | cons t rest => rfl

theorem readExpr_stuck (fails : readExpr tokens = .error e) : Stuck sums readExpr tokens e := by
  have prompt := (steady tokens).sum id
  rw [readExpr_eq] at fails
  cases read : plain (readSum id tokens) with
  | error e' =>
    obtain ⟨front, rest, split, found, viable, same⟩ := prompt.error read
    rw [read] at fails
    cases fails
    exact ⟨front, rest, split, found, viable, fun rest' head => by
      rw [readExpr_eq, show plain (readSum id _) = _ from same rest' head]
      rfl⟩
  | ok pair =>
    obtain ⟨value, rest⟩ := pair
    obtain ⟨front, phrase, split, same⟩ := prompt.ok read
    rw [read] at fails
    cases rest with
    | nil => cases fails
    | cons t more =>
      cases fails
      have viable : Viable sums front := ⟨[], nofun, by rwa [List.append_nil]⟩
      refine ⟨front, t :: more, split, rfl, viable, fun rest' head => ?_⟩
      obtain ⟨more', rfl⟩ := List.head?_eq_some_iff.1 head
      rw [readExpr_eq, same _ head]
      rfl

/-- An equals sign behind a name is seen, unless the name itself is what comes next. -/
theorem binding_congr {rest' more : List Token} {x : String} (head : rest'.head? = rest.head?)
    (split : front ++ rest' = .name x :: .equals :: more) :
    (front = [] ∧ rest.head? = some (.name x)) ∨
      ∃ more', front ++ rest = .name x :: .equals :: more' := by
  cases front with
  | nil => exact Or.inl ⟨rfl, by rw [← head, show rest' = _ from split, List.head?_cons]⟩
  | cons t front =>
    obtain rfl : t = .name x := (List.cons.inj split).1
    have later : front ++ rest' = .equals :: more := (List.cons.inj split).2
    cases front with
    | nil =>
      rw [show rest' = _ from later] at head
      obtain ⟨more', rfl⟩ := List.head?_eq_some_iff.1 head.symm
      exact Or.inr ⟨more', rfl⟩
    | cons u front =>
      obtain rfl : u = .equals := (List.cons.inj later).1
      exact Or.inr ⟨front ++ rest, rfl⟩

theorem ofTokens_stuck (fails : Item.ofTokens tokens = .error e) :
    Stuck sentences Item.ofTokens tokens e := by
  by_cases binding : ∃ x more, tokens = .name x :: .equals :: more
  · obtain ⟨x, more, rfl⟩ := binding
    obtain ⟨front, rest, rfl, found, viable, same⟩ := readExpr_stuck (map_error fails)
    refine ⟨.name x :: .equals :: front, rest, rfl, found, ?_, fun rest' head => ?_⟩
    · refine viable.behind [.name x, .equals] ?_
      rintro _ ⟨d, rfl⟩
      exact ⟨⟨some x, d⟩, rfl⟩
    · show (readExpr (front ++ rest')).map _ = _
      rw [same rest' head]
      rfl
  · have bare : ∀ x more, tokens ≠ .name x :: .equals :: more :=
      fun x more same => binding ⟨x, more, same⟩
    rw [ofTokens_bare bare] at fails
    obtain ⟨front, rest, rfl, found, viable, same⟩ := readExpr_stuck (map_error fails)
    refine ⟨front, rest, rfl, found, viable.mono ?_, fun rest' head => ?_⟩
    · rintro _ ⟨d, rfl⟩
      exact ⟨⟨none, d⟩, rfl⟩
    · have bare' : ∀ x more, front ++ rest' ≠ .name x :: .equals :: more := by
        intro x more split
        rcases binding_congr head split with ⟨rfl, first⟩ | ⟨more', split'⟩
        · -- The name alone would fail as well.
          have fails := same [.name x] first.symm
          have reads : readExpr [.name x] = .ok (.var x) :=
            readExpr_iff.2 ⟨.product (.factor (.atom (.name x))), rfl, rfl⟩
          cases fails.symm.trans reads
        · exact bare x more' split'
      rw [ofTokens_bare bare', same rest' head]
      rfl

end Grammar

/-- Some text that is an item begins with these tokens. -/
def Begins (front : List Token) : Prop :=
  ∃ text item more, Item.parse text = .ok item ∧ (lex text).tokens = front ++ more

theorem begins_of_viable (viable : Viable Grammar.sentences front)
    (regular : ∀ t ∈ front, t.Regular) : Begins front := by
  obtain ⟨more, regular', s, phrase⟩ := viable
  have all : ∀ t ∈ front ++ more, t.Regular := List.forall_mem_append.2 ⟨regular, regular'⟩
  obtain ⟨text, spaced, _⟩ := exists_spaced all
  rw [← String.toList_ofList (l := text)] at spaced
  refine ⟨String.ofList text, s.tree, more, ?_, (spaced.lexed all 0).1⟩
  rw [parse_of_spaced spaced all, Grammar.ofTokens_iff]
  exact ⟨s, phrase, rfl⟩

theorem begins_no_further {j : Nat}
    (same : ∀ rest', rest'.head? = rest.head? → Item.ofTokens (front ++ rest') = .error e)
    (most : j ≤ (front ++ rest).length) (begins : Begins ((front ++ rest).take j)) :
    j ≤ front.length := by
  by_contra longer
  cases rest with
  | nil =>
    rw [List.append_nil] at most
    exact longer most
  | cons t rest =>
    obtain ⟨n, further⟩ := Nat.exists_eq_add_of_lt (Nat.lt_of_not_le longer)
    have cut : (front ++ t :: rest).take j = front ++ t :: rest.take n := by
      rw [further, Nat.add_assoc, List.take_length_add_append, List.take_succ_cons]
    obtain ⟨text, item, later, parsed, tokens⟩ := begins
    have read := ofTokens_of_parse parsed
    have fails := same (t :: (rest.take n ++ later)) rfl
    rw [tokens, cut, List.append_assoc, List.cons_append, fails] at read
    cases read

/-! ## Messages -/

namespace Token

/-- What a message calls a token: an integer by its value, a literal by its kind alone, a name and a
mark as they are, in quotes. -/
inductive Called : Token → String → Prop
  | int (n : Int64) : Called (.int n) ("number " ++ toString n.toInt)
  | text (s : String) : Called (.text s) "string literal"
  | name (x : String) : Called (.name x) ("identifier '" ++ x ++ "'")
  | mark {t : Token} {c : Char} : t.symbol? = some c → Called t ("'" ++ String.singleton c ++ "'")

theorem describe_symbol {t : Token} {c : Char} (known : t.symbol? = some c) :
    t.describe = "'" ++ String.singleton c ++ "'" := by
  cases t <;> cases known <;> decide

theorem called_iff {t : Token} {d : String} : t.Called d ↔ d = t.describe := by
  constructor
  · intro called
    cases called with
    | int n => rfl
    | text s => rfl
    | name x => rfl
    | mark known => exact (describe_symbol known).symm
  · rintro rfl
    cases known : t.symbol? with
    | some c =>
      rw [describe_symbol known]
      exact .mark known
    | none =>
      cases t with
      | int n => exact .int n
      | text s => exact .text s
      | name x => exact .name x
      | _ => cases known

end Token

namespace ParseError

theorem message_at_end (atEnd : e.found = some none) :
    e.message = "unexpected end of input" ∨ e.message = "expected ')', found end of input" := by
  cases e with
  | endOfInput => exact Or.inl rfl
  | unclosed found =>
    cases atEnd
    exact Or.inr rfl
  | _ => cases atEnd

theorem message_at {t : Token} (there : e.found = some (some t)) :
    e.message = "unexpected " ++ t.describe ∨
      e.message = "unexpected " ++ t.describe ++ " after expression" ∨
      e.message = "expected ')', found " ++ t.describe ∨
      e.message = "expected ',' or ')', found " ++ t.describe := by
  cases e with
  | unexpected u =>
    cases there
    exact Or.inl (by simp [message, pieces, String.join])
  | afterExpression u =>
    cases there
    exact Or.inr (Or.inl (by simp [message, pieces, String.join]))
  | unclosed found =>
    cases there
    exact Or.inr (Or.inr (Or.inl (by simp [message, pieces, String.join])))
  | badSeparator u =>
    cases there
    exact Or.inr (Or.inr (Or.inr (by simp [message, pieces, String.join])))
  | _ => cases there

end ParseError

/-- A text of tokens that is no item fails behind the longest front that some item has: at the end,
when that is all of it, and with a message that says what the next token is otherwise. -/
theorem error_names_first_hopeless {text : String} (lexed : (lex text).bad = none)
    (fails : Item.parse text = .error e) :
    ∃ k, IsGreatest {j | j ≤ (lex text).tokens.length ∧ Begins ((lex text).tokens.take j)} k ∧
      (k = (lex text).tokens.length →
        e.message = "unexpected end of input" ∨ e.message = "expected ')', found end of input") ∧
      ∀ t, (lex text).tokens[k]? = some t → ∃ d, t.Called d ∧
        (e.message = "unexpected " ++ d ∨
          e.message = "unexpected " ++ d ++ " after expression" ∨
          e.message = "expected ')', found " ++ d ∨
          e.message = "expected ',' or ')', found " ++ d) := by
  have read : Item.ofTokens (lex text).tokens = .error e := by
    simpa only [Item.parse, lexed] using fails
  obtain ⟨front, rest, split, found, viable, same⟩ := Grammar.ofTokens_stuck read
  have regular := regular_of_lex text
  rw [split, List.forall_mem_append] at regular
  rw [split]
  refine ⟨front.length, ⟨⟨?_, ?_⟩, ?_⟩, fun all => ?_, fun t next => ?_⟩
  · rw [List.length_append]
    exact Nat.le_add_right _ _
  · rw [List.take_left]
    exact begins_of_viable viable regular.1
  · exact fun _ both => begins_no_further same both.1 both.2
  · have none_left : rest = [] := by
      rw [List.length_append] at all
      exact List.eq_nil_of_length_eq_zero (by omega)
    rw [none_left] at found
    exact ParseError.message_at_end found
  · rw [List.getElem?_append_right (Nat.le_refl _), Nat.sub_self, ← List.head?_eq_getElem?] at next
    rw [next] at found
    exact ⟨t.describe, Token.called_iff.2 rfl, ParseError.message_at found⟩

/-- The first argument could still be followed by a comma. -/
theorem error_names_first_hopeless_when_unseparated :
    (lex "f(1 2)").bad = none ∧ Item.parse "f(1 2)" = .error (.badSeparator (.int 2)) ∧
      (ParseError.badSeparator (.int 2)).message = "expected ',' or ')', found number 2" ∧
      IsGreatest {j | j ≤ (lex "f(1 2)").tokens.length ∧ Begins ((lex "f(1 2)").tokens.take j)} 3 := by
  have lexed : (lex "f(1 2)").bad = none := by cbv
  have tokens : (lex "f(1 2)").tokens = [.name "f", .lparen, .int 1, .int 2, .rparen] := by cbv
  have fails : Item.parse "f(1 2)" = .error (.badSeparator (.int 2)) := by cbv
  obtain ⟨k, greatest, ends, names⟩ := error_names_first_hopeless lexed fails
  refine ⟨lexed, fails, by decide, ?_⟩
  have most := greatest.1.1
  rw [tokens] at ends names most
  simp only [Token.called_iff, exists_eq_left] at names
  have here : k = 3 := by
    simp only [List.length_cons, List.length_nil] at most
    interval_cases k
    · exact absurd (names _ rfl) (by decide)
    · exact absurd (names _ rfl) (by decide)
    · exact absurd (names _ rfl) (by decide)
    · rfl
    · exact absurd (names _ rfl) (by decide)
    · exact absurd (ends rfl) (by decide)
  rwa [here] at greatest

end Worksheet.Calc
