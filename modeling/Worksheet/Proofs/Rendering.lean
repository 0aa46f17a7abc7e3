import Worksheet.Proofs.Spacing
import Worksheet.Proofs.Unambiguity
/-! The ways to write an item. Main statement: however an item is written, with parentheses where
they are needed or more of them, and with any white space, it is read back; and each item that is
read can be written. -/
namespace Worksheet.Calc

open Pattern Grammar

namespace Op

/-- How tightly an operator binds. A minus sign in front binds at level 3. -/
def level : Op → Nat
  | add => 1
  | sub => 1
  | mul => 2
  | div => 2
  | rem => 2

def token : Op → Token
  | add => .plus
  | sub => .minus
  | mul => .star
  | div => .slash
  | rem => .percent

end Op

mutual

/-- The ways to write an expression where an operator has to bind at least as tightly as the level
says. Operators associate to the left, and parentheses may stand around every expression. -/
inductive Rendered : Nat → Expr → List Token → Prop
  | int {level : Nat} (n : Int64) : Rendered level (.int n) [.int n]
  | text {level : Nat} (s : String) : Rendered level (.text s) [.text s]
  | var {level : Nat} (x : String) : Rendered level (.var x) [.name x]
  | neg {level : Nat} {e : Expr} {ts : List Token} :
      level ≤ 3 → Rendered 3 e ts → Rendered level (.neg e) (.minus :: ts)
  | bin {level : Nat} {op : Op} {l r : Expr} {ts us : List Token} :
      level ≤ op.level → Rendered op.level l ts → Rendered (op.level + 1) r us →
      Rendered level (.bin op l r) (ts ++ op.token :: us)
  | call {level : Nat} {args : List Expr} {ts : List Token} (f : String) :
      RenderedAll args ts → Rendered level (.call f args) (.name f :: .lparen :: (ts ++ [.rparen]))
  | parens {level : Nat} {e : Expr} {ts : List Token} :
      Rendered 1 e ts → Rendered level e (.lparen :: (ts ++ [.rparen]))

/-- Arguments stand between commas. -/
inductive RenderedAll : List Expr → List Token → Prop
  | nil : RenderedAll [] []
  | one {e : Expr} {ts : List Token} : Rendered 1 e ts → RenderedAll [e] ts
  | cons {e e' : Expr} {more : List Expr} {ts us : List Token} : Rendered 1 e ts →
      RenderedAll (e' :: more) us → RenderedAll (e :: e' :: more) (ts ++ .comma :: us)

end

namespace Item

def RenderedAs (item : Item) (tokens : List Token) : Prop :=
  ∃ ts, Rendered 1 item.expr ts ∧ tokens = item.name.elim [] (fun x => [.name x, .equals]) ++ ts

/-- The texts of an item. -/
def Renders (item : Item) (text : String) : Prop :=
  ∃ tokens, item.RenderedAs tokens ∧ Spaced tokens text.toList

end Item

mutual

/-- Names match their pattern, and integers have 63 bits. -/
def Expr.Regular : Expr → Prop
  | .int n => 0 ≤ n.toInt ∧ n.toInt ≤ 2 ^ 63 - 1
  | .text _ => True
  | .var x => x.toList ∈ word
  | .neg e => e.Regular
  | .bin _ l r => l.Regular ∧ r.Regular
  | .call f args => f.toList ∈ word ∧ AllRegular args

def AllRegular : List Expr → Prop
  | [] => True
  | e :: more => e.Regular ∧ AllRegular more

end

def Item.Regular (item : Item) : Prop :=
  (∀ x, item.name = some x → x.toList ∈ word) ∧ item.expr.Regular

/-! ## From writing to deriving -/

/-- What is written at a level is derived as a sum, at a higher one also as a product or a factor. -/
structure Derived (level : Nat) (e : Expr) (ts : List Token) : Prop where
  sum : ∃ d : Sum, d.tokens = ts ∧ d.tree = e
  product : 2 ≤ level → ∃ d : Product, d.tokens = ts ∧ d.tree = e
  factor : 3 ≤ level → ∃ d : Factor, d.tokens = ts ∧ d.tree = e

variable {level : Nat}

theorem derived_factor (f : Factor) : Derived level f.tree f.tokens :=
  ⟨⟨.product (.factor f), rfl, rfl⟩, fun _ => ⟨.factor f, rfl, rfl⟩, fun _ => ⟨f, rfl, rfl⟩⟩

theorem derived_product (low : level ≤ 2) (p : Product) : Derived level p.tree p.tokens :=
  ⟨⟨.product p, rfl, rfl⟩, fun _ => ⟨p, rfl, rfl⟩, fun high => absurd high (by omega)⟩

theorem derived_sum (low : level ≤ 1) (d : Sum) : Derived level d.tree d.tokens :=
  ⟨⟨d, rfl, rfl⟩, fun high => absurd high (by omega), fun high => absurd high (by omega)⟩

theorem derived_joined {op : Op} {l r : Expr} {ts us : List Token} (low : level ≤ op.level)
    (left : Derived op.level l ts) (right : Derived (op.level + 1) r us) :
    Derived level (.bin op l r) (ts ++ op.token :: us) := by
  have of_sign (s : SumSign) (same : op = s.op) :
      Derived level (.bin op l r) (ts ++ op.token :: us) := by
    subst same
    obtain ⟨d, rfl, rfl⟩ := left.sum
    obtain ⟨p, rfl, rfl⟩ := right.product (by cases s <;> decide)
    have derived := derived_sum (by cases s <;> exact low) (.join d s p)
    cases s <;> exact derived
  have of_product_sign (s : ProductSign) (same : op = s.op) :
      Derived level (.bin op l r) (ts ++ op.token :: us) := by
    subst same
    obtain ⟨p, rfl, rfl⟩ := left.product (by cases s <;> decide)
    obtain ⟨f, rfl, rfl⟩ := right.factor (by cases s <;> decide)
    have derived := derived_product (by cases s <;> exact low) (.join p s f)
    cases s <;> exact derived
  cases op with
  | add => exact of_sign .plus rfl
  | sub => exact of_sign .minus rfl
  | mul => exact of_product_sign .star rfl
  | div => exact of_product_sign .slash rfl
  | rem => exact of_product_sign .percent rfl

mutual

theorem Rendered.derived {level : Nat} {e : Expr} {ts : List Token} :
    Rendered level e ts → Derived level e ts
  | .int n => derived_factor (.atom (.int n))
  | .text s => derived_factor (.atom (.text s))
  | .var x => derived_factor (.atom (.name x))
  | .neg _ inner => by
    obtain ⟨f, rfl, rfl⟩ := inner.derived.factor (by decide)
    exact derived_factor (.minus f)
  | .bin low left right => derived_joined low left.derived right.derived
  | .call f args => by
    obtain ⟨ds, rfl, rfl⟩ := args.derived
    exact derived_factor (.atom (.call f ds))
  | .parens inner => by
    obtain ⟨d, rfl, rfl⟩ := inner.derived.sum
    exact derived_factor (.atom (.parens d))

theorem RenderedAll.derived {args : List Expr} {ts : List Token} :
    RenderedAll args ts → ∃ ds : List Sum, argumentTokens ds = ts ∧ trees ds = args
  | .nil => ⟨[], rfl, rfl⟩
  | .one first => by
    obtain ⟨d, rfl, rfl⟩ := first.derived.sum
    exact ⟨[d], by rw [argumentTokens, moreTokens, List.append_nil], rfl⟩
  | .cons first more => by
    obtain ⟨d, rfl, rfl⟩ := first.derived.sum
    obtain ⟨ds, rfl, same⟩ := more.derived
    cases ds with
    | nil => cases same
    | cons d' ds => exact ⟨d :: d' :: ds, rfl, by rw [trees, same]⟩

end

mutual

theorem Rendered.regular {level : Nat} {e : Expr} {ts : List Token} :
    Rendered level e ts → e.Regular → ∀ t ∈ ts, t.Regular
  | .int n, regular => List.forall_mem_singleton.2 regular.1
  | .text s, _ => List.forall_mem_singleton.2 trivial
  | .var x, regular => List.forall_mem_singleton.2 regular
  | .neg _ inner, regular => List.forall_mem_cons.2 ⟨trivial, inner.regular regular⟩
  | @Rendered.bin _ op _ _ _ _ _ left right, regular => by
    have sign : op.token.Regular := by cases op <;> trivial
    rw [List.forall_mem_append, List.forall_mem_cons]
    exact ⟨left.regular regular.1, sign, right.regular regular.2⟩
  | .call f args, regular => by
    simp only [List.forall_mem_cons, List.forall_mem_append]
    exact ⟨regular.1, trivial, args.regular regular.2, trivial, nofun⟩
  | .parens inner, regular => by
    simp only [List.forall_mem_cons, List.forall_mem_append]
    exact ⟨trivial, inner.regular regular, trivial, nofun⟩

theorem RenderedAll.regular {args : List Expr} {ts : List Token} :
    RenderedAll args ts → AllRegular args → ∀ t ∈ ts, t.Regular
  | .nil, _ => nofun
  | .one first, regular => first.regular regular.1
  | .cons first more, regular => by
    rw [List.forall_mem_append, List.forall_mem_cons]
    exact ⟨first.regular regular.1, trivial, more.regular regular.2⟩

end

/-! ## What is read can be written -/

mutual

theorem Expr.exists_rendered (e : Expr) (level : Nat) : ∃ ts, Rendered level e ts := by
  cases e with
  | int n => exact ⟨_, .int n⟩
  | text s => exact ⟨_, .text s⟩
  | var x => exact ⟨_, .var x⟩
  | neg e =>
    obtain ⟨ts, inner⟩ := e.exists_rendered 3
    exact ⟨_, .parens (.neg (by decide) inner)⟩
  | bin op l r =>
    obtain ⟨ts, left⟩ := l.exists_rendered op.level
    obtain ⟨us, right⟩ := r.exists_rendered (op.level + 1)
    exact ⟨_, .parens (.bin (by cases op <;> decide) left right)⟩
  | call f args =>
    obtain ⟨ts, all⟩ := exists_renderedAll args
    exact ⟨_, .call f all⟩

theorem exists_renderedAll (args : List Expr) : ∃ ts, RenderedAll args ts := by
  cases args with
  | nil => exact ⟨_, .nil⟩
  | cons e more =>
    obtain ⟨ts, first⟩ := e.exists_rendered 1
    obtain ⟨us, later⟩ := exists_renderedAll more
    cases more with
    | nil => exact ⟨_, .one first⟩
    | cons e' more => exact ⟨_, .cons first later⟩

end

theorem Item.RenderedAs.regular {item : Item} {tokens : List Token} (rendered : item.RenderedAs tokens)
    (regular : item.Regular) : ∀ t ∈ tokens, t.Regular := by
  obtain ⟨ts, body, rfl⟩ := rendered
  have inner := body.regular regular.2
  cases name : item.name with
  | none => exact inner
  | some x => exact List.forall_mem_cons.2 ⟨regular.1 x name, List.forall_mem_cons.2 ⟨trivial, inner⟩⟩

theorem Item.RenderedAs.read {item : Item} {tokens : List Token} (rendered : item.RenderedAs tokens) :
    Item.ofTokens tokens = .ok item := by
  obtain ⟨ts, body, rfl⟩ := rendered
  obtain ⟨d, rfl, same⟩ := body.derived.sum
  obtain ⟨name, expr⟩ := item
  exact ofTokens_iff.2 ⟨⟨name, d⟩, rfl, by rw [Sentence.tree, same]⟩

namespace Grammar

mutual

theorem Sum.tree_regular : ∀ d : Sum, (∀ t ∈ d.tokens, t.Regular) → d.tree.Regular
  | .product p, regular => p.tree_regular regular
  | .join l s r, regular => by
    rw [Sum.tokens, List.forall_mem_append, List.forall_mem_cons] at regular
    exact ⟨l.tree_regular regular.1, r.tree_regular regular.2.2⟩

theorem Product.tree_regular : ∀ d : Product, (∀ t ∈ d.tokens, t.Regular) → d.tree.Regular
  | .factor f, regular => f.tree_regular regular
  | .join l s r, regular => by
    rw [Product.tokens, List.forall_mem_append, List.forall_mem_cons] at regular
    exact ⟨l.tree_regular regular.1, r.tree_regular regular.2.2⟩

theorem Factor.tree_regular : ∀ d : Factor, (∀ t ∈ d.tokens, t.Regular) → d.tree.Regular
  | .minus f, regular => f.tree_regular (List.forall_mem_cons.1 regular).2
  | .atom a, regular => a.tree_regular regular

theorem Atom.tree_regular : ∀ d : Atom, (∀ t ∈ d.tokens, t.Regular) → d.tree.Regular
  | .int n, regular => ⟨regular (.int n) (List.mem_singleton_self _), Int.le_sub_one_of_lt n.toInt_lt⟩
  | .text s, _ => trivial
  | .name x, regular => regular (.name x) (List.mem_singleton_self _)
  | .call f args, regular => by
    simp only [Atom.tokens, List.forall_mem_cons, List.forall_mem_append] at regular
    exact ⟨regular.1, trees_regular args regular.2.2.1⟩
  | .parens e, regular => by
    simp only [Atom.tokens, List.forall_mem_cons, List.forall_mem_append] at regular
    exact e.tree_regular regular.2.1

theorem trees_regular : ∀ args : List Sum, (∀ t ∈ argumentTokens args, t.Regular) →
    AllRegular (trees args)
  | [], _ => trivial
  | e :: more, regular => by
    rw [argumentTokens, List.forall_mem_append] at regular
    exact ⟨e.tree_regular regular.1, more_regular more regular.2⟩

theorem more_regular : ∀ more : List Sum, (∀ t ∈ moreTokens more, t.Regular) →
    AllRegular (trees more)
  | [], _ => trivial
  | e :: more, regular => by
    rw [moreTokens, List.forall_mem_cons, List.forall_mem_append] at regular
    exact ⟨e.tree_regular regular.2.1, more_regular more regular.2.2⟩

end

end Grammar

theorem regular_of_ofTokens {tokens : List Token} {item : Item} (regular : ∀ t ∈ tokens, t.Regular)
    (read : Item.ofTokens tokens = .ok item) : item.Regular := by
  obtain ⟨⟨name, body⟩, rfl, rfl⟩ := ofTokens_iff.1 read
  cases name with
  | none => exact ⟨nofun, body.tree_regular regular⟩
  | some x =>
    obtain ⟨first, behind⟩ := List.forall_mem_cons.1 regular
    refine ⟨fun y same => Option.some.inj same ▸ first, ?_⟩
    exact body.tree_regular (List.forall_mem_cons.1 behind).2

theorem regular_of_parse {text : String} {item : Item} (parsed : Item.parse text = .ok item) :
    item.Regular :=
  regular_of_ofTokens (regular_of_lex text) (ofTokens_of_parse parsed)

theorem Item.Renders.parse {item : Item} {text : String} (renders : item.Renders text)
    (regular : item.Regular) : Item.parse text = .ok item := by
  obtain ⟨tokens, rendered, spaced⟩ := renders
  rw [parse_of_spaced spaced (rendered.regular regular), rendered.read]

/-- Each text of a regular item is read as this item, there is such a text, and only regular items
are read. -/
theorem parse_renders :
    (∀ (item : Item) (text : String), item.Regular → item.Renders text → Item.parse text = .ok item) ∧
    (∀ item : Item, item.Regular → ∃ text, item.Renders text) ∧
    ∀ (text : String) (item : Item), Item.parse text = .ok item → item.Regular := by
  refine ⟨fun _ _ regular renders => renders.parse regular, fun item regular => ?_,
    fun _ _ => regular_of_parse⟩
  obtain ⟨ts, body⟩ := item.expr.exists_rendered 1
  have rendered : item.RenderedAs _ := ⟨ts, body, rfl⟩
  obtain ⟨text, spaced, _⟩ := exists_spaced (rendered.regular regular)
  exact ⟨String.ofList text, _, rendered, String.toList_ofList.symm ▸ spaced⟩

/-- The right operand needs its parentheses, and the quote in the text its backslash. -/
theorem parse_renders_when_nested :
    let item : Item := ⟨none, .bin .sub (.var "a") (.bin .add (.neg (.int 2)) (.text "\""))⟩
    item.Regular ∧ item.Renders "a -(-2+\"\\\"\" )" ∧ Item.parse "a -(-2+\"\\\"\" )" = .ok item ∧
      ∃ text, item.Renders text := by
  intro item
  have digits : ['2'] ∈ numeral := mem_numeral.2 ⟨nofun, List.forall_mem_singleton.2 (by decide)⟩
  have two : Token.Form (.int 2) ['2'] := .int digits (by decide)
  have escaped : TextForm "\"".toList ['\\', '"'] := TextForm.cons CharForm.quote TextForm.nil
  have quote : Token.Form (.text "\"") ['"', '\\', '"', '"'] := .text escaped
  have name : Token.Form (.name "a") ['a'] := .name "a"
  have regular : item.Regular :=
    ⟨nofun, mem_word.2 ⟨'a', [], rfl, by decide, nofun⟩, ⟨by decide, by decide⟩, trivial⟩
  have rendered : item.RenderedAs
      [.name "a", .minus, .lparen, .minus, .int 2, .plus, .text "\"", .rparen] :=
    ⟨_, .bin (by decide) (.var "a")
      (.parens (.bin (by decide) (.neg (by decide) (.int 2)) (.text _))), rfl⟩
  have close : Spaced [.rparen] [' ', ')'] := .skip (by decide) (.mark rfl (.nil nofun))
  have sum : Spaced [.int 2, .plus, .text "\"", .rparen] ['2', '+', '"', '\\', '"', '"', ' ', ')'] :=
    two.spaced (by rintro _ ⟨⟩ ⟨⟩) (.mark rfl (quote.spaced (by rintro _ ⟨⟩ ⟨⟩) close))
  have difference : Spaced [.minus, .lparen, .minus, .int 2, .plus, .text "\"", .rparen]
      [' ', '-', '(', '-', '2', '+', '"', '\\', '"', '"', ' ', ')'] :=
    .skip (by decide) (.mark rfl (.mark rfl (.mark rfl sum)))
  have renders : item.Renders "a -(-2+\"\\\"\" )" :=
    ⟨_, rendered, name.spaced (by rintro _ ⟨⟩ ⟨⟩) difference⟩
  have parsed := parse_renders.1 item _ regular renders
  exact ⟨parse_renders.2.2 _ item parsed, renders, parsed, parse_renders.2.1 item regular⟩

end Worksheet.Calc
