import Worksheet.Calc.Eval
/-! The nodes of an expression in the order in which evaluation comes upon them: operands before
their operator and arguments before their call, from left to right. What the nodes mean is left open.
A visit keeps the operands on a stack and ends at the first node that fails. -/
namespace Worksheet.Calc

inductive Node
  | int (value : Int64)
  | text (value : String)
  | var (name : String)
  | neg
  | op (op : Op)
  | call (name : String) (count : Nat)

namespace Expr

mutual

def nodes : Expr → List Node
  | int n => [.int n]
  | text s => [.text s]
  | var x => [.var x]
  | neg e => nodes e ++ [.neg]
  | bin op l r => nodes l ++ (nodes r ++ [.op op])
  | call f args => nodesOfAll args ++ [.call f args.length]

def nodesOfAll : List Expr → List Node
  | [] => []
  | e :: more => nodes e ++ nodesOfAll more

end

end Expr

/-- Why a visit ends before its last node. -/
inductive Halt (ε : Type)
  | missing
  | failed (error : ε)

structure Meaning (ε α : Type) where
  int : Int64 → α
  text : String → α
  var : String → Except ε α
  neg : α → Except ε α
  op : Op → α → α → Except ε α
  call : String → List α → Except ε α

namespace Meaning

variable {ε α : Type}

def push (stack : List α) : Except ε α → Except (Halt ε) (List α)
  | .ok v => .ok (v :: stack)
  | .error e => .error (.failed e)

/-- Visits a node. Its operands are the last values on the stack, the last one first. -/
def step (m : Meaning ε α) (stack : List α) : Node → Except (Halt ε) (List α)
  | .int n => .ok (m.int n :: stack)
  | .text s => .ok (m.text s :: stack)
  | .var x => push stack (m.var x)
  | .neg =>
    match stack with
    | v :: below => push below (m.neg v)
    | [] => .error .missing
  | .op op =>
    match stack with
    | b :: a :: below => push below (m.op op a b)
    | _ => .error .missing
  | .call f count =>
    if count ≤ stack.length then
      push (stack.drop count) (m.call f (stack.take count).reverse)
    else .error .missing

def visit (m : Meaning ε α) (stack : List α) : List Node → Except (Halt ε) (List α)
  | [] => .ok stack
  | n :: more =>
    match m.step stack n with
    | .ok stack => m.visit stack more
    | .error h => .error h

/-- A visit goes on with the result of a node or of an expression. -/
def goOn (m : Meaning ε α) (stack : List α) (rest : List Node) :
    Except ε α → Except (Halt ε) (List α)
  | .ok v => m.visit (v :: stack) rest
  | .error e => .error (.failed e)

theorem visit_push {m : Meaning ε α} {stack below : List α} {n : Node} {r : Except ε α}
    (step : m.step stack n = push below r) (rest : List Node) :
    m.visit stack (n :: rest) = m.goOn below rest r := by
  rw [visit, step]
  cases r with
  | error e => rfl
  | ok v => rfl

theorem step_call (m : Meaning ε α) (f : String) (vs stack : List α) :
    m.step (vs.reverse ++ stack) (.call f vs.length) = push stack (m.call f vs) := by
  have enough : vs.length ≤ (vs.reverse ++ stack).length := by simp
  have operands : (vs.reverse ++ stack).take vs.length = vs.reverse := by
    rw [List.take_append_of_le_length (by simp), List.take_of_length_le (by simp)]
  have below : (vs.reverse ++ stack).drop vs.length = stack := by
    rw [List.drop_append_of_le_length (by simp), List.drop_of_length_le (by simp), List.nil_append]
  simp only [step, if_pos enough, operands, below, List.reverse_reverse]

theorem visit_ok {m : Meaning ε α} {nodes : List Node} {stack last : List α}
    (h : m.visit stack nodes = .ok last) {n : Node} (hn : n ∈ nodes) :
    ∃ here next, m.step here n = .ok next := by
  induction nodes generalizing stack with
  | nil => cases hn
  | cons first more ih =>
    rw [visit] at h
    cases stepped : m.step stack first with
    | error halt =>
      rw [stepped] at h
      cases h
    | ok next =>
      rw [stepped] at h
      rcases List.mem_cons.1 hn with rfl | hn
      · exact ⟨stack, next, stepped⟩
      · exact ih h hn

theorem visit_error {m : Meaning ε α} {nodes : List Node} {stack : List α} {halt : Halt ε}
    (h : m.visit stack nodes = .error halt) : ∃ before n after here, nodes = before ++ n :: after ∧
      m.visit stack before = .ok here ∧ m.step here n = .error halt := by
  induction nodes generalizing stack with
  | nil => cases h
  | cons first more ih =>
    rw [visit] at h
    cases stepped : m.step stack first with
    | error _ =>
      rw [stepped] at h
      cases h
      exact ⟨[], first, more, stack, rfl, rfl, stepped⟩
    | ok next =>
      rw [stepped] at h
      obtain ⟨before, n, after, here, rfl, visited, failed⟩ := ih h
      refine ⟨first :: before, n, after, here, rfl, ?_, failed⟩
      rw [visit, stepped]
      exact visited

end Meaning

/-- The meaning that evaluation gives to nodes. -/
def Env.values (env : Env) : Meaning EvalError Value where
  int := .int
  text := .text
  var x :=
    match env.get? x with
    | some v => .ok v
    | none => .error (.unbound x)
  neg := negate
  op := applyOp
  call := applyCall

theorem length_evalAll {env : Env} {es : List Expr} {vs : List Value} (h : evalAll env es = .ok vs) :
    vs.length = es.length := by
  induction es generalizing vs with
  | nil =>
    cases h
    rfl
  | cons e more ih =>
    rw [evalAll] at h
    cases first : eval env e with
    | error err =>
      rw [first] at h
      cases h
    | ok v =>
      cases rest : evalAll env more with
      | error err =>
        rw [first, rest] at h
        cases h
      | ok vs =>
        rw [first, rest] at h
        cases h
        exact congrArg Nat.succ (ih rest)

mutual

/-- To evaluate an expression is to visit its nodes. -/
theorem visit_nodes (env : Env) : ∀ (e : Expr) (stack : List Value) (rest : List Node),
    env.values.visit stack (e.nodes ++ rest) = env.values.goOn stack rest (eval env e)
  | .int n, stack, rest => by
    rw [eval]
    rfl
  | .text s, stack, rest => by
    rw [eval]
    rfl
  | .var x, stack, rest => by
    rw [eval]
    exact Meaning.visit_push rfl rest
  | .neg e, stack, rest => by
    rw [Expr.nodes, List.append_assoc, visit_nodes env e, eval]
    cases eval env e with
    | error err => rfl
    | ok v => exact Meaning.visit_push rfl rest
  | .bin op l r, stack, rest => by
    rw [Expr.nodes, List.append_assoc, List.append_assoc, visit_nodes env l, eval]
    cases eval env l with
    | error err => rfl
    | ok a =>
      rw [Meaning.goOn, visit_nodes env r]
      cases eval env r with
      | error err => rfl
      | ok b => exact Meaning.visit_push rfl rest
  | .call f args, stack, rest => by
    rw [Expr.nodes, List.append_assoc, visit_nodesOfAll env args, eval]
    cases values : evalAll env args with
    | error err => rfl
    | ok vs =>
      rw [← length_evalAll values]
      exact Meaning.visit_push (env.values.step_call f vs stack) rest

theorem visit_nodesOfAll (env : Env) : ∀ (es : List Expr) (stack : List Value) (rest : List Node),
    env.values.visit stack (Expr.nodesOfAll es ++ rest) =
      match evalAll env es with
      | .ok vs => env.values.visit (vs.reverse ++ stack) rest
      | .error err => .error (.failed err)
  | [], stack, rest => by
    rw [evalAll]
    rfl
  | e :: more, stack, rest => by
    rw [Expr.nodesOfAll, List.append_assoc, visit_nodes env e, evalAll]
    cases eval env e with
    | error err => rfl
    | ok v =>
      rw [Meaning.goOn, visit_nodesOfAll env more]
      cases evalAll env more with
      | error err => rfl
      | ok vs =>
        show env.values.visit (vs.reverse ++ v :: stack) rest =
          env.values.visit ((v :: vs).reverse ++ stack) rest
        rw [List.reverse_cons, List.append_assoc, List.singleton_append]

end

theorem visit_eval (env : Env) (e : Expr) :
    env.values.visit [] e.nodes = env.values.goOn [] [] (eval env e) := by
  simpa only [List.append_nil] using visit_nodes env e [] []

end Worksheet.Calc
