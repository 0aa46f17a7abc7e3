import Worksheet.Proofs.FreeVars
import Worksheet.Proofs.Nodes
/-! The free names of an expression are what its evaluation reads: they are the names at its variable
nodes, a value needs them all, and the first of them that is not bound decides the failure unless some
other node has failed before. -/
namespace Worksheet.Calc

namespace Node

def read? : Node → Option String
  | var x => some x
  | _ => none

/-- The names at variable nodes, in their order. -/
def names (nodes : List Node) : List String := nodes.filterMap read?

theorem names_append (before after : List Node) :
    names (before ++ after) = names before ++ names after := List.filterMap_append

theorem names_var (x : String) (after : List Node) : names (var x :: after) = x :: names after := rfl

theorem eq_var {n : Node} {x : String} (h : n.read? = some x) : n = var x := by
  cases n with
  | var y => exact congrArg var (Option.some.inj h)
  | _ => cases h

theorem mem_names {nodes : List Node} {x : String} : x ∈ names nodes ↔ var x ∈ nodes := by
  rw [names, List.mem_filterMap]
  constructor
  · rintro ⟨n, hn, named⟩
    exact eq_var named ▸ hn
  · exact fun hn => ⟨var x, hn, rfl⟩

end Node

namespace Expr

theorem addName_eraseDups (names : List String) (x : String) :
    addName names.eraseDups x = (names ++ [x]).eraseDups := by
  have one : [x].eraseDups = [x] := by rw [List.eraseDups_cons, List.filter_nil, List.eraseDups_nil]
  rw [List.eraseDups_append, addName]
  by_cases known : x ∈ names
  · simp [List.mem_eraseDups, List.removeAll, known]
  · simp [List.mem_eraseDups, List.removeAll, known, one]

mutual

theorem collectVars_eraseDups : ∀ (e : Expr) (seen : List String),
    collectVars seen.eraseDups e = (seen ++ Node.names e.nodes).eraseDups
  | .int _, seen | .text _, seen => congrArg List.eraseDups (List.append_nil seen).symm
  | .var x, seen => addName_eraseDups seen x
  | .neg e, seen => by
    simpa [collectVars, nodes, Node.names, List.filterMap_cons, Node.read?] using
      collectVars_eraseDups e seen
  | .bin op l r, seen => by
    rw [collectVars, collectVars_eraseDups l, collectVars_eraseDups r]
    simp [nodes, Node.names, List.filterMap_cons, Node.read?]
  | .call f args, seen => by
    simpa [collectVars, nodes, Node.names, List.filterMap_cons, Node.read?] using
      collectVarsOfAll_eraseDups args seen

theorem collectVarsOfAll_eraseDups : ∀ (es : List Expr) (seen : List String),
    collectVarsOfAll seen.eraseDups es =
      (seen ++ Node.names (nodesOfAll es)).eraseDups
  | [], seen => congrArg List.eraseDups (List.append_nil seen).symm
  | e :: more, seen => by
    rw [collectVarsOfAll, collectVars_eraseDups e, collectVarsOfAll_eraseDups more]
    simp [nodesOfAll, Node.names]

end

theorem freeVars_eq (e : Expr) : e.freeVars = (Node.names e.nodes).eraseDups :=
  collectVars_eraseDups e []

theorem mem_freeVars {e : Expr} {x : String} : x ∈ e.freeVars ↔ .var x ∈ e.nodes := by
  rw [freeVars_eq, List.mem_eraseDups, Node.mem_names]

end Expr

theorem nodup_eraseDups (names : List String) : names.eraseDups.Nodup := by
  cases names with
  | nil => exact List.nodup_nil
  | cons x more =>
    rw [List.eraseDups_cons, List.nodup_cons, List.mem_eraseDups]
    exact ⟨by simp, nodup_eraseDups _⟩
termination_by names.length
decreasing_by exact Nat.lt_succ_of_le (List.length_filter_le _ _)

theorem find?_eraseDups (p : String → Bool) (names : List String) :
    names.eraseDups.find? p = names.find? p := by
  cases names with
  | nil => rfl
  | cons x more =>
    rw [List.eraseDups_cons]
    cases here : p x with
    | true => rw [List.find?_cons_of_pos here, List.find?_cons_of_pos here]
    | false =>
      have other : ∀ y, (decide ((!y == x) = true ∧ p y = true)) = p y := by
        intro y
        by_cases same : y = x
        · simp [same, here]
        · simp [same]
      rw [List.find?_cons_of_neg (by simp [here]), List.find?_cons_of_neg (by simp [here]),
        find?_eraseDups p, List.find?_filter, funext other]
termination_by names.length
decreasing_by exact Nat.lt_succ_of_le (List.length_filter_le _ _)

def Env.lacks (env : Env) (x : String) : Bool := (env.get? x).isNone

/-- Evaluation fails at a node after all the nodes before it have gone well. -/
structure Env.FailsAt (env : Env) (e : Expr) (before : List Node) (n : Node) (err : EvalError) :
    Prop where
  place : ∃ after, e.nodes = before ++ n :: after
  stops : ∃ stack, env.values.visit [] before = .ok stack ∧
    env.values.step stack n = .error (.failed err)
  result : eval env e = .error err

theorem eval_failsAt {env : Env} {e : Expr} {err : EvalError} (h : eval env e = .error err) :
    ∃ before n, env.FailsAt e before n err := by
  have visited := visit_eval env e
  rw [h] at visited
  obtain ⟨before, n, after, stack, split, visited, stops⟩ := Meaning.visit_error visited
  exact ⟨before, n, ⟨after, split⟩, ⟨stack, visited, stops⟩, h⟩

variable {env : Env} {e : Expr}

theorem isSome_of_step {x : String} {stack next : List Value}
    (h : env.values.step stack (.var x) = .ok next) : (env.get? x).isSome := by
  cases here : env.get? x with
  | some v => rfl
  | none =>
    simp only [Meaning.step, Env.values, here] at h
    cases h

theorem isSome_of_visit {before : List Node} {stack next : List Value}
    (h : env.values.visit stack before = .ok next) {x : String} (hx : .var x ∈ before) :
    (env.get? x).isSome := by
  obtain ⟨_, _, stepped⟩ := Meaning.visit_ok h hx
  exact isSome_of_step stepped

/-- A variable node fails for want of a binding. -/
theorem step_var_error {x : String} {stack : List Value} {err : EvalError}
    (h : env.values.step stack (.var x) = .error (.failed err)) :
    env.lacks x = true ∧ err = .unbound x := by
  cases here : env.get? x with
  | some v =>
    simp only [Meaning.step, Env.values, here] at h
    cases h
  | none =>
    simp only [Meaning.step, Env.values, here] at h
    cases h
    exact ⟨Option.isNone_iff_eq_none.2 here, rfl⟩

theorem bound_of_eval {v : Value} (h : eval env e = .ok v) {x : String} (hx : x ∈ e.freeVars) :
    (env.get? x).isSome := by
  have visited := visit_eval env e
  rw [h] at visited
  exact isSome_of_visit visited (Expr.mem_freeVars.1 hx)

/-- If names are not bound, the first of them decides the failure, or a node before it does that is
no variable. -/
theorem fails_of_unbound {x : String}
    (h : e.freeVars.find? env.lacks = some x) :
    ∃ before n err, env.FailsAt e before n err ∧
      (n = .var x ∧ err.message = "unbound variable '" ++ x ++ "'" ∨
        n.read? = none ∧ .var x ∉ before) := by
  have unbound : env.lacks x = true := List.find?_some h
  cases value : eval env e with
  | ok v =>
    have bound := bound_of_eval value (List.mem_of_find?_eq_some h)
    rw [Option.isNone_iff_eq_none.1 unbound] at bound
    cases bound
  | error err =>
    obtain ⟨before, n, fails⟩ := eval_failsAt value
    obtain ⟨after, split⟩ := fails.place
    obtain ⟨stack, visited, stops⟩ := fails.stops
    refine ⟨before, n, err, fails, ?_⟩
    have others : ∀ y, .var y ∈ before → ¬ env.lacks y = true := by
      intro y hy
      obtain ⟨v, known⟩ := Option.isSome_iff_exists.1 (isSome_of_visit visited hy)
      simp [Env.lacks, known]
    cases named : n.read? with
    | none => exact .inr ⟨rfl, fun early => others x early unbound⟩
    | some y =>
      left
      cases Node.eq_var named
      obtain ⟨missing, rfl⟩ := step_var_error stops
      have nothing : (Node.names before).find? env.lacks = none :=
        List.find?_eq_none.2 fun z hz => others z (Node.mem_names.1 hz)
      have first : (Node.names e.nodes).find? env.lacks = some y := by
        rw [split, Node.names_append, List.find?_append, nothing, Option.none_or, Node.names_var,
          List.find?_cons_of_pos missing]
      rw [Expr.freeVars_eq, find?_eraseDups, first] at h
      cases h
      exact ⟨rfl, by simp [EvalError.message, EvalError.pieces, String.join]⟩

/-- What evaluation reads of an environment are the free names: they are the names at the variable
nodes, each once and in the order of their first occurrence, and the result depends on them alone. -/
theorem freeVars_read (e : Expr) :
    e.freeVars = (Node.names e.nodes).eraseDups ∧
    e.freeVars.Nodup ∧
    (∀ env env' : Env, (∀ x ∈ e.freeVars, env.get? x = env'.get? x) → eval env e = eval env' e) ∧
    (∀ (env : Env) v, eval env e = .ok v → ∀ x ∈ e.freeVars, (env.get? x).isSome) ∧
    ∀ (env : Env) x, e.freeVars.find? env.lacks = some x →
      ∃ before n err, env.FailsAt e before n err ∧
        (n = .var x ∧ err.message = "unbound variable '" ++ x ++ "'" ∨
          n.read? = none ∧ .var x ∉ before) := by
  have listed := e.freeVars_eq
  refine ⟨listed, listed ▸ nodup_eraseDups _, fun _ _ agree => eval_congr agree, ?_, ?_⟩
  · exact fun _ _ value _ hx => bound_of_eval value hx
  · exact fun _ _ unbound => fails_of_unbound unbound

/-- The division fails before the name is looked up. -/
theorem freeVars_read_when_divided :
    ∃ before n, Env.FailsAt ∅ (.bin .add (.bin .div (.int 1) (.int 0)) (.var "x")) before n
      .divisionByZero ∧ n.read? = none ∧ .var "x" ∉ before := by
  generalize known : Expr.bin .add _ _ = e
  have value : eval ∅ e = .error .divisionByZero := by
    rw [← known]
    rfl
  have first : e.freeVars.find? (Env.lacks ∅) = some "x" := by
    rw [← known]
    rfl
  obtain ⟨before, n, err, fails, early⟩ := (freeVars_read e).2.2.2.2 ∅ "x" first
  cases Except.error.inj (fails.result.symm.trans value)
  refine ⟨before, n, fails, early.resolve_left fun late => ?_⟩
  exact absurd late.2 (by simp [EvalError.message, EvalError.pieces, String.join])

example : (Expr.bin .add (.var "x") (.call "f" [.var "y", .var "x"])).freeVars = ["x", "y"] := by
  decide

end Worksheet.Calc
