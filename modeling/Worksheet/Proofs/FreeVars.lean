import Worksheet.Calc.Eval
/-! Evaluation reads the free names of an expression and no others. -/
namespace Worksheet.Calc

namespace Expr

theorem mem_addName {names : List String} {x y : String} :
    x ∈ addName names y ↔ x ∈ names ∨ x = y := by
  simp only [addName]
  split
  · rename_i known
    constructor
    · exact Or.inl
    · rintro (member | rfl)
      · exact member
      · exact known
  · simp

mutual

theorem found_collectVars {x : String} : ∀ (e : Expr) {found : List String}, x ∈ found →
    x ∈ collectVars found e
  | .int _, _, h => h
  | .text _, _, h => h
  | .var _, _, h => mem_addName.2 (Or.inl h)
  | .neg e, _, h => found_collectVars e h
  | .bin _ l r, _, h => found_collectVars r (found_collectVars l h)
  | .call _ args, _, h => found_collectVarsOfAll args h

theorem found_collectVarsOfAll {x : String} : ∀ (es : List Expr) {found : List String},
    x ∈ found → x ∈ collectVarsOfAll found es
  | [], _, h => h
  | e :: more, _, h => found_collectVarsOfAll more (found_collectVars e h)

end

end Expr

open Worksheet.Calc.Expr

variable {env env' : Env}

mutual

theorem eval_agree : ∀ (e : Expr) {found : List String},
    (∀ x ∈ collectVars found e, env.get? x = env'.get? x) → eval env e = eval env' e
  | .int _, _, _ => rfl
  | .text _, _, _ => rfl
  | .var x, _, agree => by
    have here := agree x (mem_addName.2 (Or.inr rfl))
    simp only [eval, here]
  | .neg e, _, agree => by
    simp only [eval, eval_agree e agree]
  | .bin op l r, found, agree => by
    have left := eval_agree l fun x hx => agree x (found_collectVars r hx)
    have right := eval_agree r agree
    simp only [eval, left, right]
  | .call f args, _, agree => by
    simp only [eval, evalAll_agree args agree]

theorem evalAll_agree : ∀ (es : List Expr) {found : List String},
    (∀ x ∈ collectVarsOfAll found es, env.get? x = env'.get? x) → evalAll env es = evalAll env' es
  | [], _, _ => rfl
  | e :: more, found, agree => by
    have first := eval_agree e fun x hx => agree x (found_collectVarsOfAll more hx)
    have rest := evalAll_agree more agree
    simp only [evalAll, first, rest]

end

/-- Environments that agree on the free names of an expression give it the same value. -/
theorem eval_congr {e : Expr} (agree : ∀ x ∈ e.freeVars, env.get? x = env'.get? x) :
    eval env e = eval env' e := eval_agree e agree

/-- What a declaration hands on binds its own name at most. -/
theorem Decl.get?_evaluate {d : Decl} {y : Yield} (h : d.evaluate env = .ok y) {x : String}
    (other : d.bound ≠ some x) : y.env.get? x = none := by
  simp only [evaluate] at h
  split at h
  · cases h
  · split at h
    · rename_i name bound
      cases h
      have differ : x ≠ name := fun same => other (bound.trans (congrArg some same.symm))
      rw [SortedMap.get?_insert, if_neg differ, SortedMap.get?_empty]
    · cases h
      rfl

theorem Section.source_ofSource (source : String) : (ofSource source).source = source := by
  simp only [ofSource]
  split
  · rfl
  · rfl

end Worksheet.Calc
