import ArenaLisp.Eval.Special

/-!
# Evaluation

`nil` and `t` evaluate to themselves, any other atom to its value in the scope, and a pair by its
head: the builtin or closure that the head evaluates to is applied to the rest of the pair.
Evaluation need not end.  It takes a bound on its depth, which also bounds the lists it walks, and
stops as `unfinished` where the bound is too small.
-/

namespace ArenaLisp

namespace Eval

/-- The value of an atom in a scope. -/
def evalAtom (id : AtomId) (scope : Scope) : Action Value := do
  if id = .t then return .atom .t
  match ← Action.reading (scope.lookup · id) with
  | some v => return v
  | none => throw (.failure (.unbound ((← get).lexicon.name id)))

/-- Applies what an operator evaluated to to operands as they stand. -/
def apply (ev : Evaluator) (fuel : Nat) (op args : Value) (scope : Scope) : Action Value := do
  match op with
  | .builtin b => runSpecial ev fuel b args scope
  | .pair func =>
    if (← Action.car func) = .atom .closure then callClosure ev fuel func args scope
    else throw (.failure (.notCallable (← Action.render op)))
  | _ => throw (.failure (.notCallable (← Action.render op)))

/-- Evaluates an expression, given the evaluation of what is inside it. -/
def step (ev : Evaluator) (fuel : Nat) : Evaluator
  | .nil, _ => return .nil
  | .atom id, scope => evalAtom id scope
  | .builtin _, _ => throw (.illFormed .expression)
  | .pair id, scope => Action.pinned (.pair id) do
    let head ← Action.car id
    let args ← Action.cdr id
    apply ev fuel (← ev head scope) args scope

end Eval

/-- Evaluates an expression in a scope.  The scope has to be pinned, the expression has not. -/
def evalIn : Nat → Evaluator
  | 0, _, _ => throw .unfinished
  | fuel + 1, expr, scope => Eval.step (evalIn fuel) fuel expr scope

/-- Evaluates an expression at top level. -/
def eval (fuel : Nat) (expr : Value) : Action Value := evalIn fuel expr .top

end ArenaLisp
