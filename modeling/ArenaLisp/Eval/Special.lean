import ArenaLisp.Eval.Closure

/-!
# The special forms

A special form gets its operands as they stand in the expression, checks their shape, and decides
which of them to evaluate; `cond` checks clause by clause and `let` binding by binding.  The
operands are reachable from the expression, which is pinned, and so is the scope.  The evaluator is
an argument here, and so is a bound on the number of clauses and bindings.
-/

namespace ArenaLisp.Eval

/-- The operand of a form that takes one. -/
@[inline] def operand (b : Builtin) (args : Value) : Action Value := do
  match ← Action.reading (·.one? args) with
  | some x => return x
  | none => throw (.badOperands b)

/-- The operands of a form that takes two. -/
@[inline] def operands (b : Builtin) (args : Value) : Action (Value × Value) := do
  match ← Action.reading (·.two? args) with
  | some xs => return xs
  | none => throw (.badOperands b)

/-- Evaluates the operand of `b` and takes a slot of the pair that it gives; `nil` gives `nil`. -/
@[inline] def evalSlot (ev : Evaluator) (b : Builtin) (slot : CellId → Action Value) (args : Value)
    (scope : Scope) : Action Value := do
  match ← ev (← operand b args) scope with
  | .nil => return .nil
  | .pair id => slot id
  | _ => throw (.illFormed (.slotOf b))

/-- Evaluates the two operands of `b` from left to right; the first value is pinned meanwhile. -/
@[inline] def evalBoth (ev : Evaluator) (b : Builtin) (args : Value) (scope : Scope) :
    Action (Value × Value) := do
  let (first, second) ← operands b args
  let x ← ev first scope
  let y ← Action.pinned x (ev second scope)
  return (x, y)

/-- Builds the closure `(closure scope formals body)`. -/
def makeClosure (args : Value) (scope : Scope) : Action Value := do
  let _ ← operands .lambda args
  let rest ← Action.cons scope.value args
  Action.cons (.atom .closure) rest

/-- Evaluates the result of the first clause that has a true test. -/
def firstTrue (ev : Evaluator) (scope : Scope) : Nat → Value → Action Value
  | 0, _ => throw .unfinished
  | fuel + 1, .pair id => do
    let clause ← Action.car id
    let clauses ← Action.cdr id
    let (test, result) ← operands .cond clause
    if (← ev test scope).isNil then firstTrue ev scope fuel clauses else ev result scope
  | _ + 1, .nil => throw (.illFormed .noClause)
  | _ + 1, _ => throw (.badOperands .cond)

/-- Binds the bindings of a `let` one by one, each in the scope of those before it, then evaluates
the body.  The innermost root is the scope as it stands. -/
def bindInTurn (ev : Evaluator) (body : Value) : Nat → Value → Scope → Action Value
  | 0, _, _ => throw .unfinished
  | fuel + 1, .pair id, scope => do
    let (ident, expr) ← operands .letIn (← Action.car id)
    unless ident.isAtom do throw (.badOperands .letIn)
    let v ← ev expr scope
    let scope ← scope.extend ident v
    Action.repin scope.value
    bindInTurn ev body fuel (← Action.cdr id) scope
  | _ + 1, .nil, scope => ev body scope
  | _ + 1, _, _ => throw (.badOperands .letIn)

/-- Runs a special form on its operands. -/
def runSpecial (ev : Evaluator) (fuel : Nat) (b : Builtin) (args : Value) (scope : Scope) :
    Action Value :=
  match b with
  | .quote => operand .quote args
  | .car => evalSlot ev .car Action.car args scope
  | .cdr => evalSlot ev .cdr Action.cdr args scope
  | .cons => do
    let (x, y) ← evalBoth ev .cons args scope
    Action.cons x y
  | .eq => do
    let (x, y) ← evalBoth ev .eq args scope
    return .ofBool (x == y)
  | .lambda => makeClosure args scope
  | .cond => firstTrue ev scope fuel args
  | .letIn => do
    let (bindings, body) ← operands .letIn args
    Action.pinned scope.value (bindInTurn ev body fuel bindings scope)

end ArenaLisp.Eval
