import ArenaLisp.Scope

/-!
# Calling a closure

A closure is a list `(closure scope formals body)`.  A call evaluates the actuals from left to right
in the scope of the caller, binds each to its formal in front of the scope of the closure, and then
evaluates the body there.  The evaluator is an argument here, and so is a bound on the number of
formals.
-/

namespace ArenaLisp

/-- The evaluation of an expression in a scope. -/
abbrev Evaluator := Value → Scope → Action Value

namespace Eval

/-- Binds formals to evaluated actuals one by one, then evaluates the body.  The innermost root is
the scope as it stands. -/
def bindFormals (ev : Evaluator) (body : Value) (caller : Scope) :
    Nat → Value → Value → Scope → Action Value
  | 0, _, _, _ => throw .unfinished
  | fuel + 1, formals, actuals, scope =>
    match formals, actuals with
    | .nil, .nil => ev body scope
    | .pair f, .pair a => do
      let ident ← Action.car f
      unless ident.isAtom do throw (.illFormed .formals)
      let v ← ev (← Action.car a) caller
      let scope ← scope.extend ident v
      Action.repin scope.value
      bindFormals ev body caller fuel (← Action.cdr f) (← Action.cdr a) scope
    | .nil, .pair _ | .pair _, .nil => throw (.illFormed .arity)
    | .nil, _ | .pair _, _ => throw (.illFormed (.operands .application))
    | _, _ => throw (.illFormed .formals)

/-- Records a call, if the log lets it through. -/
def recordCall (formals actuals : Value) : Action Unit := do
  if (← get).log.enabled .trace then
    let formals ← Action.render formals
    let actuals ← Action.render actuals
    modify (Machine.record (.applied formals actuals))

/-- Calls the closure in the cell `func`.  What follows its head is pinned, since nothing else may
hold the closure. -/
def callClosure (ev : Evaluator) (fuel : Nat) (func : CellId) (actuals : Value) (caller : Scope) :
    Action Value := do
  let rest ← Action.cdr func
  match ← Action.reading (·.three? rest) with
  | none => throw (.illFormed .closure)
  | some (captured, formals, body) =>
    recordCall formals actuals
    Action.pinned rest <| Action.pinned captured <|
      bindFormals ev body caller fuel formals actuals ⟨captured⟩

end Eval

end ArenaLisp
