import ArenaLisp.Proofs.Tree

/-!
# Evaluation of trees

What an expression evaluates to, said of trees: there is no arena, nothing is allocated or pinned, and
a scope is a tree too.  Two pairs are equal here if they are the same tree, which is the one thing
that the cells of a machine would tell apart.  The bound on the depth only makes the definition a
total one (`eval_mono`).
-/

namespace ArenaLisp.Tree

/-- The evaluation of a tree in a scope. -/
abbrev Evaluator := Tree → Tree → Except Stop Tree

/-- The operand of a form that takes one. -/
def operand (b : Builtin) (args : Tree) : Except Stop Tree :=
  match args.one? with
  | some x => .ok x
  | none => .error (.badOperands b)

/-- The operands of a form that takes two. -/
def operands (b : Builtin) (args : Tree) : Except Stop (Tree × Tree) :=
  match args.two? with
  | some xs => .ok xs
  | none => .error (.badOperands b)

/-- What `ident` is bound to in a chain of bindings, innermost binding first. -/
def lookup (ident : AtomId) : Tree → Except Stop (Option Tree)
  | .pair (.pair key value) parent =>
    if key = .atom ident then .ok (some value) else lookup ident parent
  | .pair _ _ => .error (.illFormed .scope)
  | .nil => .ok none
  | .atom id =>
    if id = .topLevel then .ok ((Builtin.ofAtom? ident).map .builtin)
    else .error (.illFormed .scope)
  | .builtin _ => .error (.illFormed .scope)

/-- The scope that binds one more name. -/
def extend (scope ident v : Tree) : Tree := .pair (.pair ident v) scope

/-- The slot of a pair that `slot` takes; `nil` gives `nil`. -/
def evalSlot (ev : Evaluator) (b : Builtin) (slot : Tree → Tree → Tree) (args scope : Tree) :
    Except Stop Tree := do
  match ← ev (← operand b args) scope with
  | .nil => return .nil
  | .pair x y => return slot x y
  | _ => throw (.illFormed (.slotOf b))

/-- The values of the two operands of `b`. -/
def evalBoth (ev : Evaluator) (b : Builtin) (args scope : Tree) : Except Stop (Tree × Tree) := do
  let (first, second) ← operands b args
  let x ← ev first scope
  let y ← ev second scope
  return (x, y)

/-- The closure `(closure scope formals body)`. -/
def makeClosure (args scope : Tree) : Except Stop Tree := do
  let _ ← operands .lambda args
  return .pair (.atom .closure) (.pair scope args)

/-- The result of the first clause that has a true test. -/
def firstTrue (ev : Evaluator) (scope : Tree) : Tree → Except Stop Tree
  | .pair clause clauses => do
    let (test, result) ← operands .cond clause
    if (← ev test scope).isNil then firstTrue ev scope clauses else ev result scope
  | .nil => throw (.illFormed .noClause)
  | _ => throw (.badOperands .cond)

/-- The body of a `let` in the scope of its bindings, each of which is evaluated in the scope of those
before it. -/
def bindInTurn (ev : Evaluator) (body : Tree) : Tree → Tree → Except Stop Tree
  | .pair binding bindings, scope => do
    let (ident, expr) ← operands .letIn binding
    unless ident.isAtom do throw (.badOperands .letIn)
    bindInTurn ev body bindings (scope.extend ident (← ev expr scope))
  | .nil, scope => ev body scope
  | _, _ => throw (.badOperands .letIn)

/-- A special form on its operands. -/
def runSpecial (ev : Evaluator) (b : Builtin) (args scope : Tree) : Except Stop Tree :=
  match b with
  | .quote => operand .quote args
  | .car => evalSlot ev .car (fun x _ => x) args scope
  | .cdr => evalSlot ev .cdr (fun _ y => y) args scope
  | .cons => do
    let (x, y) ← evalBoth ev .cons args scope
    return .pair x y
  | .eq => do
    let (x, y) ← evalBoth ev .eq args scope
    return .ofBool (x == y)
  | .lambda => makeClosure args scope
  | .cond => firstTrue ev scope args
  | .letIn => do
    let (bindings, body) ← operands .letIn args
    bindInTurn ev body bindings scope

/-- The body of a closure in the scope of its formals, bound to actuals that are evaluated in the
scope of the caller. -/
def bindFormals (ev : Evaluator) (body caller : Tree) : Tree → Tree → Tree → Except Stop Tree
  | .nil, .nil, scope => ev body scope
  | .pair ident formals, .pair actual actuals, scope => do
    unless ident.isAtom do throw (.illFormed .formals)
    bindFormals ev body caller formals actuals (scope.extend ident (← ev actual caller))
  | .nil, .pair _ _, _ | .pair _ _, .nil, _ => throw (.illFormed .arity)
  | .nil, _, _ | .pair _ _, _, _ => throw (.illFormed (.operands .application))
  | _, _, _ => throw (.illFormed .formals)

/-- The call of a closure, given what follows its head. -/
def callClosure (ev : Evaluator) (rest actuals caller : Tree) : Except Stop Tree :=
  match rest.three? with
  | some (captured, formals, body) => bindFormals ev body caller formals actuals captured
  | none => throw (.illFormed .closure)

/-- What an operator evaluated to, applied to operands as they stand. -/
def apply (ev : Evaluator) (lexicon : Lexicon) (op args scope : Tree) : Except Stop Tree :=
  match op with
  | .builtin b => runSpecial ev b args scope
  | .pair head rest =>
    if head = .atom .closure then callClosure ev rest args scope
    else throw (.failure (.notCallable (op.render lexicon)))
  | _ => throw (.failure (.notCallable (op.render lexicon)))

/-- The value of an atom in a scope. -/
def evalAtom (lexicon : Lexicon) (id : AtomId) (scope : Tree) : Except Stop Tree := do
  if id = .t then return .atom .t
  match ← scope.lookup id with
  | some v => return v
  | none => throw (.failure (.unbound (lexicon.name id)))

/-- An expression in a scope, given the evaluation of what is inside it. -/
def step (ev : Evaluator) (lexicon : Lexicon) : Evaluator
  | .nil, _ => return .nil
  | .atom id, scope => evalAtom lexicon id scope
  | .builtin _, _ => throw (.illFormed .expression)
  | .pair head args, scope => do apply ev lexicon (← ev head scope) args scope

/-- An expression in a scope, evaluated to a bounded depth. -/
def eval (lexicon : Lexicon) : Nat → Evaluator
  | 0, _, _ => throw .unfinished
  | depth + 1, expr, scope => step (eval lexicon depth) lexicon expr scope

/-- Whether evaluation finishes, and with which answer. -/
def Evaluates (lexicon : Lexicon) (expr scope : Tree) (answer : Except Stop Tree) : Prop :=
  answer ≠ .error .unfinished ∧ ∃ depth, eval lexicon depth expr scope = answer

/-! ### More depth -/

/-- The same answer, unless the first was cut off. -/
def Cut {α : Type} (r r' : Except Stop α) : Prop := r = .error .unfinished ∨ r = r'

namespace Cut

variable {α β : Type} {r r' : Except Stop α} {ev ev' : Evaluator} {lexicon : Lexicon}
  {args scope : Tree}

theorem refl (r : Except Stop α) : Cut r r := .inr rfl

theorem bind {f f' : α → Except Stop β} (h : Cut r r') (hf : ∀ x, Cut (f x) (f' x)) :
    Cut (r >>= f) (r' >>= f') := by
  rcases h with rfl | rfl
  · exact .inl rfl
  · cases r with
    | ok x => exact hf x
    | error e => exact .refl _

section Evaluator

variable (hev : ∀ expr scope, Cut (ev expr scope) (ev' expr scope))
include hev

theorem evalSlot (b : Builtin) (slot : Tree → Tree → Tree) :
    Cut (evalSlot ev b slot args scope) (evalSlot ev' b slot args scope) :=
  (refl _).bind fun _ => (hev _ _).bind fun _ => refl _

theorem evalBoth (b : Builtin) : Cut (evalBoth ev b args scope) (evalBoth ev' b args scope) :=
  (refl _).bind fun _ => (hev _ _).bind fun _ => (hev _ _).bind fun _ => refl _

theorem firstTrue : Cut (firstTrue ev scope args) (firstTrue ev' scope args) := by
  induction args with
  | nil | atom _ | builtin _ => exact refl _
  | pair clause clauses _ ih =>
    refine (refl _).bind fun operands => (hev _ _).bind fun test => ?_
    split
    · exact ih
    · exact hev _ _

theorem bindInTurn (body : Tree) :
    Cut (bindInTurn ev body args scope) (bindInTurn ev' body args scope) := by
  induction args generalizing scope with
  | nil => exact hev _ _
  | atom _ | builtin _ => exact refl _
  | pair binding bindings _ ih =>
    refine (refl _).bind fun operands => ?_
    dsimp only
    split
    · exact (hev _ _).bind fun v => ih
    · exact refl _

theorem runSpecial (b : Builtin) :
    Cut (runSpecial ev b args scope) (runSpecial ev' b args scope) := by
  cases b with
  | quote | lambda => exact refl _
  | car | cdr => exact evalSlot hev _ _
  | cons | eq => exact (evalBoth hev _).bind fun _ => refl _
  | cond => exact firstTrue hev
  | letIn => exact (refl _).bind fun operands => bindInTurn hev _

theorem bindFormals (body caller : Tree) {formals : Tree} :
    Cut (bindFormals ev body caller formals args scope)
      (bindFormals ev' body caller formals args scope) := by
  induction formals generalizing args scope with
  | nil =>
    cases args with
    | nil => exact hev _ _
    | atom _ | builtin _ | pair _ _ => exact refl _
  | atom _ | builtin _ => cases args <;> exact refl _
  | pair ident formals _ ih =>
    cases args with
    | nil | atom _ | builtin _ => exact refl _
    | pair actual actuals =>
      rw [Tree.bindFormals, Tree.bindFormals]
      dsimp only
      split
      · exact (hev _ _).bind fun v => ih
      · exact refl _

theorem step : Cut (step ev lexicon args scope) (step ev' lexicon args scope) := by
  cases args with
  | nil | atom _ | builtin _ => exact refl _
  | pair head args =>
    refine (hev _ _).bind fun op => ?_
    cases op with
    | nil | atom _ => exact refl _
    | builtin b => exact runSpecial hev b
    | pair head rest =>
      rw [Tree.apply, Tree.apply]
      split
      · unfold callClosure
        split
        · exact bindFormals hev _ _
        · exact refl _
      · exact refl _

end Evaluator

end Cut

variable {lexicon : Lexicon} {expr scope : Tree}

theorem eval_cut_succ (depth : Nat) (expr scope : Tree) :
    Cut (eval lexicon depth expr scope) (eval lexicon (depth + 1) expr scope) := by
  induction depth generalizing expr scope with
  | zero => exact .inl rfl
  | succ depth ih => exact .step ih

/-- What finishes at some depth gives the same answer at every greater depth. -/
theorem eval_mono {d d' : Nat} (hd : d ≤ d')
    (h : eval lexicon d expr scope ≠ .error .unfinished) :
    eval lexicon d' expr scope = eval lexicon d expr scope := by
  induction hd with
  | refl => rfl
  | @step d' _ ih =>
    have hcuts : Cut (eval lexicon d' expr scope) (eval lexicon (d' + 1) expr scope) :=
      eval_cut_succ d' expr scope
    rcases hcuts with hcut | heq
    · exact absurd (ih ▸ hcut) h
    · rw [← heq, ih]

/-- A tree has at most one answer. -/
theorem Evaluates.unique {r r' : Except Stop Tree} (h : Evaluates lexicon expr scope r)
    (h' : Evaluates lexicon expr scope r') : r = r' := by
  obtain ⟨hr, d, rfl⟩ := h
  obtain ⟨hr', d', rfl⟩ := h'
  rcases Nat.le_total d d' with hd | hd
  · exact (eval_mono hd hr).symm
  · exact eval_mono hd hr'

end ArenaLisp.Tree
