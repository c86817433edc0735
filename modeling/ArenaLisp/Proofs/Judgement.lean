import ArenaLisp.Eval.Basic

/-!
# Judgements of evaluation

Much of what can be said of evaluation holds of it because it holds of every step: of what is read, of
what is allocated, and of two actions in a row if it holds of both.  A `Judgement` is what is said, of two
actions that do the same work, with a rule for each way in which the evaluator puts actions together.  It
then holds of evaluation (`Judgement.evalIn`), within one bound on the left and the same or a greater one
on the right.  Only here is the evaluator gone through for what needs no knowledge of the machine.
-/

namespace ArenaLisp

/-- What is said of actions of the evaluator, two of which do the same work, and of the values that they
give.  Inside a pin, where the innermost root may be replaced, less may be said. -/
structure Judgement where
  /-- What is said of two actions, the values of which have a property. -/
  Holds : {α : Type} → (α → Prop) → Action α → Action α → Prop
  /-- What is said inside a pin. -/
  Inside : {α : Type} → (α → Prop) → Action α → Action α → Prop
  /-- What is said of the value of an expression. -/
  IsValue : Value → Prop
  nil : IsValue .nil
  t : IsValue (.atom .t)
  pure {α : Type} {P : α → Prop} {x : α} (h : P x) : Holds P (Pure.pure x) (Pure.pure x)
  unfinished {α : Type} {P : α → Prop} (act : Action α) : Holds P (throw .unfinished) act
  illFormed {α : Type} {P : α → Prop} (what : IllFormed) :
    Holds P (throw (.illFormed what) : Action α) (throw (.illFormed what))
  notCallable {P : Value → Prop} (op : Value) :
    Holds P (do throw (.failure (.notCallable (← Action.render op))))
      (do throw (.failure (.notCallable (← Action.render op))))
  bind {α β : Type} {P : α → Prop} {Q : β → Prop} {act act' : Action α} {f f' : α → Action β}
    (h : Holds P act act') (hf : ∀ x, Holds Q (f x) (f' x)) : Holds Q (act >>= f) (act' >>= f')
  inside {α : Type} {P : α → Prop} {act act' : Action α} (h : Holds P act act') : Inside P act act'
  insideBind {α β : Type} {P : α → Prop} {Q : β → Prop} {act act' : Action α} {f f' : α → Action β}
    (h : Inside P act act') (hf : ∀ x, Inside Q (f x) (f' x)) : Inside Q (act >>= f) (act' >>= f')
  repin (v : Value) : Inside (fun _ => True) (Action.repin v) (Action.repin v)
  pinned {α : Type} {P : α → Prop} {act act' : Action α} (v : Value) (h : Inside P act act') :
    Holds P (Action.pinned v act) (Action.pinned v act')
  car (id : CellId) : Holds IsValue (Action.car id) (Action.car id)
  cdr (id : CellId) : Holds IsValue (Action.cdr id) (Action.cdr id)
  operand (b : Builtin) (args : Value) : Holds IsValue (Eval.operand b args) (Eval.operand b args)
  operands (b : Builtin) (args : Value) :
    Holds (fun _ => True) (Eval.operands b args) (Eval.operands b args)
  parts (list : Value) :
    Holds (fun _ => True) (Action.reading (·.three? list)) (Action.reading (·.three? list))
  cons (x y : Value) : Holds IsValue (Action.cons x y) (Action.cons x y)
  evalAtom (i : AtomId) (scope : Scope) :
    Holds IsValue (Eval.evalAtom i scope) (Eval.evalAtom i scope)
  recordCall (formals actuals : Value) :
    Holds (fun _ => True) (Eval.recordCall formals actuals) (Eval.recordCall formals actuals)

namespace Judgement

variable (J : Judgement) {args : Value} {scope : Scope}

/-- What follows a stop is not reached. -/
theorem insideIllFormed_bind {α β : Type} {Q : β → Prop} (what : IllFormed) (f f' : α → Action β) :
    J.Inside Q (throw (.illFormed what) >>= f) (throw (.illFormed what) >>= f') :=
  J.inside (J.illFormed (α := β) what)

theorem extend (ident v : Value) :
    J.Holds (fun _ => True) (scope.extend ident v) (scope.extend ident v) :=
  J.bind (J.cons ident v) fun entry => J.bind (J.cons entry scope.value) fun _ => J.pure trivial

theorem makeClosure :
    J.Holds J.IsValue (Eval.makeClosure args scope) (Eval.makeClosure args scope) :=
  J.bind (J.operands _ args) fun _ => J.bind (J.cons _ args) fun rest => J.cons _ rest

section Evaluator

variable {ev ev' : Evaluator} {fuel fuel' : Nat}
  (hev : ∀ expr scope, J.Holds J.IsValue (ev expr scope) (ev' expr scope)) (hfuel : fuel ≤ fuel')
include hev

theorem evalSlot (b : Builtin) {slot : CellId → Action Value}
    (hslot : ∀ id, J.Holds J.IsValue (slot id) (slot id)) :
    J.Holds J.IsValue (Eval.evalSlot ev b slot args scope) (Eval.evalSlot ev' b slot args scope) := by
  refine J.bind (J.operand b args) fun expr => J.bind (hev expr scope) fun v => ?_
  split
  · exact J.pure J.nil
  · exact hslot _
  · exact J.illFormed _

theorem evalBoth (b : Builtin) :
    J.Holds (fun _ => True) (Eval.evalBoth ev b args scope) (Eval.evalBoth ev' b args scope) :=
  J.bind (J.operands b args) fun p => J.bind (hev p.1 scope) fun x =>
    J.bind (J.pinned x (J.inside (hev p.2 scope))) fun _ => J.pure trivial

include hfuel

theorem firstTrue :
    J.Holds J.IsValue (Eval.firstTrue ev scope fuel args) (Eval.firstTrue ev' scope fuel' args) := by
  induction fuel generalizing fuel' args with
  | zero => exact J.unfinished _
  | succ fuel ih =>
    obtain ⟨fuel', rfl⟩ := Nat.exists_eq_add_of_le' (Nat.le_of_add_left_le hfuel)
    cases args with
    | nil | atom _ | builtin _ => exact J.illFormed _
    | pair id =>
      refine J.bind (J.car id) fun clause => J.bind (J.cdr id) fun clauses => ?_
      refine J.bind (J.operands _ clause) fun p => J.bind (hev _ _) fun test => ?_
      split
      · exact ih (Nat.le_of_succ_le_succ hfuel)
      · exact hev _ _

theorem bindInTurn (body : Value) :
    J.Inside J.IsValue (Eval.bindInTurn ev body fuel args scope)
      (Eval.bindInTurn ev' body fuel' args scope) := by
  induction fuel generalizing fuel' args scope with
  | zero => exact J.inside (J.unfinished _)
  | succ fuel ih =>
    obtain ⟨fuel', rfl⟩ := Nat.exists_eq_add_of_le' (Nat.le_of_add_left_le hfuel)
    cases args with
    | nil => exact J.inside (hev _ _)
    | atom _ | builtin _ => exact J.inside (J.illFormed _)
    | pair id =>
      refine J.insideBind (J.inside (J.car id)) fun binding => ?_
      refine J.insideBind (J.inside (J.operands _ binding)) fun p => ?_
      dsimp only
      split
      · refine J.insideBind (J.inside (hev _ _)) fun v => ?_
        refine J.insideBind (J.inside (J.extend _ v)) fun scope => J.insideBind (J.repin _) fun _ => ?_
        exact J.insideBind (J.inside (J.cdr id)) fun rest => ih (Nat.le_of_succ_le_succ hfuel)
      · exact J.insideIllFormed_bind _ _ _

theorem runSpecial (b : Builtin) :
    J.Holds J.IsValue (Eval.runSpecial ev fuel b args scope)
      (Eval.runSpecial ev' fuel' b args scope) := by
  cases b with
  | quote => exact J.operand _ args
  | car => exact J.evalSlot hev _ J.car
  | cdr => exact J.evalSlot hev _ J.cdr
  | cons => exact J.bind (J.evalBoth hev _) fun p => J.cons p.1 p.2
  | eq =>
    refine J.bind (J.evalBoth hev _) fun p => J.pure ?_
    cases p.1 == p.2 with
    | false => exact J.nil
    | true => exact J.t
  | lambda => exact J.makeClosure
  | cond => exact J.firstTrue hev hfuel
  | letIn => exact J.bind (J.operands _ args) fun p => J.pinned _ (J.bindInTurn hev hfuel _)

theorem bindFormals (body : Value) (caller : Scope) {formals : Value} :
    J.Inside J.IsValue (Eval.bindFormals ev body caller fuel formals args scope)
      (Eval.bindFormals ev' body caller fuel' formals args scope) := by
  induction fuel generalizing fuel' formals args scope with
  | zero => exact J.inside (J.unfinished _)
  | succ fuel ih =>
    obtain ⟨fuel', rfl⟩ := Nat.exists_eq_add_of_le' (Nat.le_of_add_left_le hfuel)
    cases formals with
    | nil =>
      cases args with
      | nil => exact J.inside (hev _ _)
      | atom _ | builtin _ | pair _ => exact J.inside (J.illFormed _)
    | atom _ | builtin _ => cases args <;> exact J.inside (J.illFormed _)
    | pair f =>
      cases args with
      | nil | atom _ | builtin _ => exact J.inside (J.illFormed _)
      | pair a =>
        refine J.insideBind (J.inside (J.car f)) fun ident => ?_
        dsimp only
        split
        · refine J.insideBind (J.inside (J.car a)) fun actual => ?_
          refine J.insideBind (J.inside (hev _ _)) fun v => ?_
          refine J.insideBind (J.inside (J.extend _ v)) fun scope => J.insideBind (J.repin _) fun _ => ?_
          refine J.insideBind (J.inside (J.cdr f)) fun formals => ?_
          exact J.insideBind (J.inside (J.cdr a)) fun actuals => ih (Nat.le_of_succ_le_succ hfuel)
        · exact J.insideIllFormed_bind _ _ _

theorem callClosure (func : CellId) (caller : Scope) :
    J.Holds J.IsValue (Eval.callClosure ev fuel func args caller)
      (Eval.callClosure ev' fuel' func args caller) := by
  refine J.bind (J.cdr func) fun rest => J.bind (J.parts rest) fun parts => ?_
  cases parts with
  | none => exact J.illFormed _
  | some parts =>
    refine J.bind (J.recordCall _ args) fun _ => J.pinned _ (J.inside ?_)
    exact J.pinned _ (J.bindFormals hev hfuel _ _)

theorem apply (op : Value) :
    J.Holds J.IsValue (Eval.apply ev fuel op args scope) (Eval.apply ev' fuel' op args scope) := by
  cases op with
  | nil | atom _ => exact J.notCallable _
  | builtin b => exact J.runSpecial hev hfuel b
  | pair func =>
    refine J.bind (J.car func) fun head => ?_
    split
    · exact J.callClosure hev hfuel func scope
    · exact J.notCallable _

/-- A judgement holds of everything that is done with the evaluation of what is inside. -/
theorem step (expr : Value) :
    J.Holds J.IsValue (Eval.step ev fuel expr scope) (Eval.step ev' fuel' expr scope) := by
  cases expr with
  | nil => exact J.pure J.nil
  | atom i => exact J.evalAtom i scope
  | builtin b => exact J.illFormed _
  | pair id =>
    refine J.pinned _ (J.inside ?_)
    refine J.bind (J.car id) fun head => J.bind (J.cdr id) fun args => ?_
    exact J.bind (hev head scope) fun op => J.apply hev hfuel op

end Evaluator

/-- A judgement holds of evaluation. -/
theorem evalIn {fuel fuel' : Nat} (hfuel : fuel ≤ fuel') (expr : Value) (scope : Scope) :
    J.Holds J.IsValue (evalIn fuel expr scope) (evalIn fuel' expr scope) := by
  induction fuel generalizing fuel' expr scope with
  | zero => exact J.unfinished _
  | succ fuel ih =>
    obtain ⟨fuel', rfl⟩ := Nat.exists_eq_add_of_le' (Nat.le_of_add_left_le hfuel)
    have hle := Nat.le_of_succ_le_succ hfuel
    exact J.step (ih hle) hle expr

end Judgement

end ArenaLisp
