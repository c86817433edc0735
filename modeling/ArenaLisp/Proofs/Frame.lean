import ArenaLisp.Program
import ArenaLisp.Proofs.InStep
import ArenaLisp.Proofs.Judgement

/-!
# What no work changes

A relation between machines that every allocation and every record keeps, and that is not lost when
the innermost root is taken off on both sides, is kept by all work of the evaluator (`evalIn_leaves`),
for which keeping it is a judgement, and, if interning keeps it too, by all work of the reader
(`Leaves.read`).  So evaluation leaves the lexicon as it is, and reading only adds to it; and both
leave the root stack as it is.
-/

namespace ArenaLisp

/-- The state in which a run ended. -/
def ending {σ α : Type} : EStateM.Result Stop σ α → σ
  | .ok _ s | .error _ s => s

/-- What a run gave. -/
def answer {σ α : Type} : EStateM.Result Stop σ α → Except Stop α
  | .ok x _ => .ok x
  | .error e _ => .error e

/-- A relation that is kept by what the evaluator does to a machine. -/
structure Frame (T : Machine → Machine → Prop) : Prop where
  refl : ∀ m, T m m
  trans : ∀ {m m₂ m₃}, T m m₂ → T m₂ m₃ → T m m₃
  allocated : ∀ m x y, T m (m.allocated x y)
  record : ∀ m r, T m (m.record r)
  unpin : ∀ {m m₂}, T m m₂ → T m.unpin m₂.unpin

/-- An action that keeps a relation, however it ends. -/
def Leaves {α : Type} (T : Machine → Machine → Prop) (act : Action α) : Prop :=
  ∀ m, T m (ending (act.run m))

/-- An action that keeps a relation between the machines without their innermost root, which it may
replace. -/
def LeavesBelow {α : Type} (T : Machine → Machine → Prop) (act : Action α) : Prop :=
  ∀ m, T m.unpin (ending (act.run m)).unpin

namespace Leaves

variable {T : Machine → Machine → Prop} {α β : Type} {act : Action α} (hT : Frame T)

section Rules

/-- Two actions in a row, for which it is enough that the relation is transitive. -/
theorem bind_of_trans (htrans : ∀ {m m₂ m₃}, T m m₂ → T m₂ m₃ → T m m₃) {f : α → Action β}
    (h : Leaves T act) (hf : ∀ x, Leaves T (f x)) : Leaves T (act >>= f) := by
  intro m
  have h := h m
  rw [Action.run_bind]
  cases hrun : act.run m with
  | ok x m₂ =>
    rw [hrun] at h
    exact htrans h (hf x m₂)
  | error e m₂ =>
    rw [hrun] at h
    exact h

include hT

protected theorem pure (x : α) : Leaves T (pure x) := hT.refl

protected theorem throw (e : Stop) : Leaves T (throw e : Action α) := hT.refl

theorem bind {f : α → Action β} (h : Leaves T act) (hf : ∀ x, Leaves T (f x)) :
    Leaves T (act >>= f) := bind_of_trans (T := T) hT.trans h hf

theorem asking (f : Machine → Except Stop α) : Leaves T (Action.asking f) := by
  intro m
  rw [Action.run_asking]
  cases f m with
  | ok x => exact hT.refl m
  | error e => exact hT.refl m

theorem below (h : Leaves T act) : LeavesBelow T act := fun m => hT.unpin (h m)

theorem cons (x y : Value) : Leaves T (Action.cons x y) := by
  intro m
  rw [Action.run_cons]
  split
  · exact hT.allocated m x y
  · exact hT.allocated m x y

end Rules

end Leaves

namespace LeavesBelow

variable {T : Machine → Machine → Prop} {α β : Type} {act : Action α} (hT : Frame T)

/-- Inside a pin, the pin itself may be replaced. -/
theorem pinned (h : LeavesBelow T act) (v : Value) : Leaves T (Action.pinned v act) := by
  intro m
  have h : T m (ending (act.run (m.pin v))).unpin := h (m.pin v)
  rw [Action.run_pinned]
  cases hrun : act.run (m.pin v) with
  | ok x m₂ =>
    rw [hrun] at h
    exact h
  | error e m₂ =>
    rw [hrun] at h
    exact h

include hT

theorem bind {f : α → Action β} (h : LeavesBelow T act) (hf : ∀ x, LeavesBelow T (f x)) :
    LeavesBelow T (act >>= f) :=
  Leaves.bind_of_trans (T := fun m m₂ => T m.unpin m₂.unpin) hT.trans h hf

theorem repin (v : Value) : LeavesBelow T (Action.repin v) := fun m => hT.refl m.unpin

end LeavesBelow

namespace Leaves

variable {T : Machine → Machine → Prop} {α β : Type} {act : Action α} (hT : Frame T)

include hT in
theorem pinned (v : Value) (h : Leaves T act) : Leaves T (Action.pinned v act) :=
  (h.below hT).pinned v

/-! ### The evaluator -/

section Evaluator

variable {args : Value} {scope : Scope}
include hT

theorem operand (b : Builtin) : Leaves T (Eval.operand b args) := by
  refine bind hT (asking hT _) fun o => ?_
  split
  · exact .pure hT _
  · exact .throw hT _

theorem operands (b : Builtin) : Leaves T (Eval.operands b args) := by
  refine bind hT (asking hT _) fun o => ?_
  split
  · exact .pure hT _
  · exact .throw hT _

theorem evalAtom (i : AtomId) : Leaves T (Eval.evalAtom i scope) := by
  unfold Eval.evalAtom
  split
  · exact .pure hT _
  · refine bind hT (asking hT _) fun o => ?_
    split
    · exact .pure hT _
    · exact fun m => hT.refl m

theorem recordCall (formals actuals : Value) : Leaves T (Eval.recordCall formals actuals) := by
  intro m
  show T m (ending ((if m.log.enabled .trace = true then _ else _ : Action Unit).run m))
  split
  · refine bind hT (asking hT _) (fun shown => bind hT (asking hT _) fun shown' => ?_) m
    exact fun m => hT.record m _
  · exact hT.refl m

end Evaluator

end Leaves

variable {T : Machine → Machine → Prop}

/-- Keeping a relation, as a judgement. -/
def Judgement.leaves (hT : Frame T) : Judgement where
  Holds _ act _ := Leaves T act
  Inside _ act _ := LeavesBelow T act
  IsValue _ := True
  nil := trivial
  t := trivial
  pure _ := .pure hT _
  unfinished _ := .throw hT _
  illFormed _ := .throw hT _
  notCallable _ := .bind hT (.asking hT _) fun _ => .throw hT _
  bind := .bind hT
  inside h := h.below hT
  insideBind := .bind hT
  repin := .repin hT
  pinned v h := h.pinned v
  car _ := .asking hT _
  cdr _ := .asking hT _
  operand b _ := .operand hT b
  operands b _ := .operands hT b
  parts _ := .asking hT _
  cons := .cons hT
  evalAtom i _ := .evalAtom hT i
  recordCall := .recordCall hT

/-- Evaluation keeps every relation that its steps keep. -/
theorem evalIn_leaves (hT : Frame T) (fuel : Nat) (expr : Value) (scope : Scope) :
    Leaves T (evalIn fuel expr scope) :=
  (Judgement.leaves hT).evalIn (Nat.le_refl fuel) expr scope

end ArenaLisp
