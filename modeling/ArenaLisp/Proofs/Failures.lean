import ArenaLisp.Proofs.Capacity
import ArenaLisp.Proofs.Completes
import ArenaLisp.Proofs.Judgement
import ArenaLisp.Proofs.Meets
import ArenaLisp.Proofs.Travels

/-!
# How evaluation can fail

An evaluation fails over a name of the lexicon, over something of the wrong shape, over an operator, which
it prints, or for lack of room (`evalIn_complains`).  A reading of the arena does not fail at all: where it
comes to a free cell, that is a fault and no failure.
-/

namespace ArenaLisp

/-- The failures that an evaluation with a lexicon can have. -/
inductive Failure.Arises (l : Lexicon) : Failure → Prop
  | unbound (i : AtomId) : Arises l (.unbound (l.name i))
  | illFormed (what : IllFormed) : Arises l (.illFormed what)
  | notCallable {a : Arena} {v : Value} {shown : String} (h : Render.render a l v = .ok shown) :
      Arises l (.notCallable shown)
  | outOfMemory : Arises l .outOfMemory

/-- A stop that is no failure at all, or one that an evaluation can have. -/
def Stop.Arises (l : Lexicon) : Stop → Prop
  | .failure why => why.Arises l
  | .fault _ => True

/-- A search in a scope only fails over the shape of the scope. -/
theorem Scope.lookupWithin_errsOnly {P : Stop → Prop} (hP : ∀ fault, P (.fault fault))
    (hscope : P (.illFormed .scope)) (a : Arena) (i : AtomId) (n : Nat) (v : Value) :
    ErrsOnly P (lookupWithin a i n v) := by
  have hcell : ∀ id, P (.fault (.freeCell id)) := fun _ => hP _
  induction n generalizing v with
  | zero => exact .error (hP _)
  | succ n ih =>
    cases v with
    | nil => exact .pure _
    | builtin _ => exact .error hscope
    | atom j =>
      rw [lookupWithin]
      split
      · exact .pure _
      · exact .error hscope
    | pair link =>
      refine (a.slot_errsOnly hcell _ link).bind fun entry => ?_
      cases entry with
      | nil | atom _ | builtin _ => exact .error hscope
      | pair entry =>
        refine (a.slot_errsOnly hcell _ entry).bind fun key => ?_
        split
        · exact (a.slot_errsOnly hcell _ entry).bind fun _ => .pure _
        · exact (a.slot_errsOnly hcell _ link).bind fun next => ih next

/-! ### The evaluator -/

/-- An action on machines with the lexicon `l`, which it leaves as it is, and whose failures are among those
of evaluation. -/
def Complains {α : Type} (l : Lexicon) (act : Action α) : Prop :=
  ∀ m : Machine, m.lexicon = l → Meets m act (fun _ m₂ => m₂.lexicon = l)
    fun e _ => e.Arises l

namespace Complains

variable {α β : Type} {l : Lexicon} {act : Action α}

protected theorem pure (x : α) : Complains l (pure x) := fun _ hm => hm

protected theorem throw {e : Stop} (h : e.Arises l) : Complains l (throw e : Action α) := fun _ _ => h

protected theorem unfinished : Complains l (throw .unfinished : Action α) := .throw trivial

protected theorem illFormed (what : IllFormed) : Complains l (throw (.illFormed what) : Action α) :=
  .throw (.illFormed what)

theorem bind {f : α → Action β} (h : Complains l act) (hf : ∀ x, Complains l (f x)) :
    Complains l (act >>= f) :=
  fun m hm => (h m hm).bind (fun x m₂ hm₂ => hf x m₂ hm₂) fun _ _ he => he

theorem asking {f : Machine → Except Stop α} (h : ∀ m, ErrsOnly (Stop.Arises l) (f m)) :
    Complains l (Action.asking f) := fun m hm => .asking (fun _ _ => hm) fun e he => h m e he

theorem pinned (v : Value) (h : Complains l act) : Complains l (Action.pinned v act) :=
  fun m hm => .pinned (h (m.pin v) hm)

theorem repin (v : Value) : Complains l (Action.repin v) := fun _ hm => hm

theorem car (id : CellId) : Complains l (Action.car id) :=
  asking fun m => m.arena.slot_errsOnly (fun _ => trivial) _ id

theorem cdr (id : CellId) : Complains l (Action.cdr id) :=
  asking fun m => m.arena.slot_errsOnly (fun _ => trivial) _ id

theorem cons (x y : Value) : Complains l (Action.cons x y) := by
  intro m hm
  refine .intro (fun v m₂ hrun => ?_) ?_
  · have hlexicon := Leaves.cons lexicon_frame x y m
    rw [hrun] at hlexicon
    exact hlexicon.trans hm
  · intro e m₂ hrun
    obtain rfl := Action.run_cons_eq_error hrun
    exact .outOfMemory

/-- Over something that cannot be called, evaluation fails with its print. -/
theorem notCallable (op : Value) :
    Complains l (do throw (.failure (.notCallable (← Action.render op))) : Action Value) := by
  intro m hm
  refine Meets.bind (Q := fun shown m₂ => m₂.lexicon = l ∧ Render.render m.arena l op = .ok shown)
    (E := fun e _ => e.Arises l) ?_ ?_ fun _ _ he => he
  · exact .asking (fun shown hshown => ⟨hm, hm ▸ hshown⟩)
      fun e he => m.render_errsOnly (fun _ => trivial) op e he
  · rintro shown m₂ ⟨-, hshown⟩
    exact .notCallable hshown

theorem operand (b : Builtin) (args : Value) : Complains l (Eval.operand b args) := by
  refine bind (asking fun m => m.arena.one?_errsOnly (fun _ => trivial) args) fun o => ?_
  split
  · exact .pure _
  · exact .illFormed _

theorem operands (b : Builtin) (args : Value) : Complains l (Eval.operands b args) := by
  refine bind (asking fun m => m.arena.two?_errsOnly (fun _ => trivial) args) fun o => ?_
  split
  · exact .pure _
  · exact .illFormed _

theorem evalAtom (i : AtomId) (scope : Scope) : Complains l (Eval.evalAtom i scope) := by
  unfold Eval.evalAtom
  split
  · exact .pure _
  · refine bind (asking fun m => ?_) fun o => ?_
    · exact Scope.lookupWithin_errsOnly (fun _ => trivial) (.illFormed _) m.arena i _ _
    split
    · exact .pure _
    · rintro m rfl
      exact .unbound i

theorem recordCall (formals actuals : Value) : Complains l (Eval.recordCall formals actuals) := by
  intro m hm
  show Meets m (if m.log.enabled .trace = true then _ else _ : Action Unit) _ _
  split
  · refine bind (asking fun m => m.render_errsOnly (fun _ => trivial) formals) (fun shown => ?_) m hm
    exact bind (asking fun m => m.render_errsOnly (fun _ => trivial) actuals) fun shown' m hm => hm
  · exact hm

end Complains

/-- Having the failures of evaluation, as a judgement. -/
def Judgement.complains (l : Lexicon) : Judgement where
  Holds _ act _ := Complains l act
  Inside _ act _ := Complains l act
  IsValue _ := True
  nil := trivial
  t := trivial
  pure _ := .pure _
  unfinished _ := .unfinished
  illFormed := .illFormed
  notCallable op := .notCallable op
  bind := .bind
  inside h := h
  insideBind := .bind
  repin := .repin
  pinned := .pinned
  car := .car
  cdr := .cdr
  operand := .operand
  operands := .operands
  parts list := .asking fun m => m.arena.three?_errsOnly (fun _ => trivial) list
  cons := .cons
  evalAtom := .evalAtom
  recordCall := .recordCall

/-- The failures of evaluation, whatever the expression and the scope. -/
theorem evalIn_complains (l : Lexicon) (fuel : Nat) (expr : Value) (scope : Scope) :
    Complains l (evalIn fuel expr scope) :=
  (Judgement.complains l).evalIn (Nat.le_refl fuel) expr scope

end ArenaLisp
