import ArenaLisp.Proofs.Clean
import ArenaLisp.Proofs.Judgement
import ArenaLisp.Proofs.Meets

/-!
# What evaluation gives

A reading never gives poison, and so evaluation does not either (`evalIn_yields`), whatever machine it is
done in and whatever expression and scope it is given.
-/

namespace ArenaLisp

/-- An action whose value has a property, whatever machine it runs on. -/
def Yields {α : Type} (P : α → Prop) (act : Action α) : Prop :=
  ∀ m, Meets m act (fun x _ => P x) fun _ _ => True

/-- A value that is not what free cells hold. -/
def Value.Real (v : Value) : Prop := v ≠ .poison

theorem Value.real_builtin (b : Builtin) : (Value.builtin b).Real := nofun

namespace Yields

variable {α β : Type} {P : α → Prop} {Q : β → Prop} {act : Action α}

protected theorem pure {x : α} (h : P x) : Yields P (pure x) := fun _ => h

protected theorem throw (e : Stop) : Yields P (throw e : Action α) := fun _ => trivial

theorem bind {f : α → Action β} (h : Yields P act) (hf : ∀ x, P x → Yields Q (f x)) :
    Yields Q (act >>= f) :=
  fun m => (h m).bind (fun x m₂ hx => hf x hx m₂) fun _ _ _ => trivial

/-- Of an action of which nothing is asked, nothing has to be known. -/
protected theorem any (act : Action α) : Yields (fun _ => True) act :=
  fun _ => .intro (fun _ _ _ => trivial) fun _ _ _ => trivial

/-- Only the last of several actions matters. -/
theorem last {f : α → Action β} (hf : ∀ x, Yields Q (f x)) : Yields Q (act >>= f) :=
  bind (.any act) fun x _ => hf x

theorem asking {f : Machine → Except Stop α} (h : ∀ m x, f m = .ok x → P x) :
    Yields P (Action.asking f) :=
  fun m => .asking (h m) fun _ _ => trivial

theorem pinned (v : Value) (h : Yields P act) : Yields P (Action.pinned v act) :=
  fun m => .pinned (h (m.pin v))

end Yields

/-! ### Readings -/

namespace Arena

variable {a : Arena} {id : CellId} {v x : Value} {i : AtomId}

theorem real_of_car (h : a.car id = .ok x) : x.Real := (car_eq_ok.mp h).1

theorem real_of_cdr (h : a.cdr id = .ok x) : x.Real := (cdr_eq_ok.mp h).1

theorem real_of_one? (h : a.one? v = .ok (some x)) : x.Real := by
  obtain ⟨o, ho, h⟩ := exists_of_bind_eq_ok h
  cases o with
  | none => cases h
  | some p =>
    cases v with
    | nil | atom _ | builtin _ => cases ho
    | pair id =>
      obtain ⟨c, hcar, ho⟩ := exists_of_bind_eq_ok ho
      obtain ⟨d, -, ho⟩ := exists_of_bind_eq_ok ho
      cases ho
      dsimp only at h
      split at h
      · cases h
        exact real_of_car hcar
      · cases h

theorem real_of_lookup {n : Nat} (h : Scope.lookupWithin a i n v = .ok (some x)) : x.Real := by
  induction n generalizing v with
  | zero => cases h
  | succ n ih =>
    cases v with
    | nil | builtin _ => cases h
    | atom j =>
      rw [Scope.lookupWithin] at h
      split at h
      · obtain ⟨b, -, rfl⟩ := Option.map_eq_some_iff.mp (Except.ok.inj h)
        exact Value.real_builtin b
      · cases h
    | pair link =>
      obtain ⟨entry, -, h⟩ := exists_of_bind_eq_ok h
      cases entry with
      | nil | atom _ | builtin _ => cases h
      | pair entry =>
        obtain ⟨key, -, h⟩ := exists_of_bind_eq_ok h
        split at h
        · obtain ⟨value, hvalue, h⟩ := exists_of_bind_eq_ok h
          cases h
          exact real_of_cdr hvalue
        · obtain ⟨next, -, h⟩ := exists_of_bind_eq_ok h
          exact ih h

end Arena

/-! ### The evaluator -/

namespace Yields

theorem cons (x y : Value) : Yields Value.Real (Action.cons x y) := by
  intro m
  unfold Meets
  rw [Action.run_cons]
  cases (m.arena.alloc m.roots x y).cell? with
  | none => trivial
  | some id => exact nofun

theorem evalAtom (i : AtomId) (scope : Scope) : Yields Value.Real (Eval.evalAtom i scope) := by
  unfold Eval.evalAtom
  split
  · exact .pure (by decide : Value.atom .t ≠ .poison)
  · refine bind (asking (P := fun o => ∀ v, o = some v → v.Real) ?_) fun o ho => ?_
    · rintro m o ho v rfl
      exact Arena.real_of_lookup ho
    · split
      · exact .pure (ho _ rfl)
      · exact last fun _ => .throw _

theorem operand (b : Builtin) (args : Value) : Yields Value.Real (Eval.operand b args) := by
  refine bind (asking (P := fun o => ∀ v, o = some v → v.Real) ?_) fun o ho => ?_
  · rintro m o ho v rfl
    exact Arena.real_of_one? ho
  · split
    · exact .pure (ho _ rfl)
    · exact .throw _

end Yields

/-- Giving a value that is real, as a judgement. -/
def Judgement.yields : Judgement where
  Holds P act _ := Yields P act
  Inside P act _ := Yields P act
  IsValue := Value.Real
  nil := nofun
  t := (by decide : Value.atom .t ≠ .poison)
  pure := .pure
  unfinished _ := .throw _
  illFormed _ := .throw _
  notCallable _ := .last fun _ => .throw _
  bind _ := .last
  inside h := h
  insideBind _ := .last
  repin _ := .any _
  pinned := .pinned
  car _ := .asking fun _ _ => Arena.real_of_car
  cdr _ := .asking fun _ _ => Arena.real_of_cdr
  operand := .operand
  operands _ _ := .any _
  parts _ := .any _
  cons := .cons
  evalAtom := .evalAtom
  recordCall _ _ := .any _

/-- Evaluation does not give poison. -/
theorem evalIn_yields (fuel : Nat) (expr : Value) (scope : Scope) :
    Yields Value.Real (evalIn fuel expr scope) :=
  Judgement.yields.evalIn (Nat.le_refl fuel) expr scope

end ArenaLisp
