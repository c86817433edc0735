import ArenaLisp.Proofs.InStep
import ArenaLisp.Proofs.Judgement

/-!
# Work that is cut off

`Cuts act act'` says that the first action does what the second does, unless it is cut off before its
end.  As a judgement of two evaluators (`Judgement.cuts`) it holds of evaluation within a smaller bound and
within a greater one.  Hence a bound that is large enough is as good as any greater one (`evalIn_mono`).
-/

namespace ArenaLisp

/-- The same work, unless the first is cut off. -/
def Cuts {α : Type} (act act' : Action α) : Prop :=
  ∀ m, act.run m = act'.run m ∨ ∃ m', act.run m = .error .unfinished m'

namespace Cuts

variable {α β : Type} {act act' : Action α}

theorem refl (act : Action α) : Cuts act act := fun _ => .inl rfl

theorem unfinished (act : Action α) : Cuts (throw .unfinished) act := fun m => .inr ⟨m, rfl⟩

theorem bind {f f' : α → Action β} (h : Cuts act act') (hf : ∀ x, Cuts (f x) (f' x)) :
    Cuts (act >>= f) (act' >>= f') := by
  intro m
  rw [Action.run_bind, Action.run_bind]
  rcases h m with h | ⟨m', h⟩
  · rw [h]
    cases act'.run m with
    | ok x m₂ => exact hf x m₂
    | error e m₂ => exact .inl rfl
  · rw [h]
    exact .inr ⟨m', rfl⟩

/-- The same work done before work of which one is cut off. -/
theorem bind_left {f f' : α → Action β} (hf : ∀ x, Cuts (f x) (f' x)) :
    Cuts (act >>= f) (act >>= f') := (refl act).bind hf

theorem pinned (v : Value) (h : Cuts act act') :
    Cuts (Action.pinned v act) (Action.pinned v act') := by
  intro m
  rw [Action.run_pinned, Action.run_pinned]
  rcases h (m.pin v) with h | ⟨m', h⟩
  · exact .inl (by rw [h])
  · exact .inr ⟨m'.unpin, by rw [h]; rfl⟩

end Cuts

/-- Being cut off, as a judgement of two evaluators. -/
def Judgement.cuts : Judgement where
  Holds _ act act' := Cuts act act'
  Inside _ act act' := Cuts act act'
  IsValue _ := True
  nil := trivial
  t := trivial
  pure _ := .refl _
  unfinished := .unfinished
  illFormed _ := .refl _
  notCallable _ := .refl _
  bind := .bind
  inside h := h
  insideBind := .bind
  repin _ := .refl _
  pinned := .pinned
  car _ := .refl _
  cdr _ := .refl _
  operand _ _ := .refl _
  operands _ _ := .refl _
  parts _ := .refl _
  cons _ _ := .refl _
  evalAtom _ _ := .refl _
  recordCall _ _ := .refl _

variable {fuel fuel' : Nat} {expr : Value} {scope : Scope} {m : Machine}

/-- An evaluation with a smaller bound cuts off one with a greater bound. -/
theorem evalIn_cuts (hfuel : fuel ≤ fuel') (expr : Value) (scope : Scope) :
    Cuts (evalIn fuel expr scope) (evalIn fuel' expr scope) :=
  Judgement.cuts.evalIn hfuel expr scope

/-- What ends within a bound ends alike within every greater one. -/
theorem evalIn_mono (hfuel : fuel ≤ fuel')
    (h : ∀ m', (evalIn fuel expr scope).run m ≠ .error .unfinished m') :
    (evalIn fuel' expr scope).run m = (evalIn fuel expr scope).run m := by
  rcases evalIn_cuts hfuel expr scope m with heq | ⟨m', hcut⟩
  · exact heq.symm
  · exact absurd hcut (h m')

end ArenaLisp
