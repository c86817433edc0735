import ArenaLisp.Arena.Basic

/-!
# Equality of trees

Two values are the same tree if they agree in shape and in their leaves, whatever cells hold them.
The comparison keeps the pairs of values that are still to be compared on a stack, and goes on until the
stack is empty or two values differ (`comparePending`).  Its turns are as many as the trees have nodes,
which no number of cells bounds.  The paths down the trees are bounded: one longer than there are pairs of
cells has met the same pair twice, and from there the comparison would go round for ever.  So `sameTree`
goes down both values at once, along paths of that length at most.
-/

namespace ArenaLisp.Arena

/-- Compares the values of each pair on a stack, in so many turns at most.  Two cells that differ are
replaced by what their slots hold, first slots on top. -/
def comparePending (a : Arena) : Nat → List (Value × Value) → Except Stop Bool
  | _, [] => pure true
  | 0, _ :: _ => .error .unfinished
  | turns + 1, (.pair p, .pair q) :: pending =>
    if p = q then a.comparePending turns pending
    else do
      let rest := (← a.cdr p, ← a.cdr q)
      let first := (← a.car p, ← a.car q)
      a.comparePending turns (first :: rest :: pending)
  | turns + 1, (x, y) :: pending => if x = y then a.comparePending turns pending else pure false

/-- Compares two values along paths of fewer than `length` pairs. -/
def sameTreeWithin (a : Arena) : Nat → Value → Value → Except Stop Bool
  | 0, _, _ => .error .unfinished
  | length + 1, .pair p, .pair q =>
    if p = q then pure true
    else do
      if ← a.sameTreeWithin length (← a.car p) (← a.car q) then
        a.sameTreeWithin length (← a.cdr p) (← a.cdr q)
      else pure false
  | _ + 1, x, y => pure (x == y)

/-- Whether two values are the same tree. -/
def sameTree (a : Arena) (x y : Value) : Except Stop Bool :=
  a.sameTreeWithin (a.used * a.used + 1) x y

end ArenaLisp.Arena
