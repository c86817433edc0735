import ArenaLisp.Arena.Basic
import ArenaLisp.Lexicon

/-!
# The printed form of a value

Lists print in list notation, an improper one with its tail behind a dot, and `(quote x)` as `'x`.
What is nested too deep is cut off with dots, and so is a list that is too long, so that every value
of every arena has a printed form.  A function here puts its text in front of a text that is given.
-/

namespace ArenaLisp.Render

/-- What is nested deeper than this is cut off. -/
def maxDepth : Nat := 1000

/-- The number of elements of a list that are shown behind its first. -/
def maxTail : Nat := 10000

/-- The mark of what is cut off. -/
def ellipsis : List Char := ['.', '.', '.']

/-- The expression that a pair quotes, if it is of the form `(quote x)`. -/
def quoted? (a : Arena) (car cdr : Value) : Except Stop (Option Value) :=
  if car = .atom .quote then a.one? cdr else pure none

/-- What follows the first element of a list: at most `count` elements, the tail behind a dot if the
list is improper, and the closing parenthesis. -/
def tail (a : Arena) (element : Value → List Char → Except Stop (List Char)) :
    Nat → Value → List Char → Except Stop (List Char)
  | _, .nil, after => pure (')' :: after)
  | 0, .pair _, after => pure (' ' :: ellipsis ++ ')' :: after)
  | count + 1, .pair id, after => do
    let after ← tail a element count (← a.cdr id) after
    return ' ' :: (← element (← a.car id) after)
  | _, v, after => do return ' ' :: '.' :: ' ' :: (← element v (')' :: after))

/-- A value of which `depth` levels are shown. -/
def value (a : Arena) (lexicon : Lexicon) : Nat → Value → List Char → Except Stop (List Char)
  | 0, _, after => pure (ellipsis ++ after)
  | _ + 1, .nil, after => pure (Lexicon.nilName.toList ++ after)
  | _ + 1, .atom id, after => pure ((lexicon.name id).toList ++ after)
  | _ + 1, .builtin b, after => pure ("#<builtin ".toList ++ b.name.toList ++ '>' :: after)
  | depth + 1, .pair id, after => do
    let car ← a.car id
    let cdr ← a.cdr id
    match ← quoted? a car cdr with
    | some x => return '\x27' :: (← value a lexicon depth x after)
    | none =>
      let after ← tail a (value a lexicon depth) maxTail cdr after
      return '(' :: (← value a lexicon depth car after)

/-- The printed form of a value. -/
def render (a : Arena) (lexicon : Lexicon) (v : Value) : Except Stop String := do
  return String.ofList (← value a lexicon (maxDepth + 1) v [])

end ArenaLisp.Render
