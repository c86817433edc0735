import ArenaLisp.Eval.Basic
import ArenaLisp.Text.Read

/-!
# Programs

A program is a text of expressions.  Each is evaluated before the next is read, so that no
expression waits where the collector cannot see it.  A program goes on after an expression whose
evaluation fails, but not after one that cannot be read.
-/

namespace ArenaLisp

/-- Evaluates the only expression of a text at top level. -/
def evalText (fuel : Nat) (text : String) : Action Value := do eval fuel (← Action.parse text)

/-- What became of an expression. -/
inductive Outcome where
  /-- It has a value, which prints as `text`. -/
  | value (text : String)
  /-- Its evaluation failed. -/
  | failed (why : Failure)
  /-- It could not be read. -/
  | unread (why : Failure)
  /-- It was not worked through. -/
  | broken (fault : Fault)
  deriving DecidableEq, Repr

namespace Outcome

/-- Whether the program goes on afterwards. -/
def goesOn : Outcome → Bool
  | value _ | failed _ => true
  | unread _ | broken _ => false

/-- Whether there is a value. -/
def isValue : Outcome → Bool
  | value _ => true
  | failed _ | unread _ | broken _ => false

end Outcome

/-- What became of an expression, and what was recorded meanwhile. -/
structure Report where
  records : Array Record
  outcome : Outcome
  deriving DecidableEq, Repr

namespace Program

/-- Evaluates an expression at top level and prints its value. -/
def evalRender (fuel : Nat) (expr : Value) : Action String := do
  Action.render (← eval fuel expr)

/-- Reads and evaluates the next expression, if there is one. -/
def next (fuel : Nat) (s : Reading) : Option Outcome × Reading :=
  match ReadAction.read.run s with
  | .ok none s => (none, s)
  | .error (.failure why) s => (some (.unread why), s)
  | .error (.fault fault) s => (some (.broken fault), s)
  | .ok (some expr) ⟨machine, cursor⟩ =>
    match (evalRender fuel expr).run machine with
    | .ok text machine => (some (.value text), ⟨machine, cursor⟩)
    | .error (.failure why) machine => (some (.failed why), ⟨machine, cursor⟩)
    | .error (.fault fault) machine => (some (.broken fault), ⟨machine, cursor⟩)

/-- Runs at most `count` expressions. -/
def runFirst (fuel : Nat) : Nat → Reading → List Report × Reading
  | 0, s => ([], s)
  | count + 1, s =>
    match next fuel s with
    | (none, s) => ([], s)
    | (some outcome, ⟨machine, cursor⟩) =>
      let (records, machine) := machine.takeRecords
      if outcome.goesOn then
        let (reports, s) := runFirst fuel count ⟨machine, cursor⟩
        (⟨records, outcome⟩ :: reports, s)
      else ([⟨records, outcome⟩], ⟨machine, cursor⟩)

/-- Runs a program from its present place.  It holds no more expressions than characters. -/
def run (fuel : Nat) (s : Reading) : List Report × Reading :=
  runFirst fuel (s.cursor.size + 1) s

end Program

end ArenaLisp
