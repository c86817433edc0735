import ArenaLisp.Machine
import ArenaLisp.Text.Cursor

/-!
# Reading expressions

An expression is an atom, a quoted expression or a list.  Reading goes through a text from left to
right and builds the expression in the arena of a machine.  The elements of a list that have been
read are pinned while the others are, so that the arena can be collected in the middle of an
expression.
-/

namespace ArenaLisp

/-- A machine, and the place from which it reads. -/
structure Reading where
  machine : Machine
  cursor : Cursor

/-- Work on a machine and a text. -/
abbrev ReadAction := EStateM Stop Reading

namespace ReadAction

/-- Works on the machine alone. -/
@[inline] def onMachine {α : Type} (act : Action α) : ReadAction α := fun ⟨machine, cursor⟩ =>
  match act.run machine with
  | .ok x machine => .ok x ⟨machine, cursor⟩
  | .error e machine => .error e ⟨machine, cursor⟩

/-- Runs an action while a value is pinned. -/
@[inline] def pinned {α : Type} (v : Value) (act : ReadAction α) : ReadAction α :=
  bracket (fun ⟨m, c⟩ => ⟨m.pin v, c⟩) (fun ⟨m, c⟩ => ⟨m.unpin, c⟩) act

@[inline] def move (f : Cursor → Cursor) : ReadAction Unit := modify fun ⟨m, c⟩ => ⟨m, f c⟩

/-- The character that comes next. -/
@[inline] def peek? : ReadAction (Option Char) := do return (← get).cursor.peek?

/-- Goes past the next character. -/
@[inline] def skip : ReadAction Unit := move Cursor.next

@[inline] def skipBlanks : ReadAction Unit := move (·.dropWhile isBlank)

/-- Stops at an obstacle. -/
@[inline] def blocked {α : Type} (obstacle : Obstacle) : ReadAction α := do
  throw (.failure (.unreadable (.blocked obstacle (← get).cursor.pos)))

theorem run_onMachine {α : Type} (act : Action α) (s : Reading) :
    (onMachine act).run s =
      match act.run s.machine with
      | .ok x machine => .ok x ⟨machine, s.cursor⟩
      | .error e machine => .error e ⟨machine, s.cursor⟩ := rfl

theorem run_pinned {α : Type} (v : Value) (act : ReadAction α) (s : Reading) :
    (pinned v act).run s =
      mapState (fun s => ⟨s.machine.unpin, s.cursor⟩) (act.run ⟨s.machine.pin v, s.cursor⟩) := rfl

@[simp] theorem run_move (f : Cursor → Cursor) (s : Reading) :
    (move f).run s = .ok () ⟨s.machine, f s.cursor⟩ := rfl

@[simp] theorem run_peek? (s : Reading) : peek?.run s = .ok s.cursor.peek? s := rfl

@[simp] theorem run_blocked {α : Type} (obstacle : Obstacle) (s : Reading) :
    (blocked obstacle : ReadAction α).run s =
      .error (.failure (.unreadable (.blocked obstacle s.cursor.pos))) s := rfl

/-- Reads an atom. -/
def atom : ReadAction Value := do
  let name := (← get).cursor.takeWhile (!isDelimiter ·)
  move (·.dropWhile (!isDelimiter ·))
  onMachine (Action.intern (String.ofList name))

/-- Builds `(quote expr)`. -/
def quote (expr : Value) : Action Value := do
  let operand ← Action.cons expr .nil
  Action.cons (.atom .quote) operand

mutual

/-- Reads an expression that is nested less than `fuel` deep. -/
def expr : Nat → ReadAction Value
  | 0 => throw .unfinished
  | fuel + 1 => do
    skipBlanks
    match ← peek? with
    | none => blocked .endOfText
    | some ')' => blocked .strayClose
    | some '.' => blocked .strayDot
    | some '(' => do
      skip
      items fuel
    | some '\x27' => do
      skip
      let e ← expr fuel
      onMachine (quote e)
    | some _ => atom

/-- Reads what follows the opening parenthesis or an element of a list. -/
def items : Nat → ReadAction Value
  | 0 => throw .unfinished
  | fuel + 1 => do
    skipBlanks
    match ← peek? with
    | none => blocked .openList
    | some ')' => do
      skip
      return .nil
    | some _ => do
      let head ← expr fuel
      let tail ← pinned head do
        skipBlanks
        if (← peek?) = some '.' then
          skip
          let tail ← expr fuel
          skipBlanks
          unless (← peek?) = some ')' do blocked .openTail
          skip
          return tail
        else items fuel
      onMachine (Action.cons head tail)

end

/-- Whether only blanks are left; they are skipped. -/
def atEnd : ReadAction Bool := do
  skipBlanks
  return (← peek?).isNone

/-- Reads the next expression, if there is one.  Of any two nested steps one takes a character,
which bounds their depth. -/
def read : ReadAction (Option Value) := do
  if ← atEnd then return none
  return some (← expr (2 * (← get).cursor.size + 2))

/-- Reads the only expression of a text. -/
def readOnly : ReadAction Value := do
  match ← read with
  | none => throw (.failure (.unreadable .empty))
  | some v =>
    unless ← atEnd do blocked .surplus
    return v

end ReadAction

namespace Action

/-- Reads the only expression of a text. -/
def parse (text : String) : Action Value := fun m =>
  match ReadAction.readOnly.run ⟨m, .ofString text⟩ with
  | .ok v s => .ok v s.machine
  | .error e s => .error e s.machine

end Action

end ArenaLisp
