import ArenaLisp.Value

/-!
# Why work stops

A program can fail in the ways that `Failure` lists: an unbound name, a list of the wrong shape, a
text that cannot be read, an arena without room.  Work can also be asked to read a cell that is not
allocated, or be cut off before it ends; neither is an answer to a program, and they are kept apart
as `Fault`.  The wording of every message stands here.
-/

namespace ArenaLisp

/-- The forms that check the shape of their operand lists. -/
inductive Form where
  | special (b : Builtin)
  | application
  deriving DecidableEq, Repr

/-- The name of a form in messages. -/
def Form.name : Form → String
  | .special b => b.name
  | .application => "closure application"

/-- The ways in which a structure can have the wrong shape. -/
inductive IllFormed where
  /-- The operands of a form are too few, too many, or no proper list. -/
  | operands (f : Form)
  /-- A slot was asked of something that is neither a pair nor `nil`. -/
  | slotOf (b : Builtin)
  /-- A scope is not a chain of bindings. -/
  | scope
  /-- A closure has too few or too many parts. -/
  | closure
  /-- A list of formals is improper, or something in it is no atom. -/
  | formals
  /-- There are more formals than actuals, or fewer. -/
  | arity
  /-- No clause of a `cond` has a true test. -/
  | noClause
  /-- A value that is no expression was to be evaluated. -/
  | expression
  deriving DecidableEq, Repr

def IllFormed.message : IllFormed → String
  | .operands f => s!"bad operands to '{f.name}'"
  | .slotOf b => s!"'{b.name}' of a non-nil atom"
  | .scope => "malformed scope"
  | .closure => "malformed closure"
  | .formals => "malformed parameter list"
  | .arity => "wrong number of arguments"
  | .noClause => "no cond clause matched"
  | .expression => "not an expression"

/-- What stands in a text where it cannot be read on. -/
inductive Obstacle where
  /-- The text ends where an expression should begin. -/
  | endOfText
  /-- A closing parenthesis stands where an expression should begin. -/
  | strayClose
  /-- A dot stands where an expression should begin. -/
  | strayDot
  /-- The text ends inside a list. -/
  | openList
  /-- No closing parenthesis follows the explicit tail of a list. -/
  | openTail
  /-- Something follows the one expression that was asked for. -/
  | surplus
  deriving DecidableEq, Repr

def Obstacle.message : Obstacle → String
  | .endOfText => "unexpected end of input"
  | .strayClose => "unexpected ')'"
  | .strayDot => "unexpected '.'"
  | .openList => "unterminated list"
  | .openTail => "expected ')' after dotted tail"
  | .surplus => "unexpected input after expression"

/-- Why a text cannot be read. -/
inductive SyntaxError where
  /-- There is no expression in it. -/
  | empty
  /-- An obstacle stands at an offset, which is counted in code points. -/
  | blocked (obstacle : Obstacle) (offset : Nat)
  deriving DecidableEq, Repr

def SyntaxError.message : SyntaxError → String
  | .empty => "empty input"
  | .blocked obstacle offset => s!"{obstacle.message} at offset {offset}"

/-- The ways in which a program can fail. -/
inductive Failure where
  /-- A name has no binding in its scope. -/
  | unbound (name : String)
  /-- Something has the wrong shape. -/
  | illFormed (what : IllFormed)
  /-- The operator, which prints as `shown`, is neither a builtin nor a closure. -/
  | notCallable (shown : String)
  /-- A text cannot be read. -/
  | unreadable (error : SyntaxError)
  /-- Every cell of the arena is in use. -/
  | outOfMemory
  deriving DecidableEq, Repr

def Failure.message : Failure → String
  | .unbound name => s!"Error: unbound symbol '{name}'"
  | .illFormed what => s!"Error: {what.message}"
  | .notCallable shown => s!"Error: not callable: {shown}"
  | .unreadable error => s!"Parse error: {error.message}"
  | .outOfMemory => "Error: out of memory"

/-- What is no answer to a program. -/
inductive Fault where
  /-- A cell was to be read that is not allocated. -/
  | freeCell (id : CellId)
  /-- The work was cut off before its end. -/
  | unfinished
  deriving DecidableEq, Repr

def Fault.message : Fault → String
  | .freeCell id => s!"read of freed cell {id.index}"
  | .unfinished => "evaluation was cut off"

/-- Why work stopped without a value. -/
inductive Stop where
  | failure (f : Failure)
  | fault (f : Fault)
  deriving DecidableEq, Repr

namespace Stop

def message : Stop → String
  | failure f => f.message
  | fault f => f.message

/-- The stop at something of the wrong shape. -/
def illFormed (what : IllFormed) : Stop := failure (.illFormed what)

/-- The stop at a special form whose operands have the wrong shape. -/
def badOperands (b : Builtin) : Stop := illFormed (.operands (.special b))

/-- The stop of work that was cut off. -/
def unfinished : Stop := fault .unfinished

end Stop

end ArenaLisp
