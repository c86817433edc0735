/-!
# Control functions in a text

A terminal does not show every character that it is sent.  A control character stands for a control
function, and so does a sequence of characters that begins with an escape.  `Controls.strip` leaves
the characters that are shown: never any that were not there (`visible_sublist`), and all of them if
none is a control character (`visible_of_all`).
-/

namespace ArenaLisp.Controls

/-- How far a sequence has come. -/
inductive Sequence where
  /-- Only the escape was read. -/
  | escape
  /-- An escape sequence with intermediate characters. -/
  | intermediate
  /-- A control sequence: an escape, a bracket and parameters. -/
  | control
  /-- A device control string of which nothing more was read. -/
  | deviceStart
  /-- A device control string with parameters. -/
  | deviceParameters
  /-- A device control string with intermediate characters. -/
  | deviceIntermediate
  /-- The text of a string. -/
  | text
  /-- The text of an operating system command. -/
  | command
  deriving DecidableEq, Repr

/-- What is known of the characters so far. -/
inductive State where
  /-- Characters are shown.  A white-space control may have suspended a sequence. -/
  | outside (suspended : Option Sequence)
  /-- Characters belong to a sequence. -/
  | inside (s : Sequence)
  deriving DecidableEq, Repr

/-- The control characters that are shown, since they move on in the text. -/
def isSpacing (c : Char) : Bool := c == '\t' || c == '\n' || c == '\x0c' || c == '\r'

/-- The characters that are no control characters. -/
def isGraphic (c : Char) : Bool := ' ' ≤ c && c != '\x7f'

def isIntermediate (c : Char) : Bool := ' ' ≤ c && c ≤ '/'

def isParameter (c : Char) : Bool := '0' ≤ c && c ≤ '?'

def isFinal (c : Char) : Bool := '@' ≤ c && c ≤ '~'

/-- Whether a character ends the text of a string: if one of its bytes is the terminator. -/
def endsText (c : Char) : Bool := (String.utf8EncodeChar c).contains 0x9c

namespace Sequence

/-- How far a sequence has come with one more character; nothing if it ends there. -/
def next : Sequence → Char → Option Sequence
  | escape, '[' => some control
  | escape, ']' => some command
  | escape, 'P' => some deviceStart
  | escape, 'X' | escape, '^' | escape, '_' => some text
  | escape, c =>
    if isIntermediate c then some intermediate
    else if isParameter c || isFinal c then none else some escape
  | intermediate, c => if isParameter c || isFinal c then none else some intermediate
  | control, c => if isFinal c then none else some control
  | deviceStart, c =>
    if isIntermediate c then some deviceIntermediate
    else if isParameter c then some deviceParameters
    else if isFinal c then some text else some deviceStart
  | deviceParameters, c =>
    if isIntermediate c then some deviceIntermediate
    else if '<' ≤ c && c ≤ '~' then some text else some deviceParameters
  | deviceIntermediate, c =>
    if isParameter c || isFinal c then some text else some deviceIntermediate
  | text, c => if endsText c then none else some text
  | command, c => if c == '\x07' then none else some command

/-- Whether a white-space control is shown within a sequence, which it suspends. -/
def suspends : Sequence → Bool
  | escape | intermediate | control => true
  | _ => false

end Sequence

namespace State

/-- The state of a text at its beginning. -/
def start : State := .outside none

/-- Inside a sequence if there is one. -/
def ofSequence : Option Sequence → State
  | some s => .inside s
  | none => .start

/-- Takes in a character; whether it is shown is told beside the new state.  An escape begins a
sequence, a cancel or a substitute ends one, and a suspended one goes on with the next control
character unless a character beyond the seven-bit code comes first. -/
def step (state : State) (c : Char) : State × Bool :=
  if c == '\x1b' then (.inside .escape, false)
  else if c == '\x18' || c == '\x1a' then (.start, false)
  else match state with
    | .outside suspended =>
      if '\x80' ≤ c then (.start, true)
      else if isSpacing c || isGraphic c then (state, true)
      else (ofSequence suspended, false)
    | .inside s =>
      if isSpacing c && s.suspends then (.outside (some s), true)
      else (ofSequence (s.next c), false)

end State

/-- The characters that are shown of a text. -/
def visible : State → List Char → List Char
  | _, [] => []
  | state, c :: rest =>
    match state.step c with
    | (state, true) => c :: visible state rest
    | (state, false) => visible state rest

/-- A text without what is not shown of it. -/
def strip (s : String) : String := String.ofList (visible .start s.toList)

theorem visible_sublist (state : State) (cs : List Char) : (visible state cs).Sublist cs := by
  induction cs generalizing state with
  | nil => exact List.Sublist.slnil
  | cons c rest ih =>
    rw [visible]
    split
    · exact (ih _).cons_cons c
    · exact (ih _).cons c

theorem step_start {c : Char} (h : isSpacing c || isGraphic c) :
    State.start.step c = (.start, true) := by
  have escape : c ≠ '\x1b' := by rintro rfl; exact absurd h (by decide)
  have cancel : c ≠ '\x18' := by rintro rfl; exact absurd h (by decide)
  have substitute : c ≠ '\x1a' := by rintro rfl; exact absurd h (by decide)
  simp [State.step, State.start, escape, cancel, substitute, h]

theorem visible_of_all {cs : List Char} (h : cs.all fun c => isSpacing c || isGraphic c) :
    visible .start cs = cs := by
  induction cs with
  | nil => rfl
  | cons c rest ih =>
    rw [List.all_cons, Bool.and_eq_true] at h
    rw [visible, step_start h.1]
    exact congrArg (c :: ·) (ih h.2)

end ArenaLisp.Controls
