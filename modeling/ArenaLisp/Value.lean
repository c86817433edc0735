/-!
# Values: nil, atoms, pairs and builtins

A value is an immediate (`nil`, an atom, a builtin) or a reference to a pair, which lives in a cell
of the arena.  Atoms and cells are named by 32-bit numbers: an atom by its place in the table of
spellings, a cell by its slot in the arena.  Some atoms have a fixed place, given here.
-/

namespace ArenaLisp

/-- The identity of an atom: its place in the table of spellings. -/
structure AtomId where
  index : UInt32
  deriving DecidableEq, Hashable, Repr

/-- The identity of a pair: the slot of the arena that holds it. -/
structure CellId where
  index : UInt32
  deriving DecidableEq, Hashable, Repr

/-- The slot as a position in the arena. -/
abbrev CellId.toNat (id : CellId) : Nat := id.index.toNat

/-- The slot at position `n`, for an `n` below `2 ^ 32`. -/
abbrev CellId.ofNat (n : Nat) : CellId := ⟨UInt32.ofNat n⟩

namespace AtomId

/-- The true value, which evaluates to itself. -/
def t : AtomId := ⟨0⟩

/-- The head of every closure. -/
def closure : AtomId := ⟨1⟩

/-- The head of a quoted expression. -/
def quote : AtomId := ⟨2⟩

/-- The end of the top-level scope.  No spelling denotes it. -/
def topLevel : AtomId := ⟨10⟩

end AtomId

/-- The special forms.  Each receives its operands unevaluated. -/
inductive Builtin where
  | cond | lambda | eq | cons | car | cdr | quote | letIn
  deriving DecidableEq, Hashable, Repr

namespace Builtin

/-- All builtins in the order in which the top level binds them, outermost first. -/
def all : List Builtin := [cond, lambda, eq, cons, car, cdr, quote, letIn]

/-- The spelling that names the builtin at top level. -/
def name : Builtin → String
  | cond => "cond"
  | lambda => "lambda"
  | eq => "eq"
  | cons => "cons"
  | car => "car"
  | cdr => "cdr"
  | quote => "quote"
  | letIn => "let"

/-- The atom that names the builtin at top level. -/
def atom : Builtin → AtomId
  | cond => ⟨3⟩
  | lambda => ⟨4⟩
  | eq => ⟨5⟩
  | cons => ⟨6⟩
  | car => ⟨7⟩
  | cdr => ⟨8⟩
  | quote => AtomId.quote
  | letIn => ⟨9⟩

/-- The builtin that `ident` names at top level, innermost binding first. -/
def ofAtom? (ident : AtomId) : Option Builtin :=
  all.reverse.find? (·.atom == ident)

theorem mem_all (b : Builtin) : b ∈ all := by
  cases b <;> decide

/-- Each builtin is found under its own atom. -/
@[simp] theorem ofAtom?_atom (b : Builtin) : ofAtom? b.atom = some b := by
  cases b <;> decide

theorem ofAtom?_eq_some {ident : AtomId} {b : Builtin} (h : ofAtom? ident = some b) :
    b.atom = ident := by
  have := List.find?_some h
  simpa using this

theorem atom_injective {b c : Builtin} (h : b.atom = c.atom) : b = c :=
  Option.some.inj (by rw [← ofAtom?_atom b, h, ofAtom?_atom])

end Builtin

/-- A value: an immediate, or a reference to a pair in the arena. -/
inductive Value where
  | nil
  | atom (id : AtomId)
  | pair (id : CellId)
  | builtin (b : Builtin)
  deriving DecidableEq, Hashable, Repr

namespace Value

/-- The content of both slots of a free cell: an atom far beyond the spellings in use. -/
def poison : Value := .atom ⟨0xCCCCCCCC⟩

/-- Truth as a value. -/
def ofBool (b : Bool) : Value := if b then .atom .t else .nil

def isNil : Value → Bool
  | .nil => true
  | _ => false

/-- Whether the value is `nil` or an atom, and so can be a bound identifier. -/
def isAtom : Value → Bool
  | .nil | .atom _ => true
  | _ => false

def isPair : Value → Bool
  | .pair _ => true
  | _ => false

/-- The text that shows what a value is made of, slot and atom numbers included. -/
def inspect : Value → String
  | .nil => "Nil"
  | .atom id => s!"Atom({id.index})"
  | .pair id => s!"Pair({id.index})"
  | .builtin b => s!"Builtin({b.name})"

@[simp] theorem isNil_iff {v : Value} : v.isNil = true ↔ v = .nil := by
  cases v <;> simp [isNil]

end Value

end ArenaLisp
