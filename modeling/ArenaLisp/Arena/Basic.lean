import ArenaLisp.Failure

/-!
# The arena of cells

An arena is a growing array of cells, at most `capacity` of them, and the list of those that a
collection has freed.  A free cell holds `Value.poison` in both slots, and `car` and `cdr` refuse to
read it.  `pair?` is the view of an arena as a partial function from cells to pairs.
-/

namespace ArenaLisp

/-- A cell: two slots, and whether the last collection reached it. -/
structure Cell where
  car : Value
  cdr : Value
  marked : Bool
  deriving DecidableEq, Repr

/-- What a free cell holds. -/
def Cell.free : Cell := ⟨.poison, .poison, false⟩

/-- What the collections of an arena have come to. -/
structure Tally where
  /-- The collections that have run. -/
  collections : Nat
  /-- The cells that they freed. -/
  reclaimed : Nat
  deriving DecidableEq, Repr

/-- The cells of a machine. -/
structure Arena where
  /-- The cells handed out so far, freed ones included. -/
  cells : Array Cell
  /-- The freed cells; the first is handed out next. -/
  free : List CellId
  /-- The number of cells that may be handed out. -/
  capacity : UInt32
  tally : Tally
  deriving DecidableEq, Repr

namespace Arena

/-- The largest number of cells that 32 bits can name. -/
def maxCapacity : Nat := 4294967295

/-- The capacity of an arena for which none is asked. -/
def defaultCapacity : UInt32 := 512

/-- An arena from which nothing has been handed out. -/
def empty (capacity : UInt32) : Arena := ⟨#[], [], capacity, ⟨0, 0⟩⟩

/-- The number of cells handed out so far, freed ones included. -/
def used (a : Arena) : Nat := a.cells.size

/-- The number of freed cells. -/
def freeCount (a : Arena) : Nat := a.free.length

/-- The number of cells handed out and not freed since. -/
def liveCount (a : Arena) : Nat := a.used - a.freeCount

/-- A slot of a cell, which must be allocated. -/
@[inline] def slot (side : Cell → Value) (a : Arena) (id : CellId) : Except Stop Value :=
  match a.cells[id.toNat]? with
  | some cell => if side cell = .poison then .error (.fault (.freeCell id)) else .ok (side cell)
  | none => .error (.fault (.freeCell id))

/-- The first slot of a pair. -/
def car : Arena → CellId → Except Stop Value := slot Cell.car

/-- The second slot of a pair. -/
def cdr : Arena → CellId → Except Stop Value := slot Cell.cdr

/-- The pair in a cell, if the cell is allocated. -/
def pair? (a : Arena) (id : CellId) : Option (Value × Value) := do
  let cell ← a.cells[id.toNat]?
  if cell.car = .poison ∨ cell.cdr = .poison then none else some (cell.car, cell.cdr)

/-! ### Short lists -/

/-- The first item of a list and the rest, if the value is a pair. -/
def uncons? (a : Arena) : Value → Except Stop (Option (Value × Value))
  | .pair id => do return some (← a.car id, ← a.cdr id)
  | _ => pure none

/-- The item of a proper list of one. -/
def one? (a : Arena) (list : Value) : Except Stop (Option Value) := do
  let some (x, rest) ← a.uncons? list | return none
  return if rest = .nil then some x else none

/-- The items of a proper list of two. -/
def two? (a : Arena) (list : Value) : Except Stop (Option (Value × Value)) := do
  let some (x, rest) ← a.uncons? list | return none
  let some y ← a.one? rest | return none
  return some (x, y)

/-- The items of a proper list of three. -/
def three? (a : Arena) (list : Value) : Except Stop (Option (Value × Value × Value)) := do
  let some (x, rest) ← a.uncons? list | return none
  let some (y, z) ← a.two? rest | return none
  return some (x, y, z)

/-! ### The view -/

theorem car_eq_ok {a : Arena} {id : CellId} {v : Value} :
    a.car id = .ok v ↔ v ≠ .poison ∧ ∃ cell, a.cells[id.toNat]? = some cell ∧ cell.car = v := by
  unfold car slot
  grind

theorem cdr_eq_ok {a : Arena} {id : CellId} {v : Value} :
    a.cdr id = .ok v ↔ v ≠ .poison ∧ ∃ cell, a.cells[id.toNat]? = some cell ∧ cell.cdr = v := by
  unfold cdr slot
  grind

/-- The view holds exactly the pairs of which both slots can be read. -/
theorem pair?_eq_some {a : Arena} {id : CellId} {x y : Value} :
    a.pair? id = some (x, y) ↔ a.car id = .ok x ∧ a.cdr id = .ok y := by
  rw [car_eq_ok, cdr_eq_ok]
  unfold pair?
  cases a.cells[id.toNat]? <;> grind

end Arena

/-- A request for more cells than there are names. -/
structure CapacityError where
  requested : Nat
  deriving DecidableEq, Repr

def CapacityError.message (e : CapacityError) : String :=
  s!"arena capacity {e.requested} exceeds {Arena.maxCapacity}"

/-- The capacity of `n` cells, if there are names for so many. -/
def Arena.capacityOf (n : Nat) : Except CapacityError UInt32 :=
  if n ≤ Arena.maxCapacity then .ok (UInt32.ofNat n) else .error ⟨n⟩

end ArenaLisp
