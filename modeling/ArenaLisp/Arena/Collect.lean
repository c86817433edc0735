import ArenaLisp.Arena.Basic

/-!
# Mark and sweep

`collect roots` marks the cells that the roots reach, frees all others and lists them, lowest first.
Marking follows a queue of marked cells.  A cell enters the queue when it is marked, so the unmarked
cells and the queue together lose one with every step, in an arena with cycles too.
-/

namespace ArenaLisp

/-- Marking in progress: the cells, and the marked ones whose slots are still to be followed. -/
structure Marking where
  cells : Array Cell
  queue : List CellId

namespace Marking

/-- The number of cells that are still to be followed or may come to be. -/
def work (m : Marking) : Nat := m.cells.countP (!·.marked) + m.queue.length

/-- Marks and queues a cell, unless it is marked already. -/
def enter (m : Marking) (id : CellId) : Marking :=
  if h : id.toNat < m.cells.size then
    let cell := m.cells[id.toNat]
    if cell.marked then m
    else ⟨m.cells.set id.toNat { cell with marked := true }, id :: m.queue⟩
  else m

/-- Marks and queues the pair that a value refers to; what is no pair lives outside the arena. -/
def visit (m : Marking) : Value → Marking
  | .pair id => m.enter id
  | _ => m

/-- A cell that is marked goes over into the queue. -/
theorem work_enter (m : Marking) (id : CellId) : (m.enter id).work = m.work := by
  unfold enter
  split
  next h =>
    cases hm : m.cells[id.toNat].marked with
    | true => simp [hm]
    | false =>
      have hpos : 0 < m.cells.countP (!·.marked) :=
        Array.countP_pos_iff.mpr ⟨_, Array.getElem_mem h, by simp [hm]⟩
      simp only [hm, Bool.false_eq_true, ↓reduceIte, work, List.length_cons]
      rw [Array.countP_set]
      simp [hm]
      omega
  next => rfl

@[simp] theorem work_visit (m : Marking) (v : Value) : (m.visit v).work = m.work := by
  cases v with
  | pair id => exact m.work_enter id
  | nil | atom _ | builtin _ => rfl

/-- Follows the queue to its end. -/
def finish : Marking → Array Cell
  | ⟨cells, []⟩ => cells
  | ⟨cells, id :: queue⟩ =>
    match cells[id.toNat]? with
    | some cell => finish ((visit ⟨cells, queue⟩ cell.car).visit cell.cdr)
    | none => finish ⟨cells, queue⟩
  termination_by m => m.work
  decreasing_by
  · simp only [work_visit]
    simp [work]
  · simp [work]

end Marking

namespace Arena

/-- The cells, marked where the roots reach them and nowhere else. -/
def mark (roots : List Value) (cells : Array Cell) : Array Cell :=
  let clear := cells.map ({ · with marked := false })
  (roots.foldl Marking.visit ⟨clear, []⟩).finish

/-- The names of the cells that are not marked, lowest first. -/
def unmarked (cells : Array Cell) : List CellId :=
  (List.range cells.size).filterMap fun i =>
    if cells[i]?.any (!·.marked) then some (.ofNat i) else none

/-- Frees what is not marked. -/
def sweep (a : Arena) : Arena :=
  let free := unmarked a.cells
  { a with
    cells := a.cells.map fun cell => if cell.marked then cell else .free
    free
    tally := ⟨a.tally.collections + 1, a.tally.reclaimed + free.length⟩ }

/-- Frees what the roots do not reach. -/
def collect (a : Arena) (roots : List Value) : Arena :=
  sweep { a with cells := mark roots a.cells }

end Arena

end ArenaLisp
