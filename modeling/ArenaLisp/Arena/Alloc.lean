import ArenaLisp.Arena.Collect

/-!
# Allocation

A new pair goes into the lowest freed cell; if none is free, into the next cell that was never used;
and if all have been used, the arena is collected first.  The slots of the new pair count as roots
of that collection, so that only what is needed afterwards has to be pinned.
-/

namespace ArenaLisp

/-- What an allocation came to. -/
structure Allocation where
  /-- The cell of the new pair, if one was to be had. -/
  cell? : Option CellId
  /-- The arena afterwards. -/
  arena : Arena
  /-- The number of cells that were freed, if a collection ran. -/
  reclaimed? : Option Nat
  deriving DecidableEq, Repr

namespace Arena

/-- Puts a pair into a freed cell, which leaves the cells `free` for later. -/
def fill (a : Arena) (id : CellId) (free : List CellId) (car cdr : Value) : Arena :=
  { a with cells := a.cells.setIfInBounds id.toNat ⟨car, cdr, false⟩, free }

/-- Puts a pair into the next cell that was never used. -/
def grow (a : Arena) (car cdr : Value) : Arena :=
  { a with cells := a.cells.push ⟨car, cdr, false⟩ }

/-- Allocates a pair in an arena that has just been collected. -/
def allocFreed (a : Arena) (car cdr : Value) : Allocation :=
  match a.free with
  | id :: free => ⟨some id, a.fill id free car cdr, some (free.length + 1)⟩
  | [] => ⟨none, a, some 0⟩

/-- Allocates a pair.  If the arena has to be collected, what `roots` and the new pair reach stays
as it is. -/
def alloc (a : Arena) (roots : List Value) (car cdr : Value) : Allocation :=
  match a.free with
  | id :: free => ⟨some id, a.fill id free car cdr, none⟩
  | [] =>
    if a.used < a.capacity.toNat then ⟨some (.ofNat a.used), a.grow car cdr, none⟩
    else (a.collect (car :: cdr :: roots)).allocFreed car cdr

end Arena

end ArenaLisp
