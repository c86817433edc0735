import ArenaLisp.Arena.Alloc
import ArenaLisp.Log
import ArenaLisp.Text.Render

/-!
# The machine

A machine is an arena, a lexicon, the stack of pinned values and a log.  An action works on a
machine, which is there afterwards whether the action gave a value or stopped.  What the stack
reaches survives every collection; `pinned` puts a value on the stack for the length of an action
and takes it off however the action ends.
-/

namespace ArenaLisp

/-- The state of the interpreter. -/
structure Machine where
  arena : Arena
  lexicon : Lexicon
  /-- The pinned values, innermost first. -/
  roots : List Value
  log : Log

/-- Work on a machine. -/
abbrev Action := EStateM Stop Machine

/-- Changes the state in which a run ended. -/
@[inline] def mapState {σ α : Type} (f : σ → σ) :
    EStateM.Result Stop σ α → EStateM.Result Stop σ α
  | .ok x s => .ok x (f s)
  | .error e s => .error e (f s)

/-- Runs an action between two changes of the state, of which the second is made also when the
action stops. -/
@[inline] def bracket {σ α : Type} (enter leave : σ → σ) (act : EStateM Stop σ α) :
    EStateM Stop σ α :=
  fun s => mapState leave (act.run (enter s))

/-- What there is to record of an allocation, made while `roots` were pinned. -/
def Allocation.records (al : Allocation) (roots : List Value) : List Record :=
  let collected := al.reclaimed?.map fun reclaimed =>
    .collected al.arena.tally.collections reclaimed al.arena.capacity.toNat roots.length
  if al.cell?.isSome then collected.toList
  else collected.toList ++ [.exhausted al.arena.used roots.length]

namespace Machine

/-- A machine whose arena is empty and whose lexicon holds the fixed atoms. -/
def new (capacity : UInt32) (threshold : Option Level) : Machine :=
  ⟨.empty capacity, .initial, [], .empty threshold⟩

/-- Pins a value inside those that are pinned. -/
def pin (v : Value) (m : Machine) : Machine := { m with roots := v :: m.roots }

/-- Takes the innermost pinned value off the stack. -/
def unpin (m : Machine) : Machine := { m with roots := m.roots.tail }

/-- Replaces the innermost pinned value. -/
def repin (v : Value) (m : Machine) : Machine := { m with roots := v :: m.roots.tail }

def record (r : Record) (m : Machine) : Machine := { m with log := m.log.add r }

/-- The records so far, and the machine without them. -/
def takeRecords (m : Machine) : Array Record × Machine :=
  (m.log.records, { m with log := .empty m.log.threshold })

/-- The machine after an allocation. -/
def allocated (m : Machine) (car cdr : Value) : Machine :=
  let al := m.arena.alloc m.roots car cdr
  { m with arena := al.arena, log := (al.records m.roots).foldl Log.add m.log }

/-- The printed form of a value. -/
def render (m : Machine) (v : Value) : Except Stop String := Render.render m.arena m.lexicon v

end Machine

namespace Action

/-- Runs an action while a value is pinned. -/
@[inline] def pinned {α : Type} (v : Value) (act : Action α) : Action α :=
  bracket (Machine.pin v) Machine.unpin act

/-- Replaces the innermost pinned value. -/
@[inline] def repin (v : Value) : Action Unit := modify (Machine.repin v)

/-- What a machine shows, without a change to it. -/
@[inline] def asking {α : Type} (f : Machine → Except Stop α) : Action α := fun m =>
  match f m with
  | .ok x => .ok x m
  | .error e => .error e m

/-- What can be read from the arena. -/
@[inline] def reading {α : Type} (f : Arena → Except Stop α) : Action α := asking (f ·.arena)

/-- The first slot of a pair. -/
@[inline] def car (id : CellId) : Action Value := reading (·.car id)

/-- The second slot of a pair. -/
@[inline] def cdr (id : CellId) : Action Value := reading (·.cdr id)

/-- The printed form of a value. -/
def render (v : Value) : Action String := asking (·.render v)

/-- Allocates a pair, and records a collection and a lack of room. -/
def cons (car cdr : Value) : Action Value := fun ⟨arena, lexicon, roots, log⟩ =>
  let al := arena.alloc roots car cdr
  let log := (al.records roots).foldl Log.add log
  match al with
  | ⟨some id, arena, _⟩ => .ok (.pair id) ⟨arena, lexicon, roots, log⟩
  | ⟨none, arena, _⟩ => .error (.failure .outOfMemory) ⟨arena, lexicon, roots, log⟩

/-- The value that a spelling denotes. -/
def intern (s : String) : Action Value := fun ⟨arena, lexicon, roots, log⟩ =>
  let (v, lexicon) := lexicon.intern s
  .ok v ⟨arena, lexicon, roots, log⟩

/-! ### Runs of the basic actions -/

theorem run_pinned {α : Type} (v : Value) (act : Action α) (m : Machine) :
    (pinned v act).run m = mapState Machine.unpin (act.run (m.pin v)) := rfl

@[simp] theorem run_repin (v : Value) (m : Machine) : (repin v).run m = .ok () (m.repin v) := rfl

theorem run_asking {α : Type} (f : Machine → Except Stop α) (m : Machine) :
    (asking f).run m =
      match f m with
      | .ok x => .ok x m
      | .error e => .error e m := rfl

theorem run_reading {α : Type} (f : Arena → Except Stop α) (m : Machine) :
    (reading f).run m =
      match f m.arena with
      | .ok x => .ok x m
      | .error e => .error e m := rfl

theorem run_cons (car cdr : Value) (m : Machine) :
    (cons car cdr).run m =
      match (m.arena.alloc m.roots car cdr).cell? with
      | some id => .ok (.pair id) (m.allocated car cdr)
      | none => .error (.failure .outOfMemory) (m.allocated car cdr) := by
  cases m
  unfold cons Machine.allocated EStateM.run
  dsimp only
  split <;> simp_all

@[simp] theorem run_intern (s : String) (m : Machine) :
    (intern s).run m =
      .ok (m.lexicon.intern s).1 { m with lexicon := (m.lexicon.intern s).2 } := rfl

end Action

end ArenaLisp
