import ArenaLisp.Proofs.History
import ArenaLisp.Proofs.TreeViews

/-!
# Sessions with a machine

A caller has work done by a machine and pins values meanwhile.  All work leaves the root stack as it
was, entry by entry and however it ends, on every machine; so between two commands the stack is what
the caller holds (`roots_balanced`).  On a well-formed machine no work changes a pinned cell, so that a
pinned value stands for the same tree in the same cells for as long as it is pinned
(`pinned_immutable`).
-/

namespace ArenaLisp

/-- Work that a machine can be asked to do. -/
inductive Operation where
  | cons (car cdr : Value)
  | parse (text : String)
  | read (c : Cursor)
  | evalText (fuel : Nat) (text : String)
  | evalIn (fuel : Nat) (expr : Value) (scope : Scope)

/-- The machine after an operation, whether it gave a value or stopped. -/
def Operation.run (m : Machine) : Operation → Machine
  | cons x y => ending ((Action.cons x y).run m)
  | parse text => ending ((Action.parse text).run m)
  | read c => (ending (ReadAction.read.run ⟨m, c⟩)).machine
  | evalText fuel text => ending ((ArenaLisp.evalText fuel text).run m)
  | evalIn fuel expr scope => ending ((ArenaLisp.evalIn fuel expr scope).run m)

/-- What a caller does with a machine. -/
inductive Command where
  | work (op : Operation)
  | pin (v : Value)
  | unpin
  | repin (v : Value)

/-- The machine after a command. -/
def Command.run (m : Machine) : Command → Machine
  | work op => op.run m
  | pin v => m.pin v
  | unpin => m.unpin
  | repin v => m.repin v

/-- The values that the caller holds pinned after a command, innermost first. -/
def Command.hold (held : List Value) : Command → List Value
  | work _ => held
  | pin v => v :: held
  | unpin => held.tail
  | repin v => v :: held.tail

/-- The machine after a session. -/
def Machine.after (m : Machine) (cs : List Command) : Machine := cs.foldl Command.run m

/-! ### The root stack -/

/-- What all steps of an operation keep, the operation keeps. -/
theorem Operation.run_leaves {T : Machine → Machine → Prop} (hT : Frame T)
    (hintern : ∀ m s, T m { m with lexicon := (m.lexicon.intern s).2 }) (m : Machine)
    (op : Operation) : T m (op.run m) := by
  cases op with
  | cons x y => exact Leaves.cons hT x y m
  | parse text => exact Leaves.parse hT hintern text m
  | read c =>
    rw [run, ReadAction.machine_ending]
    exact Leaves.read hT hintern c m
  | evalText fuel text =>
    exact Leaves.bind hT (.parse hT hintern text) (fun _ => evalIn_leaves hT _ _ _) m
  | evalIn fuel expr scope => exact evalIn_leaves hT fuel expr scope m

theorem Machine.roots_frame : Frame fun m m₂ => m₂.roots = m.roots where
  refl _ := rfl
  trans h h' := h'.trans h
  allocated _ _ _ := rfl
  record _ _ := rfl
  unpin h := congrArg List.tail h

/-- An operation leaves the root stack as it was. -/
theorem Operation.roots_run (m : Machine) (op : Operation) : (op.run m).roots = m.roots :=
  op.run_leaves Machine.roots_frame (fun _ _ => rfl) m

theorem Command.roots_run (m : Machine) (c : Command) : (c.run m).roots = c.hold m.roots := by
  cases c with
  | work op => exact op.roots_run m
  | pin v | repin v => rfl
  | unpin => rfl

/-- However an operation ends, the root stack is what it was; so between two commands it holds what the
caller has pinned and not taken off since, each value replaced by the one it was last repinned with. -/
theorem roots_balanced (m : Machine) :
    (∀ op : Operation, (op.run m).roots = m.roots) ∧
      ∀ cs : List Command, (m.after cs).roots = cs.foldl Command.hold m.roots := by
  refine ⟨fun op => op.roots_run m, fun cs => ?_⟩
  induction cs generalizing m with
  | nil => rfl
  | cons c cs ih =>
    show ((c.run m).after cs).roots = cs.foldl Command.hold (c.hold m.roots)
    rw [ih, c.roots_run]

/-! ### Pinned data -/

/-- Whether what an operation is handed can be handed to it: values do not dangle, and a scope is
pinned or an immediate. -/
def Operation.Fits (m : Machine) : Operation → Prop
  | cons x y => ¬ m.arena.Dangling x ∧ ¬ m.arena.Dangling y
  | parse _ | read _ | evalText _ _ => True
  | evalIn _ expr scope => ¬ m.arena.Dangling expr ∧ m.Holds scope.value

/-- Whether nothing dangles that a command is handed. -/
def Command.Fits (m : Machine) : Command → Prop
  | work op => op.Fits m
  | pin v | repin v => ¬ m.arena.Dangling v
  | unpin => True

/-- Whether a session never lets go of a value, and nothing dangles that it hands to the machine. -/
def Machine.HoldsThroughout (v : Value) : Machine → List Command → Prop
  | m, [] => m.Holds v
  | m, c :: cs => m.Holds v ∧ c.Fits m ∧ (c.run m).HoldsThroughout v cs

variable {m : Machine} {op : Operation} {c : Command} {cs : List Command} {v : Value}

/-- An operation leaves the pinned cells as they were. -/
theorem Operation.keeps_run (hm : m.Coherent) (h : op.Fits m) : m.Keeps (op.run m) := by
  cases op with
  | cons x y => exact hm.keeps_cons h.1 h.2
  | parse text => exact hm.keeps_parse text
  | read c => exact hm.keeps_read c
  | evalText fuel text => exact hm.keeps_evalText fuel text
  | evalIn fuel expr scope =>
    have hkeeps := evalIn_keeps fuel hm h.1 h.2
    rw [run]
    split at hkeeps <;> rename_i hrun <;> rw [hrun]
    · exact hkeeps.1
    · exact hkeeps

/-- So does a command, whatever it does to the root stack. -/
theorem Command.keeps_run (hm : m.Coherent) (h : c.Fits m) :
    (c.run m).Coherent ∧ ∀ id, m.Pinned id → (c.run m).arena.graph id = m.arena.graph id := by
  cases c with
  | work op =>
    have hkeeps := op.keeps_run hm h
    exact ⟨hkeeps.coherent, hkeeps.graph⟩
  | pin v => exact ⟨hm.pin h, fun _ _ => rfl⟩
  | unpin => exact ⟨hm.unpin, fun _ _ => rfl⟩
  | repin v => exact ⟨hm.unpin.pin h, fun _ _ => rfl⟩

namespace Machine.HoldsThroughout

theorem holds (h : m.HoldsThroughout v cs) : m.Holds v := by
  cases cs with
  | nil => exact h
  | cons c cs => exact h.1

/-- The cells of a value that stays pinned stay as they are. -/
theorem keeps (hm : m.Coherent) (h : m.HoldsThroughout v cs) :
    (m.after cs).Coherent ∧ (m.after cs).Holds v ∧
      ∀ id, m.arena.graph.Reaches [v] id → (m.after cs).arena.graph id = m.arena.graph id := by
  induction cs generalizing m with
  | nil => exact ⟨hm, h, fun _ _ => rfl⟩
  | cons c cs ih =>
    obtain ⟨hheld, hfits, hrest⟩ := h
    obtain ⟨hm₂, hgraph⟩ := c.keeps_run hm hfits
    obtain ⟨hm₃, hheld₃, hgraph₃⟩ := ih hm₂ hrest
    have hfirst : ∀ id, m.arena.graph.Reaches [v] id → (c.run m).arena.graph id = m.arena.graph id :=
      fun id hid => hgraph id (hheld.pinned hid)
    exact ⟨hm₃, hheld₃, fun id hid => (hgraph₃ id (hid.transfer hfirst)).trans (hfirst id hid)⟩

end Machine.HoldsThroughout

/-- A cell that holds the same pair in two arenas, and is in use in the second. -/
def Arena.SamePair (a a₂ : Arena) (id : CellId) : Prop :=
  ∃ x y, a.pair? id = some (x, y) ∧ a₂.pair? id = some (x, y) ∧ id ∉ a₂.free

theorem Machine.WellFormed.samePair (hm : m.WellFormed) {m₂ : Machine} {id : CellId}
    (hlive : m.arena.Live id) (hlive₂ : m₂.arena.Live id)
    (hgraph : m₂.arena.graph id = m.arena.graph id) : m.arena.SamePair m₂.arena id := by
  obtain ⟨hx, hy⟩ := hm.no_poison id hlive
  exact ⟨_, _, Arena.pair?_eq_some_iff.mpr ⟨rfl, hx, hy⟩,
    Arena.pair?_eq_some_iff.mpr ⟨hgraph, hx, hy⟩, hlive₂.2⟩

/-- An operation on a well-formed machine leaves every pinned cell in use and with the pair it held,
however it ends.  Hence a value stands for the same tree, in the same cells, throughout a session that
keeps it pinned. -/
theorem pinned_immutable (hm : m.WellFormed) :
    (∀ op : Operation, op.Fits m → ∀ id, m.Pinned id → m.arena.SamePair (op.run m).arena id) ∧
      ∀ v cs, m.HoldsThroughout v cs →
        (∀ t, (m.after cs).arena.Unfolds v t ↔ m.arena.Unfolds v t) ∧
          ∀ id, ((m.after cs).arena.graph.Reaches [v] id ↔ m.arena.graph.Reaches [v] id) ∧
            (m.arena.graph.Reaches [v] id → m.arena.SamePair (m.after cs).arena id) := by
  refine ⟨fun op hop id hid => ?_, fun v cs hheld => ?_⟩
  · have hkeeps := op.keeps_run hm.toCoherent hop
    exact hm.samePair (hm.live hid) (hkeeps.coherent.live (hkeeps.pinned_iff.mpr hid))
      (hkeeps.graph id hid)
  · obtain ⟨hm₂, hheld₂, hgraph⟩ := hheld.keeps hm.toCoherent
    have hreaches : ∀ id, (m.after cs).arena.graph.Reaches [v] id ↔ m.arena.graph.Reaches [v] id :=
      fun id => Graph.reaches_congr hgraph
    refine ⟨fun t => ⟨fun h => ?_, fun h => h.transfer hgraph⟩, fun id => ⟨hreaches id, fun hid => ?_⟩⟩
    · exact h.transfer fun id hid => (hgraph id ((hreaches id).mp hid)).symm
    · exact hm.samePair (hm.live (hheld.holds.pinned hid))
        (hm₂.live (hheld₂.pinned ((hreaches id).mpr hid))) (hgraph id hid)

/-- A machine with three cells, one of which is in use and pinned. -/
def pinnedMachine : Machine :=
  { Machine.new 3 none with
    arena := ⟨#[⟨.atom .t, .nil, false⟩], [], 3, ⟨0, 0⟩⟩
    roots := [.pair ⟨0⟩] }

/-- Two texts of which the second finds the arena full, and one for which there is no room. -/
def pinnedSession : List Command :=
  [.work (.evalText 2 "'()"), .work (.evalText 2 "'()"), .work (.parse "''()")]

/-- The pinned pair outlives a collection and a lack of room. -/
theorem pinned_immutable_pinnedSession :
    (pinnedMachine.after pinnedSession).arena.tally.collections = 3 ∧
      pinnedMachine.HoldsThroughout (.pair ⟨0⟩) pinnedSession ∧
      (pinnedMachine.after pinnedSession).arena.Unfolds (.pair ⟨0⟩) (.pair (.atom .t) .nil) := by
  have hwell : pinnedMachine.WellFormed := by decide
  have hroot : ∀ m : Machine, m.roots = [.pair ⟨0⟩] → m.Holds (.pair ⟨0⟩) := fun m hm id hid =>
    .root (by rw [hm, hid]; exact List.mem_singleton.mpr rfl)
  have hheld : pinnedMachine.HoldsThroughout (.pair ⟨0⟩) pinnedSession := by
    refine ⟨hroot _ rfl, trivial, hroot _ ?_, trivial, hroot _ ?_, trivial, hroot _ ?_⟩
    · exact Operation.roots_run _ _
    · exact (Operation.roots_run _ _).trans (Operation.roots_run _ _)
    · exact (Operation.roots_run _ _).trans
        ((Operation.roots_run _ _).trans (Operation.roots_run _ _))
  refine ⟨by decide +kernel, hheld, ?_⟩
  have hsame := ((pinned_immutable hwell).2 (.pair ⟨0⟩) pinnedSession hheld).1
  exact (hsame _).mpr (.pair rfl (.atom (by decide)) .nil)

end ArenaLisp
