import ArenaLisp.Proofs.PinDiscipline
import ArenaLisp.Proofs.ReadInStep

/-!
# The history of a machine cannot be told from an evaluation

Whatever a machine has been used for (`Machine.Step`, one use; `History`, all of them), a text comes to
the same on it as on a new machine of the same capacity, once nothing is pinned
(`History.answer_evalPrint`).  Its arena may then be full of garbage and its lexicon in another order.
-/

namespace ArenaLisp

variable {M : Mode} {P : Pairing M} {w : World} {fuel : Nat} {text : String} {m m₂ : Machine}

/-- What a run of a reading action leaves of the machine. -/
theorem ReadAction.machine_ending {α : Type} (act : ReadAction α) (m : Machine) (c : Cursor) :
    (ending (act.run ⟨m, c⟩)).machine = ending ((act.fromPlace c).run m) := by
  rw [run_fromPlace]
  cases act.run ⟨m, c⟩ with
  | ok x s => rfl
  | error e s => rfl

theorem InStep.keeps {α β : Type} {act : Action α} {act' : Action β} {Q : World → α → β → Prop}
    (h : InStep M w act act' Q) (hM : M.ample) : w.left.Keeps (ending (act.run w.left)) := by
  have h := h.of_ample hM
  cases hrun : act.run w.left with
  | ok x m =>
    rw [hrun] at h
    obtain ⟨_, _, _, -, hnext, -⟩ := h
    exact hnext.left
  | error e m =>
    rw [hrun] at h
    exact h.1

/-- The value of a text at top level, in print. -/
def evalPrint (fuel : Nat) (text : String) : Action String := do
  Action.render (← evalText fuel text)

theorem Leaves.evalText : Leaves Machine.Reads (evalText fuel text) :=
  .bind Machine.reads_frame (.parse Machine.reads_frame Machine.reads_intern text) fun _ =>
    evalIn_leaves Machine.reads_frame _ _ _

theorem Leaves.evalPrint : Leaves Machine.Reads (evalPrint fuel text) :=
  .bind Machine.reads_frame .evalText fun _ => .asking Machine.reads_frame _

namespace Pairing

/-- The values of a text correspond. -/
theorem evalText (hM : ¬ M.exact) (fuel : Nat) (text : String) (hw : w.Ok M) (hn : w.Named P)
    (hs : P.Ends (evalText fuel text) w.left) (hs' : P.Ends (evalText fuel text) w.right) :
    InStep M w (evalText fuel text) (evalText fuel text) fun w₂ v v' => w₂.Rel v v' := by
  have heval : ∀ v, Leaves Machine.Reads (eval fuel v) :=
    fun _ => evalIn_leaves Machine.reads_frame _ _ _
  refine (parse hM text hw hn (hs.first heval) (hs'.first heval)).bind fun w₂ v v' _ hw₂ hv => ?_
  exact InStep.eval fuel hw₂ hv.2

/-- Their prints are the same. -/
theorem evalPrint (hM : ¬ M.exact) (fuel : Nat) (text : String) (hw : w.Ok M) (hn : w.Named P)
    (hs : P.Ends (evalPrint fuel text) w.left) (hs' : P.Ends (evalPrint fuel text) w.right) :
    InStep M w (evalPrint fuel text) (evalPrint fuel text) fun _ shown shown' => shown = shown' := by
  have hprint : ∀ v, Leaves Machine.Reads (Action.render v) := fun _ => .asking Machine.reads_frame _
  refine (evalText hM fuel text hw hn (hs.first hprint) (hs'.first hprint)).bind ?_
  intro w₂ v v' _ hw₂ hv
  exact (InStep.render hw₂ hv).mono fun _ _ _ _ _ h => h.2

end Pairing

/-! ### One use of a machine -/

/-- What uses of a machine leave: it is coherent, of the same capacity and threshold, and its lexicon
has at most grown. -/
structure Machine.Lasts (m m₂ : Machine) : Prop where
  coherent : m₂.Coherent
  capacity : m₂.arena.capacity = m.arena.capacity
  threshold : m₂.log.threshold = m.log.threshold
  reads : m.Reads m₂

namespace Machine

theorem Lasts.trans {m₃ : Machine} (h : m.Lasts m₂) (h' : m₂.Lasts m₃) : m.Lasts m₃ where
  coherent := h'.coherent
  capacity := h'.capacity.trans h.capacity
  threshold := h'.threshold.trans h.threshold
  reads := h.reads.trans h'.reads

theorem Keeps.lasts (h : m.Keeps m₂) (hreads : m.Reads m₂) : m.Lasts m₂ :=
  ⟨h.coherent, h.capacity, h.threshold, hreads⟩

/-- One use of a machine, however it ends.  Values that are handed to it may not dangle. -/
inductive Step (m : Machine) : Machine → Prop
  | evalText (fuel : Nat) (text : String) : Step m (ending ((ArenaLisp.evalText fuel text).run m))
  | parse (text : String) : Step m (ending ((Action.parse text).run m))
  | read (c : Cursor) : Step m (ending (ReadAction.read.run ⟨m, c⟩)).machine
  | intern (s : String) : Step m (ending ((Action.intern s).run m))
  | cons {x y : Value} (hx : ¬ m.arena.Dangling x) (hy : ¬ m.arena.Dangling y) :
      Step m (ending ((Action.cons x y).run m))
  | pin {v : Value} (hv : ¬ m.arena.Dangling v) : Step m (m.pin v)
  | unpin : Step m m.unpin
  | repin {v : Value} (hv : ¬ m.arena.Dangling v) : Step m (m.repin v)

/-- A machine beside itself, as a world for reading. -/
theorem named_twin (m : Machine) :
    (World.twin .loose m m.arena).Named (Pairing.same (M := .loose) id) := by
  refine ⟨rfl, ?_⟩
  funext i i'
  exact propext ⟨And.left, fun h => ⟨h, False.elim⟩⟩

theorem Coherent.ok_twin (hm : m.Coherent) :
    (World.twin .loose m m.arena).Ok .loose :=
  World.ok_twin hm False.elim (.refl m.arena)

/-! What leaves the root stack, and all that it reaches, as they were. -/

theorem Coherent.keeps_cons {x y : Value} (hm : m.Coherent) (hx : ¬ m.arena.Dangling x)
    (hy : ¬ m.arena.Dangling y) : m.Keeps (ending ((Action.cons x y).run m)) := by
  have hkeeps := keeps_allocated hm hx hy
  rw [Action.run_cons]
  split
  · exact hkeeps
  · exact hkeeps

theorem Coherent.keeps_parse (hm : m.Coherent) (text : String) :
    m.Keeps (ending ((Action.parse text).run m)) :=
  (Pairing.parse id text hm.ok_twin m.named_twin trivial trivial).keeps trivial

theorem Coherent.keeps_read (hm : m.Coherent) (c : Cursor) :
    m.Keeps (ending (ReadAction.read.run ⟨m, c⟩)).machine := by
  rw [ReadAction.machine_ending]
  exact (Pairing.read id c hm.ok_twin m.named_twin trivial trivial).keeps trivial

theorem Coherent.keeps_evalText (hm : m.Coherent) (fuel : Nat) (text : String) :
    m.Keeps (ending ((ArenaLisp.evalText fuel text).run m)) :=
  (Pairing.evalText id fuel text hm.ok_twin m.named_twin trivial trivial).keeps trivial

theorem Step.lasts (hm : m.Coherent) (h : m.Step m₂) : m.Lasts m₂ := by
  cases h with
  | evalText fuel text => exact (hm.keeps_evalText fuel text).lasts (Leaves.evalText m)
  | parse text => exact (hm.keeps_parse text).lasts (Leaves.parse reads_frame reads_intern text m)
  | read c =>
    refine (hm.keeps_read c).lasts ?_
    rw [ReadAction.machine_ending]
    exact Leaves.read reads_frame reads_intern c m
  | intern s => exact ⟨⟨hm.arena, hm.roots⟩, rfl, rfl, reads_intern m s⟩
  | @cons x y hx hy => exact (hm.keeps_cons hx hy).lasts (Leaves.cons reads_frame x y m)
  | @pin v hv => exact ⟨hm.pin hv, rfl, rfl, .refl⟩
  | unpin => exact ⟨hm.unpin, rfl, rfl, .refl⟩
  | @repin v hv => exact ⟨hm.unpin.pin hv, rfl, rfl, .refl⟩

end Machine

/-! ### All uses of a machine -/

/-- A machine that has been used any number of times since it was new. -/
abbrev History (capacity : UInt32) (threshold : Option Level) : Machine → Prop :=
  Relation.ReflTransGen Machine.Step (.new capacity threshold)

variable {c : UInt32} {threshold : Option Level}

namespace History

theorem lasts (h : History c threshold m) : (Machine.new c threshold).Lasts m := by
  induction h with
  | refl => exact ⟨Machine.coherent_new c threshold, rfl, rfl, .refl⟩
  | tail _ hstep ih => exact ih.trans (hstep.lasts ih.coherent)

/-- A text comes to the same on a machine that has been used and on a new one. -/
theorem answer_evalPrint (h : History c threshold m) (hroots : m.roots = []) (fuel : Nat)
    (text : String)
    (hcount : (ending ((evalPrint fuel text).run m)).lexicon.count ≤ Lexicon.maxCount)
    (hcount' : (ending ((evalPrint fuel text).run (.new c threshold))).lexicon.count ≤
      Lexicon.maxCount) :
    answer ((evalPrint fuel text).run m) = answer ((evalPrint fuel text).run (.new c threshold)) := by
  have hlasts := h.lasts
  have hreads : m.Reads (ending ((evalPrint fuel text).run m)) := Leaves.evalPrint m
  have hproper : m.lexicon.Proper :=
    Lexicon.initial_proper.of_grows hlasts.reads (hreads.count_le.trans hcount)
  have hnew := Machine.coherent_new c threshold
  let P : Pairing .proper := .spelling _
  have hgood : P.Good m.lexicon (Machine.new c threshold).lexicon :=
    ⟨hproper, Lexicon.initial_proper⟩
  have hgood' : P.Good (Machine.new c threshold).lexicon m.lexicon :=
    ⟨Lexicon.initial_proper, hproper⟩
  have hstep := P.evalPrint id fuel text
    (World.ok_bare id hlasts.coherent hnew hroots rfl hgood hlasts.threshold.symm
      (UInt32.le_of_eq hlasts.capacity)) (World.named_bare hgood) hcount hcount'
  have hback := P.evalPrint id fuel text
    (World.ok_bare id hnew hlasts.coherent rfl hroots hgood' hlasts.threshold
      (UInt32.le_of_eq hlasts.capacity.symm)) (World.named_bare hgood') hcount' hcount
  have hboth := hstep.both trivial trivial hback rfl rfl
  rw [World.bare_left, World.bare_right] at hboth
  cases hrun : (evalPrint fuel text).run m with
  | ok shown m₂ =>
    rw [hrun] at hboth
    obtain ⟨_, m₂', ρ, hrun', -, rfl⟩ := hboth
    rw [hrun']
    rfl
  | error e m₂ =>
    rw [hrun] at hboth
    obtain ⟨-, m₂', hrun'⟩ := hboth
    rw [hrun']
    rfl

end History

/-- The machine after a text has been evaluated on it a number of times. -/
def Machine.repeated (m : Machine) (fuel : Nat) (text : String) : Nat → Machine
  | 0 => m
  | n + 1 => ending ((evalText fuel text).run (m.repeated fuel text n))

namespace History

/-- Evaluating a text is a use of the machine that pins nothing. -/
theorem repeated (h : History c threshold m) (hroots : m.roots = []) (fuel : Nat) (text : String)
    (n : Nat) :
    History c threshold (m.repeated fuel text n) ∧ (m.repeated fuel text n).roots = [] := by
  induction n with
  | zero => exact ⟨h, hroots⟩
  | succ n ih =>
    obtain ⟨hn, hrootsn⟩ := ih
    have hkeeps := hn.lasts.coherent.keeps_evalText fuel text
    exact ⟨hn.tail (.evalText fuel text), hkeeps.roots.trans hrootsn⟩

/-- However a machine has been used, and however often a text has been evaluated on it since, the text
comes to the same as on a new machine of that capacity. -/
theorem answer_evalPrint_repeated (h : History c threshold m) (hroots : m.roots = []) (fuel : Nat)
    (text : String) (n : Nat)
    (hcount : (ending ((evalPrint fuel text).run (m.repeated fuel text n))).lexicon.count ≤
      Lexicon.maxCount)
    (hcount' : (ending ((evalPrint fuel text).run (.new c threshold))).lexicon.count ≤
      Lexicon.maxCount) :
    answer ((evalPrint fuel text).run (m.repeated fuel text n)) =
      answer ((evalPrint fuel text).run (.new c threshold)) := by
  obtain ⟨hn, hrootsn⟩ := h.repeated hroots fuel text n
  exact hn.answer_evalPrint hrootsn fuel text hcount hcount'

end History

/-- A machine on which one text could not be read, another was evaluated, and a pair was built in the
full arena. -/
def usedMachine : Machine :=
  let unread := ending ((Action.parse "'(").run (.new 4 none))
  ending ((Action.cons .nil .nil).run (ending ((evalText 2 "''()").run unread)))

/-- A text that takes the whole arena goes on having its value. -/
theorem answer_evalPrint_repeated_usedMachine :
    usedMachine.arena.tally.collections = 1 ∧
      answer ((evalPrint 2 "''()").run (.new 4 none)) = .ok "\x27nil" ∧
      answer ((evalPrint 2 "''()").run (usedMachine.repeated 2 "''()" 3)) =
        answer ((evalPrint 2 "''()").run (.new 4 none)) := by
  have hhistory : History 4 none usedMachine :=
    ((Relation.ReflTransGen.refl.tail (.parse "'(")).tail (.evalText 2 "''()")).tail
      (.cons (by decide) (by decide))
  exact ⟨by decide +kernel, by decide +kernel, hhistory.answer_evalPrint_repeated (by decide +kernel) 2 _ 3
    (by decide +kernel) (by decide +kernel)⟩

end ArenaLisp
