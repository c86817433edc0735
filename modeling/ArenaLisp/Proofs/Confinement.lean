import ArenaLisp.Proofs.EvalRuns
import Mathlib.Logic.Relation

/-!
# Code without the top level

A scope that does not end in the top-level marker, and code in which neither the marker nor a builtin
occurs, have no way to come by a builtin: names lead to what is bound, and closures bring their own
scopes.  Such code runs alike whatever the special forms do.  All that it leaves behind on the way are
pins, records of calls and the bindings of formals, and its value is as plain as itself
(`evalIn_confined`).
-/

namespace ArenaLisp

/-- Whether a value is neither a builtin nor the top-level marker. -/
def Value.isPlain : Value → Bool
  | .builtin _ => false
  | v => v != .atom .topLevel

/-- The alphabet without builtins and without the marker that leads to them. -/
def Alphabet.plain : Alphabet where
  Has _ v := v.isPlain
  pair _ _ := rfl
  nil _ := rfl
  atom _ i hi := by
    refine bne_iff_ne.mpr fun h => ?_
    rw [Value.atom.inj h] at hi
    exact absurd hi (by decide)
  builtin _ _ h := absurd h (by decide)
  grows _ h := h

instance (l : Lexicon) (v : Value) : Decidable (Alphabet.plain.Has l v) :=
  inferInstanceAs (Decidable (v.isPlain = true))

/-- A step of work whose only allocations are the entry and the link of a binding: a plain value, bound in
front of a plain scope that is held. -/
inductive Machine.BindStep : Machine → Machine → Prop
  | pin (m : Machine) (v : Value) : BindStep m (m.pin v)
  | unpin (m : Machine) : BindStep m m.unpin
  | record (m : Machine) (r : Record) : BindStep m (m.record r)
  | bind {m : Machine} {ident v : Value} {scope : Scope} (hatom : ident.isAtom)
    (hident : m.Clean .plain ident) (hv : m.Clean .plain v) (hscope : m.Guards .plain scope.value) :
    BindStep m (ending ((scope.extend ident v).run m))

/-- Work that makes no allocations but those of bindings. -/
abbrev Machine.OnlyBinds : Machine → Machine → Prop := Relation.ReflTransGen Machine.BindStep

/-- The trail of work that makes no allocations but those of bindings. -/
def Trail.binding : Trail where
  Along := Machine.OnlyBinds
  Sound := Machine.Coherent
  Cut := True
  coherent h := h
  sound _ h _ := h
  refl _ := .refl
  trans h h' := h.trans h'
  pin m v := .single (.pin m v)
  unpin m := .single (.unpin m)
  record m r := .single (.record m r)

theorem Trail.binding_binds : Trail.binding.Binds .plain :=
  fun _ hatom hident hv hscope => .single (.bind hatom hident hv hscope)

/-- Nothing is a builtin that plain code and a plain scope lead to.  So an evaluation of the one in the
other has the same run whatever the special forms do: `evalWith special` evaluates with other handlers in
their place, and is `evalIn` where the handlers are the special forms themselves (`evalWith_runSpecial`).
The value leads to no builtin and not to the top level.  No allocations are made but those of bindings, and
without the special forms, what is bound is the formals of closures. -/
theorem evalIn_confined {m : Machine} {expr : Value} {scope : Scope} (hm : m.Coherent)
    (hexpr : m.Clean .plain expr) (hscope : m.Guards .plain scope.value) (special : Handlers)
    (fuel : Nat) :
    (evalWith special fuel expr scope).run m = (evalIn fuel expr scope).run m ∧
      m.OnlyBinds (ending ((evalIn fuel expr scope).run m)) ∧
      ∀ v m₂, (evalIn fuel expr scope).run m = .ok v m₂ → m₂.Clean .plain v := by
  have h : Runs .binding m (evalIn fuel expr scope) (evalWith special fuel expr scope)
      fun m₂ v => m₂.Clean .plain v :=
    evalWith_runs trivial Trail.binding_binds (fun _ _ => Bool.false_ne_true) special fuel hm hexpr
      hscope
  refine ⟨h.1, h.ending, fun v m₂ hrun => ?_⟩
  obtain ⟨-, h⟩ := h
  rw [hrun] at h
  exact h.2

/-- A machine with a pinned scope in which `f` is a closure that gives its argument, for the atom 11 as
`f`, and with the expression `(f t)`. -/
def closureMachine : Machine :=
  { Machine.new 16 none with
    arena := ⟨#[⟨.atom ⟨12⟩, .nil, false⟩, ⟨.pair ⟨0⟩, .pair ⟨0⟩, false⟩, ⟨.nil, .pair ⟨1⟩, false⟩,
      ⟨.atom .closure, .pair ⟨2⟩, false⟩, ⟨.atom ⟨11⟩, .pair ⟨3⟩, false⟩, ⟨.pair ⟨4⟩, .nil, false⟩,
      ⟨.atom .t, .nil, false⟩, ⟨.atom ⟨11⟩, .pair ⟨6⟩, false⟩], [], 16, ⟨0, 0⟩⟩
    roots := [.pair ⟨5⟩] }

/-- A call of a closure in a scope without the top level. -/
theorem evalIn_confined_closureMachine :
    (∃ m₂, (evalIn 3 (.pair ⟨7⟩) ⟨.pair ⟨5⟩⟩).run closureMachine = .ok (.atom .t) m₂ ∧
      m₂.arena.used = closureMachine.arena.used + 2 ∧ m₂.Clean .plain (.atom .t)) ∧
    closureMachine.OnlyBinds (ending ((evalIn 3 (.pair ⟨7⟩) ⟨.pair ⟨5⟩⟩).run closureMachine)) ∧
    (evalWith (fun _ _ b _ _ => throw (.badOperands b)) 3 (.pair ⟨7⟩) ⟨.pair ⟨5⟩⟩).run closureMachine =
      (evalIn 3 (.pair ⟨7⟩) ⟨.pair ⟨5⟩⟩).run closureMachine := by
  have hm : closureMachine.Coherent := by decide
  have hlive : ∀ id, closureMachine.arena.Live id →
      Alphabet.plain.Has closureMachine.lexicon (closureMachine.arena.graph id).1 ∧
        Alphabet.plain.Has closureMachine.lexicon (closureMachine.arena.graph id).2 :=
    Arena.forall_live_iff.mpr (by decide)
  have hclean : ∀ id, closureMachine.arena.Live id → closureMachine.Clean .plain (.pair id) :=
    fun id hid => Machine.clean_of_live hm hlive (Arena.not_dangling_pair.mpr hid) rfl
  have hscope : closureMachine.Guards .plain (Scope.mk (.pair ⟨5⟩)).value :=
    ⟨fun id hid => .root (by rw [← hid]; exact List.mem_singleton.mpr rfl), hclean ⟨5⟩ (by decide)⟩
  obtain ⟨hsame, hbinds, hvalue⟩ := evalIn_confined hm (hclean ⟨7⟩ (by decide)) hscope
    (fun _ _ b _ _ => throw (.badOperands b)) 3
  exact ⟨⟨_, rfl, rfl, hvalue _ _ rfl⟩, hbinds, hsame⟩

end ArenaLisp
