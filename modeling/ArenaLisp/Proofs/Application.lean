import ArenaLisp.Proofs.Bindings
import ArenaLisp.Proofs.Clear
import ArenaLisp.Proofs.PinDiscipline
import ArenaLisp.Proofs.Yields

/-!
# Calling a closure

A call walks the formals and the actuals in lockstep, as they lay in the arena when it began, whatever
collections run meanwhile: it evaluates each actual in the scope of the caller and binds it to its formal
in front of the scope of the closure.  Where one of the lists ends, the call settles what is behind
(`run_callClosure_lockstep`).
-/

namespace ArenaLisp

/-- Whether a value is `nil` or a pair. -/
def Value.isList (v : Value) : Bool := v.isNil || v.isPair

namespace Arena

/-- The formals and actuals with which two lists begin, side by side, and what is behind them. -/
inductive Lockstep (a : Arena) : Value → Value → List (Value × Value) → Value → Value → Prop
  | none (formals actuals : Value) : Lockstep a formals actuals [] formals actuals
  | both {f x : CellId} {formals actuals : Value} {pairs : List (Value × Value)}
    (hrest : Lockstep a (a.graph f).2 (a.graph x).2 pairs formals actuals) :
    Lockstep a (.pair f) (.pair x) (((a.graph f).1, (a.graph x).1) :: pairs) formals actuals

variable {a a₂ : Arena} {formals actuals fs xs : Value} {pairs : List (Value × Value)}

theorem Lockstep.transfer (h : a.Lockstep formals actuals pairs fs xs)
    (hformals : a.AgreeOn a₂ formals) (hactuals : a.AgreeOn a₂ actuals) :
    a₂.Lockstep formals actuals pairs fs xs := by
  induction h with
  | none => exact .none _ _
  | @both f x _ _ _ _ ih =>
    rw [← hformals.graph, ← hactuals.graph]
    refine .both ?_
    rw [hformals.graph, hactuals.graph]
    exact ih hformals.cdr hactuals.cdr

/-- Two lists go side by side for as long as one likes, or to where one of them is no pair. -/
theorem exists_lockstep (a : Arena) (formals actuals : Value) (n : Nat) :
    ∃ pairs fs xs, a.Lockstep formals actuals pairs fs xs ∧
      (pairs.length = n ∨ pairs.length < n ∧ ¬ (fs.isPair ∧ xs.isPair)) := by
  induction n generalizing formals actuals with
  | zero => exact ⟨[], _, _, .none _ _, .inl rfl⟩
  | succ n ih =>
    by_cases hpairs : formals.isPair ∧ actuals.isPair
    · obtain ⟨f, rfl⟩ : ∃ f, formals = .pair f := by
        cases formals <;> simp [Value.isPair] at hpairs ⊢
      obtain ⟨x, rfl⟩ : ∃ x, actuals = .pair x := by
        cases actuals <;> simp [Value.isPair] at hpairs ⊢
      obtain ⟨pairs, fs, xs, hrest, hlength⟩ := ih (a.graph f).2 (a.graph x).2
      refine ⟨_, fs, xs, .both hrest, ?_⟩
      rw [List.length_cons]
      exact hlength.imp (by omega) fun h => ⟨by omega, h.2⟩
    · exact ⟨[], formals, actuals, .none _ _, .inr ⟨Nat.succ_pos n, hpairs⟩⟩

end Arena

/-! ### What a call comes to -/

namespace Eval

/-- Evaluates an actual in the scope of the caller and binds its formal to the value, in front of a scope
that is the innermost root.  The new scope becomes the root in its place. -/
def bindOne (ev : Evaluator) (caller : Scope) (ident actual : Value) (scope : Scope) :
    Action (Value × Scope) := do
  unless ident.isAtom do throw (.illFormed .formals)
  let v ← ev actual caller
  let scope ← scope.extend ident v
  Action.repin scope.value
  return (v, scope)

/-- Binds formals to evaluated actuals one after the other.  Gives the bindings in this order, and the
scope that begins with them. -/
def bindEach (ev : Evaluator) (caller : Scope) :
    List (Value × Value) → Scope → Action (List (Value × Value) × Scope)
  | [], scope => return ([], scope)
  | (ident, actual) :: pairs, scope => do
    let (v, scope) ← bindOne ev caller ident actual scope
    let (bindings, scope) ← bindEach ev caller pairs scope
    return ((ident, v) :: bindings, scope)

/-- What a call does with the rests of its formals and actuals. -/
def settle (ev : Evaluator) (body : Value) (caller : Scope) (fuel : Nat) (formals actuals : Value)
    (scope : Scope) : Action Value :=
  if ¬ formals.isList then throw (.illFormed .formals)
  else if ¬ actuals.isList then throw (.illFormed (.operands .application))
  else if formals.isPair ∧ actuals.isPair then bindFormals ev body caller fuel formals actuals scope
  else if formals.isPair ∨ actuals.isPair then throw (.illFormed .arity)
  else ev body scope

theorem bindFormals_succ (ev : Evaluator) (body : Value) (caller : Scope) (k : Nat)
    (formals actuals : Value) (scope : Scope) :
    bindFormals ev body caller (k + 1) formals actuals scope =
      settle ev body caller (k + 1) formals actuals scope := by
  cases formals <;> cases actuals <;> rfl

end Eval

/-- What has come of binding names one after the other in front of a scope. -/
structure Machine.Extended (m : Machine) (scope : Scope) (bindings : List (Value × Value))
    (m₂ : Machine) (scope₂ : Scope) : Prop where
  keeps : m.Keeps m₂
  not_dangling : ¬ m₂.arena.Dangling scope₂.value
  real : scope₂.value ≠ .poison
  binds : m₂.arena.Binds scope₂.value bindings.reverse scope.value
  agree : m.arena.AgreeOn m₂.arena scope.value

namespace Machine.Extended

variable {m m₂ m₃ : Machine} {scope scope₂ scope₃ : Scope} {b : Value × Value}
  {bs : List (Value × Value)}

theorem refl (hm : m.Coherent) (hscope : ¬ m.arena.Dangling scope.value)
    (hreal : scope.value ≠ .poison) : m.Extended scope [] m scope :=
  ⟨.refl hm, hscope, hreal, .bare _, fun _ _ => rfl⟩

theorem cons (h : m.Extended scope [b] m₂ scope₂) (h' : m₂.Extended scope₂ bs m₃ scope₃) :
    m.Extended scope (b :: bs) m₃ scope₃ where
  keeps := h.keeps.trans h'.keeps
  not_dangling := h'.not_dangling
  real := h'.real
  binds := by
    rw [List.reverse_cons]
    exact h'.binds.append (h.binds.transfer h'.agree)
  agree := h.agree.trans (h.binds.agree h'.agree)

/-- Names are looked up among the bindings first, of which the last ones count, and then in the scope as it
was. -/
theorem lookup (h : m.Extended scope bs m₂ scope₂) (i : AtomId) :
    scope₂.lookup m₂.arena i =
      match bs.reverse.find? (·.1 = .atom i) with
      | some b => .ok (some b.2)
      | none => scope.lookup m.arena i := by
  rw [← h.agree.lookup i]
  exact h.binds.lookup i

/-- A name that is not bound anew is looked up in the scope as it was. -/
theorem lookup_of_not_mem {i : AtomId} (h : m.Extended scope bs m₂ scope₂)
    (hi : .atom i ∉ bs.map Prod.fst) : scope₂.lookup m₂.arena i = scope.lookup m.arena i := by
  have hnone : bs.reverse.find? (·.1 = .atom i) = none := by
    refine List.find?_eq_none.mpr fun b hb heq => hi ?_
    rw [← of_decide_eq_true heq]
    exact List.mem_map_of_mem (List.mem_reverse.mp hb)
  rw [h.lookup i, hnone]

end Machine.Extended

variable {m : Machine} {caller scope : Scope} {ident actual formals actuals fs xs body : Value}
  {pairs : List (Value × Value)}

/-- One binding: where it does not fail, the new scope is the innermost root in the place of the old one. -/
theorem meets_bindOne (fuel : Nat) (hm : m.Coherent) (hident : ident ≠ .poison)
    (hactual : m.Holds actual) (hcaller : (m.pin scope.value).Holds caller.value)
    (hscope : ¬ m.arena.Dangling scope.value) (hreal : scope.value ≠ .poison) :
    Meets (m.pin scope.value) (Eval.bindOne (evalIn fuel) caller ident actual scope)
      (fun b m₂ => ∃ m₃, m₂ = m₃.pin b.2.value ∧ m.Extended scope [(ident, b.1)] m₃ b.2)
      (fun e _ => e = .illFormed .formals ∧ ident.isAtom = false ∨ e = .failure .outOfMemory ∨
        ∃ m₁ m₂, (evalIn fuel actual caller).run m₁ = .error e m₂) := by
  have hpin := hm.pin hscope
  have hkeeps := evalIn_keeps fuel hpin (hm.not_dangling hactual) hcaller
  have hvalue : Meets (m.pin scope.value) (evalIn fuel actual caller)
      (fun v m₂ => (m.pin scope.value).Keeps m₂ ∧ ¬ m₂.arena.Dangling v ∧ v ≠ .poison)
      (fun e _ => ∃ m₁ m₂, (evalIn fuel actual caller).run m₁ = .error e m₂) := by
    refine .intro (fun v m₂ hrun => ?_) fun e m₂ hrun => ⟨_, _, hrun⟩
    rw [hrun] at hkeeps
    exact ⟨hkeeps.1, hkeeps.2, (evalIn_yields fuel actual caller _).of_ok hrun⟩
  unfold Eval.bindOne
  by_cases hatom : ident.isAtom
  · rw [if_pos hatom]
    refine hvalue.bind ?_ fun _ _ h => .inr (.inr h)
    rintro v m₂ ⟨hkeeps, hv, hv'⟩
    refine (meets_extend hkeeps.coherent hatom hv (hkeeps.holds Machine.holds_pin_self)
      ⟨hident, hv', hreal⟩).bind ?_ fun _ _ h => .inr (.inl h.2)
    rintro s m₃ ⟨hkeeps₃, hs, hbinds⟩
    have hkeeps := hkeeps.trans hkeeps₃
    refine .repin_bind (.pure ?_)
    exact ⟨m₃.unpin, rfl, hkeeps.unpin, hs, hbinds.ne_poison hreal, hbinds,
      hkeeps.agreeOn Machine.holds_pin_self⟩
  · rw [if_neg hatom]
    exact .throw (.inl ⟨rfl, by simpa using hatom⟩)

/-- All bindings of a call. -/
theorem meets_bindEach (fuel : Nat) (hm : m.Coherent)
    (hpairs : ∀ p ∈ pairs, p.1 ≠ .poison ∧ m.Holds p.2) (hcaller : m.Holds caller.value)
    (hscope : ¬ m.arena.Dangling scope.value) (hreal : scope.value ≠ .poison) :
    Meets (m.pin scope.value) (Eval.bindEach (evalIn fuel) caller pairs scope)
      (fun b m₂ => b.1.map Prod.fst = pairs.map Prod.fst ∧
        ∃ m₃, m₂ = m₃.pin b.2.value ∧ m.Extended scope b.1 m₃ b.2)
      (fun e _ => ∃ p ∈ pairs, e = .illFormed .formals ∧ p.1.isAtom = false ∨
        e = .failure .outOfMemory ∨ ∃ m₁ m₂, (evalIn fuel p.2 caller).run m₁ = .error e m₂) := by
  induction pairs generalizing m scope with
  | nil => exact .pure ⟨rfl, m, rfl, .refl hm hscope hreal⟩
  | cons p pairs ih =>
    obtain ⟨ident, actual⟩ := p
    obtain ⟨hident, hactual⟩ := hpairs _ List.mem_cons_self
    refine (meets_bindOne fuel hm hident hactual hcaller.pin hscope hreal).bind ?_
      fun e _ he => ⟨(ident, actual), List.mem_cons_self, he⟩
    rintro ⟨v, s⟩ _ ⟨m₃, rfl, hextended⟩
    have hkeeps := hextended.keeps
    refine (ih hkeeps.coherent
      (fun p hp => (hpairs p (List.mem_cons_of_mem _ hp)).imp_right hkeeps.holds)
      (hkeeps.holds hcaller) hextended.not_dangling hextended.real).bind ?_ ?_
    · rintro ⟨bindings, s₂⟩ _ ⟨hnames, m₅, rfl, hrest⟩
      exact .pure ⟨congrArg (ident :: ·) hnames, m₅, rfl, hextended.cons hrest⟩
    · rintro e _ ⟨p, hp, he⟩
      exact ⟨p, List.mem_cons_of_mem _ hp, he⟩

/-- What two lists that are held begin with is held as well. -/
theorem Arena.Lockstep.held (h : m.arena.Lockstep formals actuals pairs fs xs)
    (hclear : m.arena.Clear formals) (hactuals : m.Holds actuals) :
    ∀ p ∈ pairs, p.1 ≠ .poison ∧ m.Holds p.2 := by
  induction h with
  | none => exact nofun
  | @both f x _ _ _ _ ih =>
    have hfirst := (hclear f (m.arena.graph.reaches_self f)).1
    exact List.forall_mem_cons.mpr
      ⟨⟨hfirst, Machine.holds_car hactuals⟩, ih hclear.snd (Machine.holds_cdr hactuals)⟩

/-- One round of the loop of a call: its readings come before and after what it does. -/
theorem run_bindFormals_pair {f x : CellId} {k : Nat} (hclear : m.arena.Clear (.pair f))
    (hclear' : m.arena.Clear (.pair x)) (ev : Evaluator) :
    (Eval.bindFormals ev body caller (k + 1) (.pair f) (.pair x) scope).run m =
      (Eval.bindOne ev caller (m.arena.graph f).1 (m.arena.graph x).1 scope >>= fun b => do
        let formals ← Action.cdr f
        let actuals ← Action.cdr x
        Eval.bindFormals ev body caller k formals actuals b.2).run m := by
  refine (Action.run_reading_bind hclear.car).trans ?_
  unfold Eval.bindOne
  dsimp only
  by_cases hatom : (m.arena.graph f).1.isAtom
  · rw [if_pos hatom, if_pos hatom]
    refine (Action.run_reading_bind hclear'.car).trans ?_
    simp only [bind_assoc, pure_bind]
  · rw [if_neg hatom, if_neg hatom]
    rfl

/-- The loop of a call binds the formals and actuals with which the lists began, and goes on behind them. -/
theorem run_bindFormals (fuel k : Nat) (hm : m.Coherent) (hformals : m.Holds formals)
    (hactuals : m.Holds actuals) (hclear : m.arena.Clear formals) (hclear' : m.arena.Clear actuals)
    (hcaller : m.Holds caller.value) (hscope : ¬ m.arena.Dangling scope.value)
    (hreal : scope.value ≠ .poison) (h : m.arena.Lockstep formals actuals pairs fs xs) :
    (Eval.bindFormals (evalIn fuel) body caller (pairs.length + k) formals actuals scope).run
        (m.pin scope.value) =
      (Eval.bindEach (evalIn fuel) caller pairs scope >>= fun b =>
        Eval.bindFormals (evalIn fuel) body caller k fs xs b.2).run (m.pin scope.value) := by
  induction pairs generalizing m formals actuals scope with
  | nil =>
    cases h
    rw [List.length_nil, Nat.zero_add]
    rfl
  | cons p pairs ih =>
    cases h with
    | @both f x _ _ _ hrest =>
      rw [List.length_cons, Nat.add_right_comm,
        run_bindFormals_pair (m := m.pin scope.value) hclear hclear', Eval.bindEach, bind_assoc]
      refine (meets_bindOne fuel hm (hclear f (m.arena.graph.reaches_self f)).1
        (Machine.holds_car hactuals) hcaller.pin hscope hreal).run_bind_congr ?_
      rintro ⟨v, s⟩ _ ⟨m₃, rfl, hextended⟩
      have hkeeps := hextended.keeps
      have hagree := hkeeps.agreeOn hformals
      have hagree' := hkeeps.agreeOn hactuals
      refine (Action.run_reading_bind (hagree.cdr_eq.trans hclear.cdr)).trans ?_
      refine (Action.run_reading_bind (hagree'.cdr_eq.trans hclear'.cdr)).trans ?_
      rw [ih hkeeps.coherent (hkeeps.holds (Machine.holds_cdr hformals))
        (hkeeps.holds (Machine.holds_cdr hactuals)) (hclear.snd.transfer hagree.cdr)
        (hclear'.snd.transfer hagree'.cdr) (hkeeps.holds hcaller) hextended.not_dangling
        hextended.real (hrest.transfer hagree.cdr hagree'.cdr)]
      simp only [bind_assoc, pure_bind]

/-- The records are all that the recording of a call changes. -/
theorem run_recordCall (hclear : m.arena.Clear formals) (hclear' : m.arena.Clear actuals) :
    ∃ log, log.threshold = m.log.threshold ∧
      (Eval.recordCall formals actuals).run m = .ok () { m with log } := by
  obtain ⟨shown, hshown⟩ := Machine.exists_render hclear
  obtain ⟨shown', hshown'⟩ := Machine.exists_render hclear'
  by_cases htrace : m.log.enabled .trace
  · refine ⟨m.log.add (.applied shown shown'), m.log.threshold_add _, ?_⟩
    show (if m.log.enabled .trace = true then _ else _ : Action Unit).run m = _
    rw [if_pos htrace, Action.run_bind, Action.render, Action.run_asking, hshown]
    dsimp only
    rw [Action.run_bind, Action.render, Action.run_asking, hshown']
    rfl
  · refine ⟨m.log, rfl, ?_⟩
    show (if m.log.enabled .trace = true then _ else _ : Action Unit).run m = _
    rw [if_neg htrace]
    rfl

/-- A closure that can be read is taken apart, and all but its head is pinned, its scope once more. -/
theorem run_callClosure {func : CellId} {s : Value} {log : Log} (hclear : m.arena.Clear (.pair func))
    (hparts : m.arena.Lists (m.arena.graph func).2 [s, formals, body])
    (hrecord : (Eval.recordCall formals actuals).run m = .ok () { m with log }) (ev : Evaluator)
    (k : Nat) :
    (Eval.callClosure ev k func actuals caller).run m =
      (Action.pinned (m.arena.graph func).2 <| Action.pinned s <|
        Eval.bindFormals ev body caller k formals actuals ⟨s⟩).run { m with log } := by
  refine (Action.run_reading_bind hclear.cdr).trans ?_
  refine (Action.run_reading_bind (hclear.snd.three?_eq_some hparts)).trans ?_
  dsimp only
  rw [Action.run_bind, hrecord]

/-- A call of a closure `(closure s formals body)`.  Besides a record in the log, it binds whatever formals
and actuals the two lists began with, one after the other, and settles what is behind them; two lists have
such a beginning of every length up to the place where one of them is no pair.  If nothing fails on the
way, the roots are the new scope and the closure without its head in front of those of the caller, and a
name is looked up among the bindings, of which the last ones count, and then in the scope of the closure as
it was.  If something fails, it is a formal that is no identifier, the evaluation of an actual in the scope
of the caller, or an allocation. -/
theorem run_callClosure_lockstep {func : CellId} {s : Value} (hm : m.WellFormed)
    (hfunc : ¬ m.arena.Dangling (.pair func))
    (hclosure : m.arena.Lists (.pair func) [.atom .closure, s, formals, body])
    (hactuals : m.Holds actuals) (hcaller : m.Holds caller.value) (fuel : Nat) :
    (∀ n, ∃ pairs fs xs, m.arena.Lockstep formals actuals pairs fs xs ∧
      (pairs.length = n ∨ pairs.length < n ∧ ¬ (fs.isPair ∧ xs.isPair))) ∧
    ∃ log, (Eval.recordCall formals actuals).run m = .ok () { m with log } ∧
      ∀ pairs fs xs, m.arena.Lockstep formals actuals pairs fs xs →
        (∀ k, (Eval.callClosure (evalIn fuel) (pairs.length + (k + 1)) func actuals caller).run m =
          (Action.pinned (m.arena.graph func).2 <| Action.pinned s do
            let (_, scope) ← Eval.bindEach (evalIn fuel) caller pairs ⟨s⟩
            Eval.settle (evalIn fuel) body caller (k + 1) fs xs scope).run { m with log }) ∧
        Meets (({ m with log } : Machine).pin (m.arena.graph func).2 |>.pin s)
          (Eval.bindEach (evalIn fuel) caller pairs ⟨s⟩)
          (fun (bindings, scope) m₂ =>
            bindings.map Prod.fst = pairs.map Prod.fst ∧
            m₂.roots = scope.value :: (m.arena.graph func).2 :: m.roots ∧
            ∀ i, scope.lookup m₂.arena i =
              match bindings.reverse.find? (·.1 = .atom i) with
              | some b => .ok (some b.2)
              | none => (⟨s⟩ : Scope).lookup m.arena i)
          (fun e _ => ∃ p ∈ pairs, e = .illFormed .formals ∧ p.1.isAtom = false ∨
            e = .failure .outOfMemory ∨ ∃ m₁ m₂, (evalIn fuel p.2 caller).run m₁ = .error e m₂) := by
  refine ⟨m.arena.exists_lockstep formals actuals, ?_⟩
  obtain ⟨_, hid, -, hrest⟩ := hclosure
  cases hid
  have hclear := hm.clear_of_not_dangling hfunc
  have hitems := hclear.snd.item hrest
  have hactuals_clear := hm.clear hactuals
  obtain ⟨log, -, hrecord⟩ := run_recordCall (hitems formals (by simp)).2 hactuals_clear
  refine ⟨log, hrecord, fun pairs fs xs hstep => ?_⟩
  -- all parts of the closure are held once the closure without its head is pinned
  have hdangling : ¬ m.arena.Dangling (m.arena.graph func).2 :=
    (hm.arena.not_dangling func (Arena.not_dangling_pair.mp hfunc)).2
  have hcoherent : (({ m with log } : Machine).pin (m.arena.graph func).2).Coherent :=
    Machine.Coherent.pin ⟨hm.arena, hm.roots⟩ hdangling
  have hheld := Machine.holds_item (m := ({ m with log } : Machine).pin (m.arena.graph func).2)
    Machine.holds_pin_self hrest
  have hscope := hcoherent.not_dangling (hheld s (by simp))
  have hreal := (hitems s (by simp)).1
  constructor
  · intro k
    rw [run_callClosure hclear hrest hrecord, Action.run_pinned, Action.run_pinned, Action.run_pinned,
      Action.run_pinned]
    refine congrArg (mapState Machine.unpin) (congrArg (mapState Machine.unpin) ?_)
    refine (run_bindFormals fuel (k + 1) hcoherent (hheld formals (by simp)) hactuals.pin
      (hitems formals (by simp)).2 hactuals_clear hcaller.pin hscope hreal hstep).trans ?_
    simp only [Eval.bindFormals_succ]
  · refine (meets_bindEach fuel hcoherent
      (fun p hp => (hstep.held (hitems formals (by simp)).2 hactuals p hp).imp_right Machine.Holds.pin)
      hcaller.pin hscope hreal).mono ?_ fun _ _ h => h
    rintro ⟨bindings, scope⟩ _ ⟨hnames, m₃, rfl, hextended⟩
    exact ⟨hnames, congrArg _ hextended.keeps.roots, hextended.lookup⟩

/-- A machine with the closure of `(lambda (x x) x)` in an empty scope, for the atom 11 as `x`, and with the
actuals `(t nil)`. -/
def shadowMachine : Machine :=
  { Machine.new 12 none with
    arena := ⟨#[⟨.atom .closure, .pair ⟨1⟩, false⟩, ⟨.nil, .pair ⟨2⟩, false⟩,
      ⟨.pair ⟨4⟩, .pair ⟨3⟩, false⟩, ⟨.atom ⟨11⟩, .nil, false⟩, ⟨.atom ⟨11⟩, .pair ⟨5⟩, false⟩,
      ⟨.atom ⟨11⟩, .nil, false⟩, ⟨.atom .t, .pair ⟨7⟩, false⟩, ⟨.nil, .nil, false⟩], [], 12, ⟨0, 0⟩⟩
    roots := [.pair ⟨6⟩] }

/-- The second of the two formals counts. -/
theorem run_callClosure_lockstep_shadowMachine :
    ∃ log m₂, (Eval.callClosure (evalIn 1) 3 ⟨0⟩ (.pair ⟨6⟩) .top).run shadowMachine = .ok .nil m₂ ∧
      (Action.pinned (.pair ⟨1⟩) <| Action.pinned .nil do
        let (_, scope) ← Eval.bindEach (evalIn 1) .top
          [(.atom ⟨11⟩, .atom .t), (.atom ⟨11⟩, .nil)] ⟨.nil⟩
        Eval.settle (evalIn 1) (.atom ⟨11⟩) .top 1 .nil .nil scope).run
          { shadowMachine with log } = .ok .nil m₂ := by
  have hm : shadowMachine.WellFormed := by decide
  have hfunc : ¬ shadowMachine.arena.Dangling (.pair ⟨0⟩) := by decide
  have hclosure : shadowMachine.arena.Lists (.pair ⟨0⟩)
      [.atom .closure, .nil, .pair ⟨4⟩, .atom ⟨11⟩] :=
    ⟨_, rfl, rfl, _, rfl, rfl, _, rfl, rfl, _, rfl, rfl, rfl⟩
  have hactuals : shadowMachine.Holds (.pair ⟨6⟩) := fun _ hid => .root (by simp [shadowMachine, hid])
  have hcaller : shadowMachine.Holds Scope.top.value := nofun
  have hstep : shadowMachine.arena.Lockstep (.pair ⟨4⟩) (.pair ⟨6⟩)
      [(.atom ⟨11⟩, .atom .t), (.atom ⟨11⟩, .nil)] .nil .nil :=
    .both (.both (.none _ _))
  obtain ⟨-, log, -, hcall⟩ := run_callClosure_lockstep hm hfunc hclosure hactuals hcaller 1
  have hrun : (Eval.callClosure (evalIn 1) 3 ⟨0⟩ (.pair ⟨6⟩) .top).run shadowMachine = .ok .nil _ := rfl
  exact ⟨log, _, hrun, ((hcall _ _ _ hstep).1 0).symm.trans hrun⟩

end ArenaLisp
