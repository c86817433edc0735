import ArenaLisp.Proofs.Capacity
import ArenaLisp.Proofs.Sequential

/-!
# A name bound by `let` and by `lambda`

`(let ((x e)) body)` and `((lambda (x) body) e)` come to the same (`let_agrees_with_lambda`).  The call has
more to do before it binds anything: it makes a closure (`meets_evalIn_lambda`) and takes it apart again
(`run_apply_closure`).  From there on both do the same, although their machines hold different values: they
evaluate `e` in the scope, bind `x` to the value in front of it, and evaluate the body in the new scope.
-/

namespace ArenaLisp

variable {m m₂ : Machine} {caller scope : Scope} {actuals args body expr fn formals s u : Value}
  {func : CellId}

/-! ### Making a closure -/

/-- A closure is made of its marker, the scope, and the operands of the `lambda`, unless there is no room. -/
theorem meets_makeClosure (hm : m.Coherent) (hargs : m.Holds args) (hclear : m.arena.Clear args)
    (hlists : m.arena.Lists args [formals, body]) (hscope : m.Holds scope.value)
    (hclear' : m.arena.Clear scope.value) (hreal : scope.value ≠ .poison) :
    Meets m (Eval.makeClosure args scope)
      (fun v m₂ => m.Keeps m₂ ∧ ¬ m₂.arena.Dangling v ∧ m₂.arena.Clear v ∧
        m₂.arena.Lists v [.atom .closure, scope.value, formals, body])
      (fun e _ => e = .failure .outOfMemory) := by
  have hpair : args ≠ .poison := by
    obtain ⟨_, rfl, -⟩ := hlists
    exact nofun
  rw [Meets, Eval.makeClosure, run_operands_bind hclear hlists .lambda]
  refine (meets_cons hm (hm.not_dangling hscope) (hm.not_dangling hargs)).bind ?_ fun _ _ h => h.2
  rintro _ m₂ ⟨hkeeps, hrest, ⟨r, rfl, hgraph⟩, hagree, hagree'⟩
  have hclear₂ : m₂.arena.Clear (.pair r) :=
    .pair hgraph ⟨hreal, hclear'.transfer hagree⟩ ⟨hpair, hclear.transfer hagree'⟩
  have hlists₂ : m₂.arena.Lists (.pair r) [scope.value, formals, body] :=
    ⟨r, rfl, congrArg Prod.fst hgraph, hgraph ▸ hlists.transfer hagree'⟩
  have hmarker : ¬ m₂.arena.Dangling (.atom .closure) := by
    rintro ⟨_, habsurd, -⟩
    cases habsurd
  refine (meets_cons hkeeps.coherent hmarker hrest).mono ?_ fun _ _ h => h.2
  rintro _ m₃ ⟨hkeeps₃, hv, ⟨func, rfl, hgraph₃⟩, -, hagree₃⟩
  refine ⟨hkeeps.trans hkeeps₃, hv, ?_, func, rfl, congrArg Prod.fst hgraph₃, ?_⟩
  · exact .pair hgraph₃ ⟨by decide, .atom _⟩ ⟨nofun, hclear₂.transfer hagree₃⟩
  · exact hgraph₃ ▸ hlists₂.transfer hagree₃

/-- A `lambda` expression gives a closure, unless there is no room for one. -/
theorem meets_evalIn_lambda (hm : m.Coherent) (hfn : m.Holds fn) (hclear : m.arena.Clear fn)
    (hlists : m.arena.Lists fn [.atom Builtin.lambda.atom, formals, body]) (hscope : m.Holds scope.value)
    (hclear' : m.arena.Clear scope.value)
    (hlambda : scope.lookup m.arena Builtin.lambda.atom = .ok (some (.builtin .lambda))) (fuel : Nat) :
    Meets m (evalIn (fuel + 2) fn scope)
      (fun v m₂ => m.Keeps m₂ ∧ ¬ m₂.arena.Dangling v ∧ m₂.arena.Clear v ∧
        m₂.arena.Lists v [.atom .closure, scope.value, formals, body])
      (fun e _ => e = .failure .outOfMemory) := by
  obtain ⟨id, rfl, hhead, hrest⟩ := hlists
  rw [Meets, run_evalIn_special hclear hhead hlambda]
  refine Meets.pinned ((meets_makeClosure (m := m.pin (.pair id)) (hm.pin (hm.not_dangling hfn))
    (Machine.holds_cdr hfn).pin hclear.snd hrest hscope.pin hclear'
    (Scope.ne_poison_of_lookup hlambda)).mono ?_ fun _ _ h => h)
  exact fun _ _ h => h.imp_left Machine.Keeps.unpin

/-! ### Calling it -/

/-- A call of a closure of one name with one operand binds the one to the value of the other. -/
theorem run_apply_closure (hm : m.Coherent) (hfunc : ¬ m.arena.Dangling (.pair func))
    (hclear : m.arena.Clear (.pair func))
    (hclosure : m.arena.Lists (.pair func) [.atom .closure, s, formals, body])
    (hformals : m.arena.Lists formals [u]) (hactuals : m.Holds actuals)
    (hclear' : m.arena.Clear actuals) (hlists : m.arena.Lists actuals [expr])
    (hcaller : m.Holds caller.value) (fuel k : Nat) :
    ∃ log, log.threshold = m.log.threshold ∧
      (Eval.apply (evalIn fuel) (k + 2) (.pair func) actuals caller).run m =
        (Action.pinned (m.arena.graph func).2 <| Action.pinned s do
          let (_, scope) ← Eval.bindOne (evalIn fuel) caller u expr ⟨s⟩
          evalIn fuel body scope).run { m with log } := by
  obtain ⟨_, hid, hhead, hparts⟩ := hclosure
  cases hid
  have hitems := hclear.snd.item hparts
  obtain ⟨log, hthreshold, hrecord⟩ := run_recordCall (hitems formals (by simp)).2 hclear'
  have hdangling := (hm.arena.not_dangling func (Arena.not_dangling_pair.mp hfunc)).2
  have hcoherent : (({ m with log } : Machine).pin (m.arena.graph func).2).Coherent :=
    Machine.Coherent.pin ⟨hm.arena, hm.roots⟩ hdangling
  have hheld := Machine.holds_item (m := ({ m with log } : Machine).pin (m.arena.graph func).2)
    Machine.holds_pin_self hparts
  have hstep : m.arena.Lockstep formals actuals [(u, expr)] .nil .nil := by
    obtain ⟨f, rfl, hu, hnil⟩ := hformals
    obtain ⟨x, rfl, he, hnil'⟩ := hlists
    have hstep := Arena.Lockstep.both (.none (m.arena.graph f).2 (m.arena.graph x).2)
    rwa [hu, he, hnil, hnil'] at hstep
  refine ⟨log, hthreshold, (Action.run_reading_bind hclear.car).trans ?_⟩
  dsimp only
  rw [if_pos hhead, run_callClosure hclear hparts hrecord,
    show k + 2 = [(u, expr)].length + (k + 1) from (Nat.add_comm 1 (k + 1)).symm]
  refine congrArg (mapState Machine.unpin) (congrArg (mapState Machine.unpin) ?_)
  refine (run_bindFormals fuel (k + 1) hcoherent (hheld formals (by simp)) hactuals.pin
    (hitems formals (by simp)).2 hclear' hcaller.pin (hcoherent.not_dangling (hheld s (by simp)))
    (hitems s (by simp)).1 hstep).trans ?_
  simp only [Eval.bindEach, bind_assoc, pure_bind]
  rfl

/-- Whether an expression is a call of a `lambda` of one name around a body, with one operand. -/
def Arena.IsRedex (a : Arena) (expr u operand body : Value) : Prop :=
  ∃ fn formals, a.Lists expr [fn, operand] ∧
    a.Lists fn [.atom Builtin.lambda.atom, formals, body] ∧ a.Lists formals [u]

/-- The parts of such a call that is held are held as well. -/
theorem Arena.IsRedex.holds {operand : Value} (h : m.arena.IsRedex expr u operand body)
    (hexpr : m.Holds expr) : m.Holds u ∧ m.Holds operand ∧ m.Holds body := by
  obtain ⟨fn, formals, hlists, hfn, hformals⟩ := h
  have hitems := Machine.holds_item hexpr hlists
  have hparts := Machine.holds_item (hitems fn (by simp)) hfn
  exact ⟨Machine.holds_item (hparts formals (by simp)) hformals u (by simp), hitems operand (by simp),
    hparts body (by simp)⟩

/-- A call of a `lambda`, inside the pin of the expression: if there is room for the closure, it goes on in a
machine that keeps what was pinned, and with the scope pinned inside what is left of the closure. -/
theorem run_redex {call : CellId} {operand : Value} (hm : m.Coherent) (hheld : m.Holds (.pair call))
    (hclear : m.arena.Clear (.pair call)) (h : m.arena.IsRedex (.pair call) u operand body)
    (hscope : m.Holds scope.value) (hclear' : m.arena.Clear scope.value)
    (hlambda : scope.lookup m.arena Builtin.lambda.atom = .ok (some (.builtin .lambda))) (fuel : Nat) :
    (∃ m₂, (Eval.applyHead (evalIn (fuel + 2)) (fuel + 2) (m.arena.graph call) scope).run m =
      .error (.failure .outOfMemory) m₂) ∨
    ∃ rest m₂, m.Keeps m₂ ∧ m₂.lexicon = m.lexicon ∧ ¬ m₂.arena.Dangling rest ∧
      (Eval.applyHead (evalIn (fuel + 2)) (fuel + 2) (m.arena.graph call) scope).run m =
        (Action.pinned rest <| Action.pinned scope.value do
          let (_, s) ← Eval.bindOne (evalIn (fuel + 2)) scope u operand scope
          evalIn (fuel + 2) body s).run m₂ := by
  obtain ⟨fn, formals, ⟨_, hcall, rfl, hactuals⟩, hfn, hformals⟩ := h
  cases hcall
  have hheld_fn := Machine.holds_car hheld
  have hheld_formals := Machine.holds_item hheld_fn hfn formals (by simp)
  have hheld_actuals := Machine.holds_cdr hheld
  have hclosure := meets_evalIn_lambda hm hheld_fn hclear.fst hfn hscope hclear' hlambda fuel
  have hlexicon := evalIn_leaves lexicon_frame (fuel + 2) (m.arena.graph call).1 scope m
  cases hrun : (evalIn (fuel + 2) (m.arena.graph call).1 scope).run m with
  | error why m₂ =>
    obtain rfl := hclosure.of_error hrun
    exact .inl ⟨m₂, Action.run_bind_of_error hrun⟩
  | ok op m₂ =>
    rw [hrun] at hlexicon
    obtain ⟨hkeeps, hop, hop_clear, hop_lists⟩ := hclosure.of_ok hrun
    obtain ⟨func, rfl⟩ : ∃ func, op = .pair func := by
      obtain ⟨func, rfl, -⟩ := hop_lists
      exact ⟨func, rfl⟩
    have hagree := hkeeps.agreeOn hheld_actuals
    obtain ⟨log, hlog, hcall⟩ := run_apply_closure hkeeps.coherent hop hop_clear hop_lists
      (hformals.transfer (hkeeps.agreeOn hheld_formals)) (hkeeps.holds hheld_actuals)
      (hclear.snd.transfer hagree) (hactuals.transfer hagree) (hkeeps.holds hscope) (fuel + 2) fuel
    have hrest := (hkeeps.coherent.arena.not_dangling func (Arena.not_dangling_pair.mp hop)).2
    exact .inr ⟨_, { m₂ with log }, hkeeps.with_log hlog, hlexicon, hrest,
      (Action.run_bind_of_ok hrun).trans hcall⟩

/-! ### Both at once -/

/-- A `let` of one binding. -/
theorem run_evalIn_let_one {operand : Value} (hm : m.Coherent) (hexpr : ¬ m.arena.Dangling expr)
    (hclear : m.arena.Clear expr) (h : m.arena.IsLet expr [(u, operand)] .nil body)
    (hscope : m.Holds scope.value)
    (hlet : scope.lookup m.arena Builtin.letIn.atom = .ok (some (.builtin .letIn))) (fuel : Nat) :
    (evalIn (fuel + 3) expr scope).run m =
      (Action.pinned expr <| Action.pinned scope.value do
        let (_, s) ← Eval.bindOne (evalIn (fuel + 2)) scope u operand scope
        evalIn (fuel + 2) body s).run m := by
  have hrun := run_evalIn_let hm hexpr hclear h hscope hlet fuel
  rw [show [(u, operand)].length + fuel = fuel + 1 from Nat.add_comm 1 fuel] at hrun
  refine hrun.trans (congrArg (mapState Machine.unpin) (congrArg (mapState Machine.unpin) ?_))
  simp only [Eval.bindAll, bind_assoc, pure_bind]
  rfl

section Agreement

variable {w : World} {scope scope' : Scope} {expr expr' u u' e e' body body' : Value}

/-- Binding a name and evaluating a body on both sides. -/
theorem InStep.bind_body {M : Mode} {ev ev' : Evaluator} (hev : EvalInStep M ev ev') (hw : w.Ok M)
    (hscope : w.Held scope.value scope'.value) (hatom : u.isAtom) (hu : w.Held u u') (he : w.Rel e e')
    (hbody : w.Held body body') :
    InStep M w
      (Action.pinned scope.value do
        let (_, s) ← Eval.bindOne ev scope u e scope
        ev body s)
      (Action.pinned scope'.value do
        let (_, s) ← Eval.bindOne ev' scope' u' e' scope'
        ev' body' s) fun w₂ v v' => w₂.Rel v v' := by
  refine bindOne_bind hev hw hscope.1 hscope.pin hatom hu he fun w₂ (_, s) (_, s') hnext hw₂ hs => ?_
  exact .pinned (hev (hw₂.pin hs) (hbody.next hnext).1 (World.held_pin hs)) fun _ _ _ h => h

/-- A `let` of one binding in step with a call of a `lambda`. -/
theorem InStep.let_redex (hw : w.Ok .apart) (hright : w.right.WellFormed)
    (hscope : w.Held scope.value scope'.value)
    (hlambda : scope'.lookup w.right.arena Builtin.lambda.atom = .ok (some (.builtin .lambda)))
    (hexpr : ¬ w.left.arena.Dangling expr) (hexpr' : ¬ w.right.arena.Dangling expr')
    (hlet : w.left.arena.IsLet expr [(u, e)] .nil body)
    (hredex : w.right.arena.IsRedex expr' u' e' body')
    (hu : w.Rel u u') (he : w.Rel e e') (hbody : w.Rel body body') (fuel : Nat) :
    InStep .apart w
      (Action.pinned expr <| Action.pinned scope.value do
        let (_, s) ← Eval.bindOne (evalIn (fuel + 2)) scope u e scope
        evalIn (fuel + 2) body s)
      (evalIn (fuel + 3) expr' scope') fun w₂ v v' => w₂.Rel v v' := by
  obtain ⟨hparts, -, hbody_left⟩ := hlet.holds (m := w.left.pin expr) Machine.holds_pin_self
  obtain ⟨hu_right, he_right, hbody_right⟩ := hredex.holds (m := w.right.pin expr') Machine.holds_pin_self
  obtain ⟨hu_left, he_left⟩ := hparts _ List.mem_cons_self
  have hatom : u.isAtom := by
    obtain ⟨_, -, -, hatoms⟩ := hlet
    exact hatoms _ List.mem_cons_self
  have hclear := hright.clear_of_not_dangling hexpr'
  obtain ⟨call, rfl⟩ : ∃ call, expr' = .pair call := by
    obtain ⟨_, _, ⟨call, rfl, -⟩, -⟩ := hredex
    exact ⟨call, rfl⟩
  refine of_runs (.pinned ?_ fun _ _ _ h => h) (.refl hw) rfl (run_evalIn_pair hclear (fuel + 2))
  -- with the expressions pinned, all their parts are held
  have hw₁ := hw.pin_apart hexpr hexpr'
  have hscope₁ : (w.pin expr (.pair call)).Held scope.value scope'.value := hscope.pin
  have hu₁ : (w.pin expr (.pair call)).Held u u' := ⟨hu, hu_left, hu_right⟩
  have he₁ : (w.pin expr (.pair call)).Held e e' := ⟨he, he_left, he_right⟩
  have hbody₁ : (w.pin expr (.pair call)).Held body body' := ⟨hbody, hbody_left, hbody_right⟩
  rcases run_redex hw₁.right Machine.holds_pin_self hclear hredex hscope₁.2.2 (hright.clear hscope.2.2)
    hlambda fuel with ⟨m₂, hrun⟩ | ⟨rest, m₂, hkeeps, hlexicon, hrest, hrun⟩
  · exact .inl ⟨fun h => h, m₂, hrun⟩
  · refine right_first hw₁ hkeeps hlexicon hrun fun ρ hnext hok => .pinned_right ?_
    exact bind_body (evalIn_inStep .apart _) (hok.pinRight hrest) (hscope₁.next hnext).pinRight hatom
      (hu₁.next hnext).pinRight (he₁.next hnext).1 (hbody₁.next hnext).pinRight

/-- A `let` of one binding agrees with a call of a `lambda`, where both names are bound to their forms. -/
theorem let_agrees_with_lambda (hw : w.Ok .apart) (hleft : w.left.WellFormed)
    (hright : w.right.WellFormed) (hscope : w.Held scope.value scope'.value)
    (hlet : scope.lookup w.left.arena Builtin.letIn.atom = .ok (some (.builtin .letIn)))
    (hlambda : scope.lookup w.left.arena Builtin.lambda.atom = .ok (some (.builtin .lambda)))
    (hexpr : ¬ w.left.arena.Dangling expr) (hexpr' : ¬ w.right.arena.Dangling expr')
    (hone : w.left.arena.IsLet expr [(u, e)] .nil body)
    (hredex : w.right.arena.IsRedex expr' u' e' body')
    (hu : w.Rel u u') (he : w.Rel e e') (hbody : w.Rel body body') :
    w.Agree expr scope expr' scope' := by
  refine .of_inStep 3 (fun n => evalIn (n + 3) expr' scope') hw (fun n => ?_)
    (fun n => ⟨n + 3, .inl rfl⟩)
    fun fuel => ⟨fuel, evalIn_cuts (Nat.le_add_right fuel 3) expr' scope' w.right⟩
  have hrun := run_evalIn_let_one hw.left hexpr (hleft.clear_of_not_dangling hexpr) hone hscope.2.1 hlet n
  exact (InStep.let_redex hw hright hscope (hw.lookup_builtin hscope.1 hlambda) hexpr hexpr' hone hredex
    hu he hbody n).of_runs (.refl hw) hrun rfl

end Agreement

/-- A machine that holds `(let ((a t)) (lambda (b) a))` and `((lambda (a) (lambda (b) a)) t)`, for the atoms
11 and 12 as `a` and `b`. -/
def redexMachine : Machine :=
  { Machine.new 24 none with
    arena := ⟨#[⟨.atom ⟨4⟩, .pair ⟨1⟩, false⟩, ⟨.pair ⟨2⟩, .pair ⟨3⟩, false⟩, ⟨.atom ⟨12⟩, .nil, false⟩,
      ⟨.atom ⟨11⟩, .nil, false⟩, ⟨.atom ⟨11⟩, .pair ⟨5⟩, false⟩, ⟨.atom .t, .nil, false⟩,
      ⟨.pair ⟨4⟩, .nil, false⟩, ⟨.atom ⟨9⟩, .pair ⟨8⟩, false⟩, ⟨.pair ⟨6⟩, .pair ⟨9⟩, false⟩,
      ⟨.pair ⟨0⟩, .nil, false⟩, ⟨.atom ⟨4⟩, .pair ⟨11⟩, false⟩, ⟨.pair ⟨3⟩, .pair ⟨9⟩, false⟩,
      ⟨.pair ⟨10⟩, .pair ⟨5⟩, false⟩], [], 24, ⟨0, 0⟩⟩
    roots := [.pair ⟨7⟩, .pair ⟨12⟩] }

/-- Both expressions of the machine give a closure that captures the binding, in cells of their own. -/
theorem let_agrees_with_lambda_redexMachine :
    (World.self redexMachine).Agree (.pair ⟨7⟩) .top (.pair ⟨12⟩) .top ∧
      ∃ m₂ m₃, redexMachine.Gives (.pair ⟨7⟩) .top (.pair ⟨16⟩) m₂ ∧
        redexMachine.Gives (.pair ⟨12⟩) .top (.pair ⟨18⟩) m₃ := by
  have hwell : redexMachine.WellFormed := by decide
  have hrel : ∀ v, ¬ redexMachine.arena.Dangling v → v ≠ .poison →
      (World.self redexMachine).Rel v v := fun _ => World.rel_self
  have hscope : (World.self redexMachine).Held Scope.top.value Scope.top.value :=
    ⟨hrel _ (by decide) (by decide), nofun, nofun⟩
  have hbinding : redexMachine.arena.Lists (.pair ⟨4⟩) [.atom ⟨11⟩, .atom .t] :=
    ⟨⟨4⟩, rfl, rfl, ⟨5⟩, rfl, rfl, rfl⟩
  have hone : redexMachine.arena.IsLet (.pair ⟨7⟩) [(.atom ⟨11⟩, .atom .t)] .nil (.pair ⟨0⟩) :=
    ⟨.pair ⟨6⟩, ⟨⟨7⟩, rfl, rfl, ⟨8⟩, rfl, rfl, ⟨9⟩, rfl, rfl, rfl⟩, .clause hbinding (.none _), by decide⟩
  have hredex : redexMachine.arena.IsRedex (.pair ⟨12⟩) (.atom ⟨11⟩) (.atom .t) (.pair ⟨0⟩) :=
    ⟨.pair ⟨10⟩, .pair ⟨3⟩, ⟨⟨12⟩, rfl, rfl, ⟨5⟩, rfl, rfl, rfl⟩,
      ⟨⟨10⟩, rfl, rfl, ⟨11⟩, rfl, rfl, ⟨9⟩, rfl, rfl, rfl⟩, ⟨⟨3⟩, rfl, rfl, rfl⟩⟩
  refine ⟨?_, _, _, ⟨5, rfl⟩, ⟨5, rfl⟩⟩
  exact let_agrees_with_lambda (World.ok_self hwell) hwell hwell hscope rfl rfl (by decide) (by decide) hone hredex
    (hrel _ (by decide) (by decide)) (hrel _ (by decide) (by decide)) (hrel _ (by decide) (by decide))

end ArenaLisp
