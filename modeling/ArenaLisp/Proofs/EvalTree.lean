import ArenaLisp.Proofs.Cut
import ArenaLisp.Proofs.EvalComputes

/-!
# The arena computes the evaluation of trees

An evaluation that ends, that has room, and that compares no two pairs with `eq` gives what the
evaluation of trees gives on what the expression and the scope unfold to (`evalIn_evaluates`).  That no
two pairs are compared is said by means of `evalApart`, which does what evaluation does up to the
first such comparison, where it is cut off (`evalApart_cuts`).
-/

namespace ArenaLisp

/-- Evaluates an expression, given the evaluation of what is inside it, and is cut off where two pairs
are to be compared. -/
def Eval.stepApart (ev : Evaluator) (fuel : Nat) : Evaluator
  | .pair id, scope => Action.pinned (.pair id) do
    let head ← Action.car id
    let args ← Action.cdr id
    let op ← ev head scope
    if op = .builtin .eq then do
      let (x, y) ← evalBoth ev .eq args scope
      if x.isPair && y.isPair then throw .unfinished else return .ofBool (x == y)
    else apply ev fuel op args scope
  | expr, scope => step ev fuel expr scope

/-- Evaluates an expression in a scope up to the first comparison of two pairs. -/
def evalApart : Nat → Evaluator
  | 0, _, _ => throw .unfinished
  | fuel + 1, expr, scope => Eval.stepApart (evalApart fuel) fuel expr scope

/-- Up to a comparison of two pairs it is evaluation. -/
theorem evalApart_cuts (fuel : Nat) (expr : Value) (scope : Scope) :
    Cuts (evalApart fuel expr scope) (evalIn fuel expr scope) := by
  induction fuel generalizing expr scope with
  | zero => exact .refl _
  | succ fuel ih =>
    cases expr with
    | nil | atom _ | builtin _ => exact .refl _
    | pair id =>
      refine .pinned _ (.bind_left fun head => .bind_left fun args => (ih head scope).bind ?_)
      intro op
      split
      · rename_i hop
        subst hop
        refine .bind (Judgement.cuts.evalBoth ih .eq) fun p => ?_
        dsimp only
        split
        · exact .unfinished _
        · exact .refl _
      · exact Judgement.cuts.apply ih (Nat.le_refl fuel) op

/-- Without a comparison of two pairs, evaluation computes trees. -/
theorem Computes.stepApart {l : Lexicon} {ev : Evaluator} {tev : Tree.Evaluator}
    (hev : EvalComputes l ev tev) (fuel : Nat) :
    EvalComputes l (Eval.stepApart ev fuel) (Tree.step tev l) := by
  intro m expr scope e s hm hl hexpr hscope
  cases expr with
  | nil =>
    cases hexpr.2
    exact .pure hm hexpr
  | atom i =>
    cases hexpr.2
    exact hl ▸ evalAtom i hm hscope
  | builtin b =>
    cases hexpr.2
    exact .throw _
  | pair id =>
    obtain ⟨head, args, h, a, rfl, hcar, hcdr, hhead, hargs⟩ := Machine.read_pair hexpr.2
    have hpin := hm.pin hexpr.1
    have hhead : (m.pin (.pair id)).Secures head h := hexpr.pin.part hhead
    have hargs : (m.pin (.pair id)).Secures args a := hexpr.pin.part hargs
    refine .pinned (Q := fun m₂ v t => m₂.Shows v t) ?_ fun _ _ _ h => h
    refine asking_bind (f := (·.arena.car id)) hcar ?_
    refine asking_bind (f := (·.arena.cdr id)) hcdr ?_
    refine (hev hpin hl (hhead.shows hpin) hscope.pin).bind
      (g := fun op => Tree.apply tev l op a s) fun m₂ op t hkeeps hlexicon hop => ?_
    have hm₂ := hkeeps.coherent
    have hl₂ := hlexicon.trans hl
    split
    · rename_i heq
      subst heq
      cases hop.2
      refine (evalBoth .eq hev hm₂ hl₂ (hargs.keeps hkeeps) (hscope.pin.keeps hkeeps)).bind
        (g := fun p => .ok (Tree.ofBool (p.1 == p.2))) fun m₃ p q hkeeps₃ _ hp => ?_
      dsimp only
      split
      · exact .inl rfl
      · rename_i hne
        rw [hp.1.2.beq_eq hp.2.2 (Bool.not_eq_true _ ▸ hne)]
        refine .pure hkeeps₃.coherent ?_
        unfold Value.ofBool Tree.ofBool
        split
        · exact ⟨by simp [Arena.Dangling], .atom (by decide)⟩
        · exact ⟨by simp [Arena.Dangling], .nil⟩
    · rename_i hne
      exact apply hev fuel hne hm₂ hl₂ hop (hargs.keeps hkeeps) (hscope.pin.keeps hkeeps)

theorem evalApart_computes (l : Lexicon) (fuel : Nat) :
    EvalComputes l (evalApart fuel) (Tree.eval l fuel) := by
  induction fuel with
  | zero => exact fun _ _ _ _ => .inl rfl
  | succ fuel ih => exact Computes.stepApart ih fuel

variable {m : Machine} {expr : Value} {scope : Scope} {e s : Tree}

/-- An evaluation that compares no two pairs, and that is neither cut off nor ends for want of room,
gives what the evaluation of trees gives: the value unfolds to the same tree, or it fails alike. -/
theorem evalIn_evaluates (fuel : Nat) (hm : m.Coherent) (hexpr : m.Shows expr e)
    (hscope : m.Secures scope.value s)
    (hapart : (evalApart fuel expr scope).run m = (evalIn fuel expr scope).run m) :
    match (evalIn fuel expr scope).run m with
    | .ok v m₂ => ∃ t, m₂.Shows v t ∧ Tree.Evaluates m.lexicon e s (.ok t)
    | .error err _ => err = .unfinished ∨ err = .failure .outOfMemory ∨
        Tree.Evaluates m.lexicon e s (.error err) := by
  have hcomputes := evalApart_computes m.lexicon fuel hm rfl hexpr hscope
  rw [Computes, hapart] at hcomputes
  cases hrun : (evalIn fuel expr scope).run m with
  | ok v m₂ =>
    rw [hrun] at hcomputes
    obtain ⟨-, -, t, heval, hv⟩ := hcomputes
    exact ⟨t, hv, (fun h => by cases h), fuel, heval⟩
  | error err m₂ =>
    rw [hrun] at hcomputes
    by_cases hcut : err = .unfinished
    · exact .inl hcut
    · rcases hcomputes with h | h | heval
      · exact .inl h
      · exact .inr (.inl h)
      · exact .inr (.inr ⟨fun h => hcut (Except.error.inj h), fuel, heval⟩)

/-- A machine that holds `((lambda (x) (cons x x)) t)`, with `x` as the atom of number 11. -/
def callMachine : Machine :=
  { Machine.new 16 none with
    arena := ⟨#[⟨.pair ⟨1⟩, .pair ⟨8⟩, false⟩, ⟨.atom (Builtin.atom .lambda), .pair ⟨2⟩, false⟩,
      ⟨.pair ⟨3⟩, .pair ⟨4⟩, false⟩, ⟨.atom ⟨11⟩, .nil, false⟩, ⟨.pair ⟨5⟩, .nil, false⟩,
      ⟨.atom (Builtin.atom .cons), .pair ⟨6⟩, false⟩, ⟨.atom ⟨11⟩, .pair ⟨7⟩, false⟩,
      ⟨.atom ⟨11⟩, .nil, false⟩, ⟨.atom .t, .nil, false⟩], [], 16, ⟨0, 0⟩⟩ }

/-- The expression in `callMachine`. -/
def callTree : Tree :=
  .pair (.pair (.atom (Builtin.atom .lambda)) (.pair (.pair (.atom ⟨11⟩) .nil)
    (.pair (.pair (.atom (Builtin.atom .cons)) (.pair (.atom ⟨11⟩) (.pair (.atom ⟨11⟩) .nil)))
      .nil))) (.pair (.atom .t) .nil)

theorem callMachine_unfolds : callMachine.arena.Unfolds (.pair ⟨0⟩) callTree := by
  have hx : callMachine.arena.Unfolds (.atom ⟨11⟩) (.atom ⟨11⟩) := .atom (by decide)
  have hbody : callMachine.arena.Unfolds (.pair ⟨5⟩) _ :=
    .pair rfl (.atom (by decide)) (.pair rfl hx (.pair rfl hx .nil))
  have hlambda : callMachine.arena.Unfolds (.pair ⟨1⟩) _ :=
    .pair rfl (.atom (by decide)) (.pair rfl (.pair rfl hx .nil) (.pair rfl hbody .nil))
  exact .pair rfl hlambda (.pair rfl (.atom (by decide)) .nil)

/-- The call gives the pair of `t` and `t` in the arena as it does for trees. -/
theorem evalIn_evaluates_callMachine : ∃ v m₂,
    (evalIn 4 (.pair ⟨0⟩) .top).run callMachine = .ok v m₂ ∧
      m₂.Shows v (.pair (.atom .t) (.atom .t)) ∧
      Tree.Evaluates callMachine.lexicon callTree (.atom .topLevel)
        (.ok (.pair (.atom .t) (.atom .t))) := by
  have hapart : (evalApart 4 (.pair ⟨0⟩) .top).run callMachine =
      (evalIn 4 (.pair ⟨0⟩) .top).run callMachine := by
    rcases evalApart_cuts 4 (.pair ⟨0⟩) .top callMachine with h | ⟨m', h⟩
    · exact h
    · cases h
  have hcoherent : callMachine.Coherent := by decide
  have hscope : callMachine.Secures Scope.top.value (.atom .topLevel) := ⟨nofun, .atom (by decide)⟩
  have h := evalIn_evaluates 4 hcoherent ⟨by decide, callMachine_unfolds⟩ hscope hapart
  cases hrun : (evalIn 4 (.pair ⟨0⟩) .top).run callMachine with
  | error e m₂ => cases hrun
  | ok v m₂ =>
    rw [hrun] at h
    obtain ⟨t, hshows, heval⟩ := h
    have ht : t = .pair (.atom .t) (.atom .t) := Except.ok.inj (heval.unique ⟨nofun, 4, rfl⟩)
    subst ht
    exact ⟨v, m₂, rfl, hshows, heval⟩

end ArenaLisp
