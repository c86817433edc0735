import ArenaLisp.Proofs.Acyclic
import ArenaLisp.Proofs.Lists
import ArenaLisp.Proofs.Runs

/-!
# Runs of the evaluator

One lemma for each action of the evaluator: on clean values it runs along every trail that goes on along
bindings, and its value is clean.  The special forms need a trail that goes on along all allocations;
where the alphabet has no builtins, other handlers may stand in their place.  Walks along lists and
searches for names are not cut off if there are no cycles and the bound on the walks is greater than the
capacity (`Trail.Walks`).
-/

namespace ArenaLisp

/-! ### Walks along lists -/

namespace Trail

/-- Whether a list has fewer than `k` pairs, or walks may be cut off. -/
def Spans (T : Trail) (m : Machine) (k : Nat) (v : Value) : Prop :=
  T.Cut ∨ ∃ n, n < k ∧ m.arena.Short n v

/-- Whether all lists have fewer than `k` pairs, or walks may be cut off. -/
def Walks (T : Trail) (k : Nat) : Prop :=
  T.Cut ∨ ∀ m, T.Sound m → m.arena.Acyclic ∧ m.arena.capacity.toNat < k

variable {T : Trail} {m m₂ : Machine} {k : Nat} {v c : Value} {id : CellId}

theorem Walks.spans (h : T.Walks k) (hm : T.Sound m) (hv : ¬ m.arena.Dangling v) :
    T.Spans m k v := by
  refine h.imp_right fun h => ?_
  obtain ⟨hacyclic, hk⟩ := h m hm
  have ha := (T.coherent hm).arena
  exact ⟨m.arena.used, ha.used_le.trans_lt hk, hacyclic.short ha hv Arena.reachCount_le_used⟩

theorem Walks.lookup {scope : Scope} (h : T.Walks k) (hm : T.Sound m) (i : AtomId)
    (hv : ¬ m.arena.Dangling scope.value) : T.Cut ∨ Completes (scope.lookup m.arena i) :=
  h.imp_right fun h => (h m hm).1.lookup_completes (T.coherent hm).arena i hv

namespace Spans

/-- A list that is held keeps its length. -/
theorem keeps (hv : m.Holds v) (h : T.Spans m k v) (hkeeps : m.Keeps m₂) : T.Spans m₂ k v :=
  h.imp_right fun ⟨n, hk, hshort⟩ => ⟨n, hk, hshort.transfer (hkeeps.agreeOn hv)⟩

theorem cut_of_zero (h : T.Spans m 0 v) : T.Cut :=
  h.resolve_right fun ⟨_, hk, _⟩ => absurd hk (Nat.not_lt_zero _)

theorem tail (h : T.Spans m (k + 1) (.pair id)) (hcdr : m.arena.cdr id = .ok c) :
    T.Spans m k c := by
  rw [← Arena.graph_snd_of_cdr hcdr]
  refine h.imp_right fun ⟨n, hk, hshort⟩ => ?_
  cases n with
  | zero => exact hshort.elim
  | succ n => exact ⟨n, by omega, hshort⟩

end Spans

end Trail

/-! ### Other handlers for the special forms -/

namespace Eval

/-- Applies an operator, with other handlers for the special forms. -/
def applyWith (special : Builtin → Value → Scope → Action Value) (ev : Evaluator) (fuel : Nat)
    (op args : Value) (scope : Scope) : Action Value :=
  match op with
  | .builtin b => special b args scope
  | op => apply ev fuel op args scope

/-- Evaluates an expression, with other handlers for the special forms. -/
def stepWith (special : Builtin → Value → Scope → Action Value) (ev : Evaluator) (fuel : Nat) :
    Evaluator
  | .pair id, scope => Action.pinned (.pair id) do
    let head ← Action.car id
    let args ← Action.cdr id
    applyWith special ev fuel (← ev head scope) args scope
  | expr, scope => step ev fuel expr scope

theorem applyWith_runSpecial (ev : Evaluator) (fuel : Nat) :
    applyWith (runSpecial ev fuel) ev fuel = apply ev fuel := by
  funext op args scope
  cases op <;> rfl

theorem stepWith_runSpecial (ev : Evaluator) (fuel : Nat) :
    stepWith (runSpecial ev fuel) ev fuel = step ev fuel := by
  funext expr scope
  cases expr with
  | nil | atom _ | builtin _ => rfl
  | pair id =>
    rw [stepWith, applyWith_runSpecial]
    rfl

end Eval

/-- Handlers for the special forms, given the evaluation of what is inside and a bound. -/
abbrev Handlers := Evaluator → Nat → Builtin → Value → Scope → Action Value

/-- Evaluates an expression in a scope, with other handlers for the special forms. -/
def evalWith (special : Handlers) : Nat → Evaluator
  | 0, _, _ => throw .unfinished
  | fuel + 1, expr, scope =>
    Eval.stepWith (special (evalWith special fuel) fuel) (evalWith special fuel) fuel expr scope

theorem evalWith_runSpecial (fuel : Nat) : evalWith Eval.runSpecial fuel = evalIn fuel := by
  induction fuel with
  | zero => rfl
  | succ fuel ih =>
    funext expr scope
    rw [evalWith, ih, Eval.stepWith_runSpecial]
    rfl

/-! ### The actions of the evaluator -/

/-- Two evaluators with the same runs on clean values, along a trail and to clean values. -/
def EvalRuns (A : Alphabet) (T : Trail) (ev ev' : Evaluator) : Prop :=
  ∀ {m : Machine} {expr : Value} {scope : Scope}, T.Sound m → m.Clean A expr →
    m.Guards A scope.value → Runs T m (ev expr scope) (ev' expr scope) fun m₂ v => m₂.Clean A v

namespace Runs

variable {A : Alphabet} {T : Trail} {m : Machine} {ev ev' : Evaluator} {args u v : Value}
  {scope : Scope} {k : Nat}

theorem operand (b : Builtin) (hm : m.Coherent) (hargs : m.Clean A args) :
    Runs T m (Eval.operand b args) (Eval.operand b args)
      fun m₂ x => m₂ = m ∧ m.Piece A args x := by
  refine asking_bind (f := (·.arena.one? args)) (.inr (m.arena.one?_completes _)) fun o ho => ?_
  cases o with
  | none => exact .throw nofun
  | some x => exact .pure hm ⟨rfl, Machine.piece_one hm hargs ho⟩

theorem operands (b : Builtin) (hm : m.Coherent) (hargs : m.Clean A args) :
    Runs T m (Eval.operands b args) (Eval.operands b args)
      fun m₂ p => m₂ = m ∧ (m.Piece A args p.1 ∧ m.Piece A args p.2) ∧ m.arena.Lists args [p.1, p.2] := by
  refine asking_bind (f := (·.arena.two? args)) (.inr (m.arena.two?_completes _)) fun o ho => ?_
  cases o with
  | none => exact .throw nofun
  | some p => exact .pure hm ⟨rfl, Machine.piece_two hm hargs ho, (Arena.two?_spec ho).mp rfl⟩

/-- The value of a name. -/
theorem evalAtom (hwalks : T.Walks k) (i : AtomId) (hm : T.Sound m)
    (hscope : m.Clean A scope.value) :
    Runs T m (Eval.evalAtom i scope) (Eval.evalAtom i scope) fun m₂ v => m₂.Clean A v := by
  have hcoherent := T.coherent hm
  unfold Eval.evalAtom
  split
  · exact .pure hcoherent (Machine.clean_atom (by decide))
  · refine asking_bind (f := (scope.lookup ·.arena i)) (hwalks.lookup hm i hscope.not_dangling) ?_
    intro o ho
    cases o with
    | none => exact .get (.throw nofun)
    | some v => exact .pure hcoherent (Machine.piece_lookup hcoherent hscope ho).clean

/-- Calls are recorded without a trace in the arena. -/
theorem recordCall (hm : m.Coherent) :
    Runs T m (Eval.recordCall u v) (Eval.recordCall u v)
      fun m₂ _ => m₂.arena = m.arena ∧ m₂.lexicon = m.lexicon := by
  unfold Eval.recordCall
  refine .get ?_
  split
  · refine asking_bind (f := (·.render u)) (.inr (m.render_completes u)) fun shown _ => ?_
    refine asking_bind (f := (·.render v)) (.inr (m.render_completes v)) fun shown' _ => ⟨rfl, ?_⟩
    exact ⟨⟨Machine.keeps_record hm _, .refl, T.record m _⟩, rfl, rfl⟩
  · exact .pure hm ⟨rfl, rfl⟩

/-- Evaluating an expression and binding a name to its value in front of the scope, which is the innermost
root and gives way to the new one. -/
theorem bindNext {α : Type} {Q : Machine → α → Prop} {expr ident : Value} {caller : Scope}
    {rest rest' : Value → Scope → Action α} (hbinds : T.Binds A) (hev : EvalRuns A T ev ev')
    (hm : T.Sound m) (hscope : m.Clean A scope.value) (hexpr : m.Guards A expr)
    (hcaller : (m.pin scope.value).Guards A caller.value) (hatom : ident.isAtom)
    (hident : m.Guards A ident)
    (hrest : ∀ m₂ v s, m.Goes T m₂ → m₂.Clean A s.value →
      Runs T m₂ (Action.pinned s.value (rest v s)) (Action.pinned s.value (rest' v s)) Q) :
    Runs T m
      (Action.pinned scope.value do
        let v ← ev expr caller
        let s ← scope.extend ident v
        Action.repin s.value
        rest v s)
      (Action.pinned scope.value do
        let v ← ev' expr caller
        let s ← scope.extend ident v
        Action.repin s.value
        rest' v s) Q := by
  refine pinned_bind (hev (T.sound_pin hm hscope.not_dangling) hexpr.pin.2 hcaller) ?_
  intro m₂ v hgoes hinner hv
  -- the scope is still pinned when it is extended
  refine pinned_bind (extend hbinds hinner.coherent hatom (hident.pin.goes hinner).2 hv
    (hscope.guards_pin.goes hinner)) ?_
  intro m₃ s hgoes₃ _ hs
  rw [Action.pinned_repin, Action.pinned_repin]
  exact hrest m₃ v s (hgoes.trans hgoes₃) hs

/-! ### Special forms -/

section Special

variable (hev : EvalRuns A T ev ev') (hm : T.Sound m) (hscope : m.Guards A scope.value)
include hev hm hscope

/-- Taking a slot of the value of the operand. -/
theorem evalSlot (b : Builtin) {slot : CellId → Action Value}
    (hslot : ∀ {m : Machine} {id : CellId}, m.Coherent → m.Clean A (.pair id) →
      Runs T m (slot id) (slot id) fun m₂ v => m₂.Clean A v)
    (hargs : m.Clean A args) :
    Runs T m (Eval.evalSlot ev b slot args scope) (Eval.evalSlot ev' b slot args scope)
      fun m₂ v => m₂.Clean A v := by
  refine (operand b (T.coherent hm) hargs).bind ?_
  rintro _ e - ⟨rfl, he⟩
  refine (hev hm he.clean hscope).bind fun m₂ v hgoes hv => ?_
  cases v with
  | nil => exact .pure hgoes.coherent Machine.clean_nil
  | atom _ | builtin _ => exact .throw nofun
  | pair id => exact hslot hgoes.coherent hv

/-- Evaluating two operands, the first value pinned during the second. -/
theorem evalBoth (b : Builtin) (hargs : m.Guards A args) :
    Runs T m (Eval.evalBoth ev b args scope) (Eval.evalBoth ev' b args scope)
      fun m₂ p => m₂.Clean A p.1 ∧ m₂.Clean A p.2 := by
  refine (operands b (T.coherent hm) hargs.2).bind ?_
  rintro _ ⟨e, d⟩ - ⟨rfl, ⟨he, hd⟩, -⟩
  refine (hev hm he.clean hscope).bind fun m₂ x hgoes hx => ?_
  have hpin := T.sound_pin (hgoes.sound hm) hx.not_dangling
  have hd := (hargs.piece hd).goes hgoes
  have hsecond : Runs T m₂ (Action.pinned x (ev d scope)) (Action.pinned x (ev' d scope))
      fun m₃ y => m₃.Clean A x ∧ m₃.Clean A y := by
    refine .pinned (Q := fun m₃ y => m₃.Clean A x ∧ m₃.Clean A y) ?_ fun _ _ h => h
    refine (hev hpin hd.pin.2 (hscope.goes hgoes).pin).mono fun m₃ y hgoes₃ hy => ?_
    exact ⟨(hx.guards_pin.goes hgoes₃).2, hy⟩
  exact hsecond.bind fun m₃ y hgoes₃ h => .pure hgoes₃.coherent h

omit hev in
/-- Building a closure. -/
theorem makeClosure (hbuilds : T.Builds A) (hargs : m.Clean A args) :
    Runs T m (Eval.makeClosure args scope) (Eval.makeClosure args scope)
      fun m₂ v => m₂.Clean A v := by
  have hm := T.coherent hm
  refine (operands .lambda hm hargs).bind ?_
  rintro _ p - ⟨rfl, -⟩
  refine (cons hbuilds hm hscope.2 hargs).bind fun m₂ rest hgoes hrest => ?_
  exact cons hbuilds hgoes.coherent (Machine.clean_atom (by decide)) hrest

/-- Going through the clauses of a `cond`. -/
theorem firstTrue (hargs : m.Guards A args) (hspans : T.Spans m k args) :
    Runs T m (Eval.firstTrue ev scope k args) (Eval.firstTrue ev' scope k args)
      fun m₂ v => m₂.Clean A v := by
  induction k generalizing m args with
  | zero => exact .throw fun _ => hspans.cut_of_zero
  | succ k ih =>
    have hcoherent := T.coherent hm
    cases args with
    | nil | atom _ | builtin _ => exact .throw nofun
    | pair id =>
      refine asking_bind (f := (·.arena.car id)) (.inr (m.arena.car_completes id)) ?_
      intro clause hclause
      refine asking_bind (f := (·.arena.cdr id)) (.inr (m.arena.cdr_completes id)) ?_
      intro clauses hclauses
      have hspans := hspans.tail hclauses
      have hclause := hargs.2.piece_car hcoherent hclause
      have hclauses := hargs.piece (hargs.2.piece_cdr hcoherent hclauses)
      refine (operands .cond hcoherent hclause.clean).bind ?_
      rintro _ ⟨test, result⟩ - ⟨rfl, ⟨htest, hresult⟩, -⟩
      have hresult := hargs.piece (hclause.trans hresult)
      refine (hev hm htest.clean hscope).bind fun m₂ v hgoes hv => ?_
      have hm₂ := hgoes.sound hm
      split
      · exact ih hm₂ (hscope.goes hgoes) (hclauses.goes hgoes)
          (hspans.keeps hclauses.1 hgoes.keeps)
      · exact hev hm₂ (hresult.goes hgoes).2 (hscope.goes hgoes)

omit hscope in
/-- Binding the bindings of a `let`, with the scope as the innermost root.  There is a value only if all of
them have the shape of bindings. -/
theorem bindInTurn {body : Value} (hbinds : T.Binds A) (hbody : m.Guards A body)
    (hargs : m.Guards A args) (hspans : T.Spans m k args) (hscope : m.Clean A scope.value) :
    Runs T m (Action.pinned scope.value (Eval.bindInTurn ev body k args scope))
      (Action.pinned scope.value (Eval.bindInTurn ev' body k args scope))
      fun m₂ v => m₂.Clean A v ∧ m.arena.ListOf m.arena.IsBinding args := by
  induction k generalizing m args scope with
  | zero =>
    exact .pinned (Q := fun _ _ => False) (.throw fun _ => hspans.cut_of_zero) fun _ _ h => h.elim
  | succ k ih =>
    have hpin := T.sound_pin hm hscope.not_dangling
    cases args with
    | nil => exact .pinned (hev hpin hbody.pin.2 hscope.guards_pin) fun _ _ h => ⟨h, .nil⟩
    | atom _ | builtin _ =>
      exact .pinned (Q := fun _ _ => False) (.throw nofun) fun _ _ h => h.elim
    | pair id =>
      refine pinned_asking_bind (f := (·.arena.car id)) (m.arena.car_completes id) ?_
      intro binding hcar
      have hbinding := hargs.2.piece_car (T.coherent hm) hcar
      refine pinned_bind (operands (A := A) .letIn (T.coherent hpin) hbinding.clean) ?_
      rintro m₂ ⟨ident, expr⟩ - - ⟨hsame, ⟨hident, hexpr⟩, hlists⟩
      have hsame : m₂ = m := congrArg Machine.unpin hsame
      subst m₂
      have hident : m.Guards A ident := hargs.piece (hbinding.trans ⟨hident.leads, hident.clean⟩)
      have hexpr : m.Guards A expr := hargs.piece (hbinding.trans ⟨hexpr.leads, hexpr.clean⟩)
      dsimp only
      split
      · rename_i hatom
        have hbinding : m.arena.IsBinding (m.arena.graph id).1 := by
          have hfst : (m.arena.graph id).1 = binding := Arena.graph_fst_of_car hcar
          exact ⟨ident, expr, hfst ▸ hlists, hatom⟩
        refine bindNext hbinds hev hm hscope hexpr hscope.guards_pin hatom hident ?_
        intro m₃ v s hgoes hs
        have hm₃ := hgoes.sound hm
        have hargs₃ := hargs.goes hgoes
        refine pinned_asking_bind (f := (·.arena.cdr id)) (m₃.arena.cdr_completes id) ?_
        intro rest hrest
        have hbindings := hargs₃.piece (hargs₃.2.piece_cdr (T.coherent hm₃) hrest)
        have hspans := (hspans.keeps hargs.1 hgoes.keeps).tail hrest
        -- the rest of the bindings already looked like this before the first of them was bound
        have hagree := hgoes.keeps.agreeOn hargs.1
        have hcdr : (m₃.arena.graph id).2 = rest := Arena.graph_snd_of_cdr hrest
        rw [hagree.graph] at hcdr
        subst hcdr
        refine (ih hm₃ (hbody.goes hgoes) hbindings hspans hs).mono fun m₄ v _ ⟨hv, hrest⟩ => ⟨hv, ?_⟩
        exact .cons hbinding (hrest.transfer hagree.cdr.symm fun x hx h => h.transfer hx)
      · exact .pinned (Q := fun _ _ => False) (.throw nofun) fun _ _ h => h.elim

/-- Runs a special form on operands that are guarded. -/
theorem runSpecial (b : Builtin) (hbuilds : T.Builds A) (hwalks : T.Walks k)
    (hargs : m.Guards A args) :
    Runs T m (Eval.runSpecial ev k b args scope) (Eval.runSpecial ev' k b args scope)
      fun m₂ v => m₂.Clean A v := by
  cases b with
  | quote =>
    refine (operand .quote (T.coherent hm) hargs.2).mono ?_
    rintro _ v - ⟨rfl, hv⟩
    exact hv.clean
  | car =>
    refine evalSlot hev hm hscope .car (fun {m id} hm hx => ?_) hargs.2
    refine (asking (f := (·.arena.car _)) hm (m.arena.car_completes id)).mono ?_
    rintro _ c - ⟨rfl, hc⟩
    exact (hx.piece_car hm hc).clean
  | cdr =>
    refine evalSlot hev hm hscope .cdr (fun {m id} hm hx => ?_) hargs.2
    refine (asking (f := (·.arena.cdr _)) hm (m.arena.cdr_completes id)).mono ?_
    rintro _ c - ⟨rfl, hc⟩
    exact (hx.piece_cdr hm hc).clean
  | cons =>
    refine (evalBoth hev hm hscope .cons hargs).bind fun m₂ p hgoes hp => ?_
    exact cons hbuilds hgoes.coherent hp.1 hp.2
  | eq =>
    refine (evalBoth hev hm hscope .eq hargs).bind fun m₂ p hgoes _ => ?_
    refine .pure hgoes.coherent ?_
    cases p.1 == p.2 with
    | false => exact Machine.clean_nil
    | true => exact Machine.clean_atom (by decide)
  | lambda => exact makeClosure hm hscope hbuilds hargs.2
  | cond => exact firstTrue hev hm hscope hargs (hwalks.spans hm hargs.2.not_dangling)
  | letIn =>
    refine (operands .letIn (T.coherent hm) hargs.2).bind ?_
    rintro _ p - ⟨rfl, ⟨hbindings, hbody⟩, -⟩
    exact (bindInTurn hev hm hbuilds.binds (hargs.piece hbody) (hargs.piece hbindings)
      (hwalks.spans hm hbindings.clean.not_dangling) hscope.2).mono fun _ _ _ h => h.1

end Special

/-! ### Closures -/

section Closure

variable {caller : Scope} (hbinds : T.Binds A) (hev : EvalRuns A T ev ev') (hm : T.Sound m)
  (hcaller : m.Guards A caller.value) (hargs : m.Guards A args)
include hbinds hev hm hcaller hargs

/-- Binding formals to actuals, with the scope as the innermost root. -/
theorem bindFormals {body formals : Value} (hspans : T.Spans m k args) (hbody : m.Guards A body)
    (hformals : m.Guards A formals) (hscope : m.Clean A scope.value) :
    Runs T m (Action.pinned scope.value (Eval.bindFormals ev body caller k formals args scope))
      (Action.pinned scope.value (Eval.bindFormals ev' body caller k formals args scope))
      fun m₂ v => m₂.Clean A v := by
  induction k generalizing m formals args scope with
  | zero =>
    exact .pinned (Q := fun _ _ => False) (.throw fun _ => hspans.cut_of_zero) fun _ _ h => h.elim
  | succ k ih =>
    have hcoherent := T.coherent hm
    have hpin := T.sound_pin hm hscope.not_dangling
    have hthrow : ∀ {e : Stop}, (e = .unfinished → T.Cut) →
        Runs T m (Action.pinned scope.value (throw e : Action Value))
          (Action.pinned scope.value (throw e)) fun m₂ v => m₂.Clean A v :=
      fun he => .pinned (Q := fun _ _ => False) (.throw he) fun _ _ h => h.elim
    cases formals with
    | nil =>
      cases args with
      | nil => exact .pinned (hev hpin hbody.pin.2 hscope.guards_pin) fun _ _ h => h
      | atom _ | builtin _ | pair _ => exact hthrow nofun
    | atom _ | builtin _ => cases args <;> exact hthrow nofun
    | pair f =>
      cases args with
      | nil | atom _ | builtin _ => exact hthrow nofun
      | pair a =>
        refine pinned_asking_bind (f := (·.arena.car f)) (m.arena.car_completes f) ?_
        intro ident hident
        have hident := hformals.piece (hformals.2.piece_car hcoherent hident)
        dsimp only
        split
        · rename_i hatom
          refine pinned_asking_bind (f := (·.arena.car a)) (m.arena.car_completes a) ?_
          intro actual hactual
          have hactual := hargs.piece (hargs.2.piece_car hcoherent hactual)
          refine bindNext hbinds hev hm hscope hactual hcaller.pin hatom hident ?_
          intro m₃ v s hgoes hs
          have hm₃ := hgoes.sound hm
          have hcoherent₃ := hgoes.coherent
          have hformals₃ := hformals.goes hgoes
          have hargs₃ := hargs.goes hgoes
          refine pinned_asking_bind (f := (·.arena.cdr f)) (m₃.arena.cdr_completes f) ?_
          intro formals hrest
          refine pinned_asking_bind (f := (·.arena.cdr a)) (m₃.arena.cdr_completes a) ?_
          intro actuals hrest'
          exact ih hm₃ (hcaller.goes hgoes) (hargs₃.piece (hargs₃.2.piece_cdr hcoherent₃ hrest'))
            ((hspans.keeps hargs.1 hgoes.keeps).tail hrest') (hbody.goes hgoes)
            (hformals₃.piece (hformals₃.2.piece_cdr hcoherent₃ hrest)) hs
        · exact hthrow nofun

/-- Calling a closure, which nothing guards before its parts are pinned. -/
theorem callClosure {x : CellId} (hwalks : T.Walks k) (hx : m.Clean A (.pair x)) :
    Runs T m (Eval.callClosure ev k x args caller) (Eval.callClosure ev' k x args caller)
      fun m₂ v => m₂.Clean A v := by
  have hcoherent := T.coherent hm
  refine asking_bind (f := (·.arena.cdr x)) (.inr (m.arena.cdr_completes x)) fun rest hrest => ?_
  refine asking_bind (f := (·.arena.three? rest)) (.inr (m.arena.three?_completes rest)) ?_
  intro parts hparts
  have hrest := hx.piece_cdr hcoherent hrest
  cases parts with
  | none => exact .throw nofun
  | some parts =>
    obtain ⟨captured, formals, body⟩ := parts
    obtain ⟨hcaptured, hformals, hbody⟩ := Machine.piece_three hcoherent hrest.clean hparts
    refine (recordCall hcoherent).bind fun m₂ _ hgoes ⟨harena, hlexicon⟩ => ?_
    have hsame : ∀ {v c}, m.Piece A v c → m₂.Piece A v c := fun h => h.of_same harena hlexicon
    have hrest := (hsame hrest).clean
    have hpin := T.sound_pin (hgoes.sound hm) hrest.not_dangling
    have hargs₂ : (m₂.pin rest).Guards A args := (hargs.goes hgoes).pin
    refine .pinned (Q := fun m₂ v => m₂.Clean A v) ?_ fun _ _ h => h
    exact bindFormals hbinds hev hpin (hcaller.goes hgoes).pin hargs₂
      (hwalks.spans hpin hargs₂.2.not_dangling) (hsame hbody).guards_pin
      (hsame hformals).guards_pin (hsame hcaptured).clean

end Closure

/-! ### Expressions -/

/-- Applying what an operator evaluated to.  The handler of a special form is only run if the alphabet
has builtins. -/
theorem applyWith {special : Builtin → Value → Scope → Action Value} (hbinds : T.Binds A)
    (hwalks : T.Walks k) (hev : EvalRuns A T ev ev') (hm : T.Sound m) (hv : m.Clean A v)
    (hargs : m.Guards A args) (hscope : m.Guards A scope.value)
    (hspecial : ∀ b, A.Has m.lexicon (.builtin b) →
      Runs T m (Eval.runSpecial ev k b args scope) (special b args scope) fun m₂ v => m₂.Clean A v) :
    Runs T m (Eval.apply ev k v args scope) (Eval.applyWith special ev' k v args scope)
      fun m₂ v => m₂.Clean A v := by
  have hthrow : ∀ op : Value, Runs T m
      (do throw (.failure (.notCallable (← Action.render op))) : Action Value)
      (do throw (.failure (.notCallable (← Action.render op))))
      fun m₂ v => m₂.Clean A v :=
    fun op => asking_bind (f := (·.render op)) (.inr (m.render_completes op)) fun _ _ => .throw nofun
  cases v with
  | nil | atom _ => exact hthrow _
  | builtin b => exact hspecial b hv.has
  | pair x =>
    refine asking_bind (f := (·.arena.car x)) (.inr (m.arena.car_completes x)) fun head _ => ?_
    split
    · exact callClosure hbinds hev hm hscope hargs hwalks hv
    · exact hthrow _

/-- Evaluating an expression, given the evaluation of what is inside it. -/
theorem stepWith {special : Builtin → Value → Scope → Action Value} {expr : Value}
    (hbinds : T.Binds A) (hwalks : T.Walks k) (hev : EvalRuns A T ev ev') (hm : T.Sound m)
    (hexpr : m.Clean A expr) (hscope : m.Guards A scope.value)
    (hspecial : ∀ {m : Machine} {args : Value} {b : Builtin}, A.Has m.lexicon (.builtin b) →
      T.Sound m → m.Guards A args → m.Guards A scope.value →
      Runs T m (Eval.runSpecial ev k b args scope) (special b args scope) fun m₂ v => m₂.Clean A v) :
    Runs T m (Eval.step ev k expr scope) (Eval.stepWith special ev' k expr scope)
      fun m₂ v => m₂.Clean A v := by
  cases expr with
  | nil => exact .pure (T.coherent hm) hexpr
  | atom i => exact evalAtom hwalks i hm hscope.2
  | builtin b => exact .throw nofun
  | pair id =>
    have hpin := T.sound_pin hm hexpr.not_dangling
    have hcoherent := T.coherent hpin
    have hexpr := hexpr.guards_pin
    refine .pinned (Q := fun m₂ v => m₂.Clean A v) ?_ fun _ _ h => h
    refine asking_bind (f := (·.arena.car id)) (.inr (m.arena.car_completes id)) fun head hhead => ?_
    refine asking_bind (f := (·.arena.cdr id)) (.inr (m.arena.cdr_completes id)) fun args hargs => ?_
    have hhead := (hexpr.2.piece_car hcoherent hhead).clean
    have hargs := hexpr.piece (hexpr.2.piece_cdr hcoherent hargs)
    refine (hev hpin hhead hscope.pin).bind fun m₂ op hgoes hop => ?_
    have hm₂ := hgoes.sound hpin
    have hargs₂ := hargs.goes hgoes
    have hscope₂ := hscope.pin.goes hgoes
    exact applyWith hbinds hwalks hev hm₂ hop hargs₂ hscope₂
      fun b hb => hspecial hb hm₂ hargs₂ hscope₂

/-- Evaluating an expression along a trail that goes on along all allocations. -/
theorem step {expr : Value} (hbuilds : T.Builds A) (hwalks : T.Walks k) (hev : EvalRuns A T ev ev')
    (hm : T.Sound m) (hexpr : m.Clean A expr) (hscope : m.Guards A scope.value) :
    Runs T m (Eval.step ev k expr scope) (Eval.step ev' k expr scope) fun m₂ v => m₂.Clean A v := by
  rw [← Eval.stepWith_runSpecial ev' k]
  exact stepWith hbuilds.binds hwalks hev hm hexpr hscope fun _ hm hargs hscope =>
    runSpecial hev hm hscope _ hbuilds hwalks hargs

end Runs

variable {A : Alphabet} {T : Trail}

/-- Evaluation runs along every trail that goes on along allocations, to clean values. -/
theorem evalIn_runs (hcut : T.Cut) (hbuilds : T.Builds A) (fuel : Nat) :
    EvalRuns A T (evalIn fuel) (evalIn fuel) := by
  induction fuel with
  | zero => exact fun _ _ _ => .throw fun _ => hcut
  | succ fuel ih => exact fun hm hexpr hscope => .step hbuilds (.inl hcut) ih hm hexpr hscope

/-- Without builtins in the alphabet, evaluation runs alike whatever the special forms do, and along
every trail that goes on along bindings. -/
theorem evalWith_runs (hcut : T.Cut) (hbinds : T.Binds A) (hbare : ∀ l b, ¬ A.Has l (.builtin b))
    (special : Handlers) (fuel : Nat) : EvalRuns A T (evalIn fuel) (evalWith special fuel) := by
  induction fuel with
  | zero => exact fun _ _ _ => .throw fun _ => hcut
  | succ fuel ih =>
    intro m expr scope hm hexpr hscope
    exact Runs.stepWith hbinds (.inl hcut) ih hm hexpr hscope fun hb => absurd hb (hbare _ _)

end ArenaLisp
