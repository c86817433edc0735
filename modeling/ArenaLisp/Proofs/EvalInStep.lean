import ArenaLisp.Proofs.Lookup
import ArenaLisp.Proofs.Views

/-!
# Evaluation in step

Two machines in a world evaluate expressions that correspond, in scopes that correspond and are held,
to values that correspond (`evalIn_inStep`).  There is one lemma for each action of the evaluator,
given that the evaluator for what is inside keeps step.  The loops that bind replace the innermost
root by the scope as it grows, and so their lemmas look at the machine as it is without that root.
-/

namespace ArenaLisp

/-- Two evaluators that do the same in every world, on expressions that correspond and in scopes that
are held. -/
def EvalInStep (M : Mode) (ev ev' : Evaluator) : Prop :=
  ∀ {w : World} {expr expr' : Value} {scope scope' : Scope}, w.Ok M → w.Rel expr expr' →
    w.Held scope.value scope'.value →
    InStep M w (ev expr scope) (ev' expr' scope') fun w₂ v v' => w₂.Rel v v'

namespace InStep

variable {M : Mode} {w : World} {args args' v v' u u' : Value} {scope scope' : Scope}
  {x x' : CellId} {ev ev' : Evaluator}

/-! ### Reading -/

theorem car (hw : w.Ok M) (hx : w.ren.cell x x') :
    InStep M w (Action.car x) (Action.car x') fun w₂ c c' => w₂ = w ∧ w.Part (.pair x) c c' :=
  asking hw (hw.car hx)

theorem cdr (hw : w.Ok M) (hx : w.ren.cell x x') :
    InStep M w (Action.cdr x) (Action.cdr x') fun w₂ c c' => w₂ = w ∧ w.Part (.pair x) c c' :=
  asking hw (hw.cdr hx)

theorem render (hw : w.Ok M) (hv : w.Rel v v') :
    InStep M w (Action.render v) (Action.render v') fun w₂ s s' => w₂ = w ∧ s = s' :=
  asking hw (hw.render hv)

theorem operand (b : Builtin) (hw : w.Ok M) (hargs : w.Rel args args') :
    InStep M w (Eval.operand b args) (Eval.operand b args')
      fun w₂ c c' => w₂ = w ∧ w.Part args c c' := by
  refine (asking hw (hw.one? hargs)).bind ?_
  rintro _ o o' - hw ⟨rfl, ho⟩
  cases ho with
  | none => exact .throw hw nofun
  | some h => exact .pure hw ⟨rfl, h⟩

theorem operands (b : Builtin) (hw : w.Ok M) (hargs : w.Rel args args') :
    InStep M w (Eval.operands b args) (Eval.operands b args')
      fun w₂ p p' => w₂ = w ∧ w.Part args p.1 p'.1 ∧ w.Part args p.2 p'.2 := by
  refine (asking hw (hw.two? hargs)).bind ?_
  rintro _ o o' - hw ⟨rfl, ho⟩
  cases ho with
  | none => exact .throw hw nofun
  | some h => exact .pure hw ⟨rfl, h⟩

/-- The value of a name, in scopes that correspond. -/
theorem evalAtom {i i' : AtomId} (hw : w.Ok M) (hi : w.ren.Alike i i')
    (hname : w.left.lexicon.name i = w.right.lexicon.name i')
    (hscope : w.Rel scope.value scope'.value) :
    InStep M w (Eval.evalAtom i scope) (Eval.evalAtom i' scope') fun w₂ v v' => w₂.Rel v v' := by
  unfold Eval.evalAtom
  have ht : i = .t ↔ i' = .t := by
    rw [eq_comm, hi _ _ (hw.lawful.fixed (by decide)), eq_comm]
  rw [if_congr ht rfl rfl]
  split
  · exact .pure hw (.atom (hw.lawful.fixed (by decide)))
  · refine (asking hw (hw.lookup hi hscope)).bind ?_
    rintro _ o o' - hw ⟨rfl, ho⟩
    cases ho with
    | some h => exact .pure hw h.1
    | none =>
      refine .get ?_
      rw [hname]
      exact .throw hw nofun

/-! ### Changing the machine -/

/-- A record on both sides, of whatever. -/
theorem record (hw : w.Ok M) (r r' : Record) :
    InStep M w (modify (Machine.record r)) (modify (Machine.record r'))
      fun w₂ _ _ => w₂ = ⟨w.ren, w.left.record r, w.right.record r'⟩ := by
  have hleft := Machine.keeps_record hw.left r
  have hright := Machine.keeps_record hw.right r'
  refine .inr ⟨(), w.right.record r', w.ren, rfl,
    ⟨hleft, hright, fun _ _ _ _ hx => hx, fun _ _ hi => hi⟩, ?_, rfl⟩
  exact { hw with
    left := hleft.coherent
    right := hright.coherent
    threshold := hright.threshold.trans (hw.threshold.trans hleft.threshold.symm) }

/-- Calls are recorded alike.  Nothing but the logs changes, so that values which are not held go on
corresponding. -/
theorem recordCall (hw : w.Ok M) (hv : w.Rel v v') (hu : w.Rel u u') :
    InStep M w (Eval.recordCall v u) (Eval.recordCall v' u')
      fun w₂ _ _ => w₂.ren = w.ren ∧ w₂.left.arena = w.left.arena := by
  unfold Eval.recordCall
  refine .get ?_
  have henabled : w.right.log.enabled .trace = w.left.log.enabled .trace := by
    rw [Log.enabled, Log.enabled, hw.threshold]
  rw [henabled]
  split
  · refine (InStep.render hw hv).bind ?_
    rintro _ s s' - hw ⟨rfl, -⟩
    refine (InStep.render hw hu).bind ?_
    rintro _ t t' - hw ⟨rfl, -⟩
    refine (record hw _ _).mono ?_
    rintro _ _ _ - - rfl
    exact ⟨rfl, rfl⟩
  · exact .pure hw ⟨rfl, rfl⟩

/-- A binding in front of a scope that is held. -/
theorem extend (hw : w.Ok M) (hu : w.Rel u u') (hv : w.Rel v v')
    (hscope : w.Held scope.value scope'.value) :
    InStep M w (scope.extend u v) (scope'.extend u' v')
      fun w₂ s s' => w₂.Rel s.value s'.value := by
  refine (cons hw hu hv).bind fun w₂ e e' hnext hw₂ he => ?_
  refine (cons hw₂ he (hscope.next hnext).1).bind fun w₃ s s' _ hw₃ hs => ?_
  exact .pure hw₃ hs

/-- Evaluating an expression and binding a name to its value in front of the scope, which is the innermost
root and gives way to the new one. -/
theorem bindNext {α β : Type} {Q : World → α → β → Prop} {expr expr' : Value} {caller caller' : Scope}
    {rest : Value → Scope → Action α} {rest' : Value → Scope → Action β} (hev : EvalInStep M ev ev')
    (hw : w.Ok M) (hscope : w.Rel scope.value scope'.value) (hexpr : w.Rel expr expr')
    (hcaller : (w.pin scope.value scope'.value).Held caller.value caller'.value) (hu : w.Held u u')
    (hrest : ∀ w₂ v v' s s', w.Next w₂ → w₂.Ok M → w₂.Rel s.value s'.value →
      InStep M w₂ (Action.pinned s.value (rest v s)) (Action.pinned s'.value (rest' v' s')) Q) :
    InStep M w
      (Action.pinned scope.value do
        let v ← ev expr caller
        let s ← scope.extend u v
        Action.repin s.value
        rest v s)
      (Action.pinned scope'.value do
        let v ← ev' expr' caller'
        let s ← scope'.extend u' v
        Action.repin s.value
        rest' v s) Q := by
  refine .pinned_bind (hev (hw.pin hscope) hexpr hcaller) ?_
  intro w₂ v v' hnext hinner hw hpin hv
  -- the scope is still pinned when it is extended
  refine .pinned_bind
    (extend hpin (hu.next hnext).1 hv ((World.held_pin hscope).next hinner)) ?_
  rintro w₃ s s' hnext₃ - hw - hs
  rw [Action.pinned_repin, Action.pinned_repin]
  exact hrest w₃ v v' s s' (hnext.trans hnext₃) hw hs

/-! ### Special forms -/

/-- Taking a slot of the value of the operand. -/
theorem evalSlot (b : Builtin) {slot : CellId → Action Value}
    (hslot : ∀ {w : World} {x x' : CellId}, w.Ok M → w.ren.cell x x' →
      InStep M w (slot x) (slot x') fun w₂ c c' => w₂ = w ∧ w.Part (.pair x) c c')
    (hev : EvalInStep M ev ev') (hw : w.Ok M) (hargs : w.Rel args args')
    (hscope : w.Held scope.value scope'.value) :
    InStep M w (Eval.evalSlot ev b slot args scope) (Eval.evalSlot ev' b slot args' scope')
      fun w₂ v v' => w₂.Rel v v' := by
  refine (InStep.operand b hw hargs).bind ?_
  rintro _ e e' - hw ⟨rfl, he⟩
  refine (hev hw he.1 hscope).bind fun w₂ v v' _ hw₂ hv => ?_
  cases hv with
  | nil => exact .pure hw₂ .nil
  | atom _ | builtin _ => exact .throw hw₂ nofun
  | pair hx =>
    refine (hslot hw₂ hx).mono ?_
    rintro _ c c' - - ⟨rfl, hc⟩
    exact hc.1

/-- Evaluating two operands, the first value pinned during the second. -/
theorem evalBoth (b : Builtin) (hev : EvalInStep M ev ev') (hw : w.Ok M)
    (hargs : w.Held args args') (hscope : w.Held scope.value scope'.value) :
    InStep M w (Eval.evalBoth ev b args scope) (Eval.evalBoth ev' b args' scope')
      fun w₂ p p' => w₂.Rel p.1 p'.1 ∧ w₂.Rel p.2 p'.2 := by
  refine (InStep.operands b hw hargs.1).bind ?_
  rintro _ ⟨e, d⟩ ⟨e', d'⟩ - hw ⟨rfl, he, hd⟩
  have hd := hargs.part hw hd
  refine (hev hw he.1 hscope).bind fun w₂ x x' hnext hw₂ hx => ?_
  have hsecond : InStep M w₂ (Action.pinned x (ev d scope)) (Action.pinned x' (ev' d' scope'))
      fun w₃ y y' => w₃.Rel x x' ∧ w₃.Rel y y' := by
    refine .pinned ((hev (hw₂.pin hx) (hd.next hnext).pin.1 (hscope.next hnext).pin).mono ?_)
      fun _ _ _ h => h
    exact fun w₃ y y' hnext₃ _ hy => ⟨((World.held_pin hx).next hnext₃).1, hy⟩
  refine hsecond.bind fun w₃ y y' _ hw₃ h => ?_
  exact .pure hw₃ h

/-- Building a closure. -/
theorem makeClosure (hw : w.Ok M) (hargs : w.Rel args args')
    (hscope : w.Rel scope.value scope'.value) :
    InStep M w (Eval.makeClosure args scope) (Eval.makeClosure args' scope')
      fun w₂ v v' => w₂.Rel v v' := by
  refine (InStep.operands .lambda hw hargs).bind ?_
  rintro _ p p' - hw ⟨rfl, -⟩
  refine (cons hw hscope hargs).bind fun w₂ rest rest' _ hw₂ hrest => ?_
  exact cons hw₂ (.atom (hw₂.lawful.fixed (by decide))) hrest

/-- Going through the clauses of a `cond`. -/
theorem firstTrue (hev : EvalInStep M ev ev') (fuel : Nat) (hw : w.Ok M)
    (hargs : w.Held args args') (hscope : w.Held scope.value scope'.value) :
    InStep M w (Eval.firstTrue ev scope fuel args) (Eval.firstTrue ev' scope' fuel args')
      fun w₂ v v' => w₂.Rel v v' := by
  induction fuel generalizing w args args' with
  | zero => exact .throw hw nofun
  | succ fuel ih =>
    obtain ⟨hrel, hholds⟩ := hargs
    cases hrel with
    | nil | atom _ | builtin _ => exact .throw hw nofun
    | pair hx =>
      have hheld : w.Held (.pair _) (.pair _) := ⟨.pair hx, hholds⟩
      refine (InStep.car hw hx).bind ?_
      rintro _ clause clause' - hw ⟨rfl, hclause⟩
      refine (InStep.cdr hw hx).bind ?_
      rintro _ clauses clauses' - hw ⟨rfl, hclauses⟩
      refine (InStep.operands .cond hw hclause.1).bind ?_
      rintro _ ⟨test, result⟩ ⟨test', result'⟩ - hw ⟨rfl, htest, hresult⟩
      have hresult := hheld.part hw (hclause.trans hresult)
      have hclauses := hheld.part hw hclauses
      refine (hev hw htest.1 hscope).bind fun w₂ v v' hnext hw₂ hv => ?_
      rw [hv.isNil]
      split
      · exact ih hw₂ (hclauses.next hnext) (hscope.next hnext)
      · exact hev hw₂ (hresult.next hnext).1 (hscope.next hnext)

/-- Binding the bindings of a `let`, with the scope as the innermost root. -/
theorem bindInTurn {body body' : Value} (hev : EvalInStep M ev ev') (fuel : Nat) (hw : w.Ok M)
    (hbody : w.Held body body') (hargs : w.Held args args')
    (hscope : w.Rel scope.value scope'.value) :
    InStep M w (Action.pinned scope.value (Eval.bindInTurn ev body fuel args scope))
      (Action.pinned scope'.value (Eval.bindInTurn ev' body' fuel args' scope'))
      fun w₂ v v' => w₂.Rel v v' := by
  induction fuel generalizing w args args' scope scope' with
  | zero => exact .pinned (.throw (hw.pin hscope) nofun) fun _ _ _ h => h
  | succ fuel ih =>
    have hpinned := World.held_pin hscope
    obtain ⟨hrel, hholds⟩ := hargs
    cases hrel with
    | nil => exact .pinned (hev (hw.pin hscope) hbody.1 hpinned) fun _ _ _ h => h
    | atom _ | builtin _ => exact .pinned (.throw (hw.pin hscope) nofun) fun _ _ _ h => h
    | @pair x x' hx =>
      have hheld : w.Held (.pair x) (.pair x') := ⟨.pair hx, hholds⟩
      refine .pinned_bind (InStep.car (hw.pin hscope) hx) ?_
      rintro w₁ binding binding' - - hw hpin ⟨hsame, hbinding⟩
      obtain rfl := World.pin_injective hsame
      refine .pinned_bind (InStep.operands .letIn hpin hbinding.1) ?_
      rintro w₁ ⟨ident, expr⟩ ⟨ident', expr'⟩ - - hw hpin ⟨hsame, hident, hexpr⟩
      obtain rfl := World.pin_injective hsame
      have hident := hheld.part hw (hbinding.trans hident)
      dsimp only
      rw [hident.1.isAtom]
      split
      · refine bindNext hev hw hscope hexpr.1 hpinned hident ?_
        intro w₂ v v' s s' hnext hw hs
        have hheld := hheld.next hnext
        refine .pinned_bind (InStep.cdr (hw.pin hs) hheld.1.cell) ?_
        rintro w₃ rest rest' - - hw - ⟨hsame, hrest⟩
        obtain rfl := World.pin_injective hsame
        exact ih hw (hbody.next hnext) (hheld.part hw hrest) hs
      · exact .pinned (bind (InStep.throw hpin nofun (Q := fun _ _ _ => False)) fun _ _ _ _ _ h => h.elim)
          fun _ _ _ h => h

/-- Runs a special form on operands that are held. -/
theorem runSpecial (hev : EvalInStep M ev ev') (fuel : Nat) (b : Builtin) (hw : w.Ok M)
    (hargs : w.Held args args') (hscope : w.Held scope.value scope'.value) :
    InStep M w (Eval.runSpecial ev fuel b args scope) (Eval.runSpecial ev' fuel b args' scope')
      fun w₂ v v' => w₂.Rel v v' := by
  cases b with
  | quote =>
    refine (InStep.operand .quote hw hargs.1).mono ?_
    rintro _ v v' - - ⟨rfl, hv⟩
    exact hv.1
  | car => exact evalSlot .car InStep.car hev hw hargs.1 hscope
  | cdr => exact evalSlot .cdr InStep.cdr hev hw hargs.1 hscope
  | cons =>
    refine (evalBoth .cons hev hw hargs hscope).bind fun w₂ p p' _ hw₂ hp => ?_
    exact cons hw₂ hp.1 hp.2
  | eq =>
    refine (evalBoth .eq hev hw hargs hscope).bind fun w₂ p p' _ hw₂ hp => ?_
    have heq : (p.1 == p.2) = (p'.1 == p'.2) := by
      rw [Bool.eq_iff_iff, beq_iff_eq, beq_iff_eq]
      exact hw₂.lawful.eq_iff hw₂.cells hp.1 hp.2
    show InStep M w₂ (pure (Value.ofBool (p.1 == p.2)))
      (pure (Value.ofBool (p'.1 == p'.2))) _
    rw [heq]
    refine .pure hw₂ ?_
    unfold Value.ofBool
    split
    · exact .atom (hw₂.lawful.fixed (by decide))
    · exact .nil
  | lambda => exact makeClosure hw hargs.1 hscope.1
  | cond => exact firstTrue hev fuel hw hargs hscope
  | letIn =>
    refine (InStep.operands .letIn hw hargs.1).bind ?_
    rintro _ p p' - hw ⟨rfl, hbindings, hbody⟩
    exact bindInTurn hev fuel hw (hargs.part hw hbody) (hargs.part hw hbindings) hscope.1

/-! ### Closures -/

/-- Binding formals to actuals, with the scope as the innermost root. -/
theorem bindFormals {body body' : Value} {caller caller' : Scope} (hev : EvalInStep M ev ev')
    (fuel : Nat) (hw : w.Ok M) (hbody : w.Held body body')
    (hcaller : w.Held caller.value caller'.value) (hformals : w.Held u u')
    (hargs : w.Held args args') (hscope : w.Rel scope.value scope'.value) :
    InStep M w (Action.pinned scope.value (Eval.bindFormals ev body caller fuel u args scope))
      (Action.pinned scope'.value (Eval.bindFormals ev' body' caller' fuel u' args' scope'))
      fun w₂ v v' => w₂.Rel v v' := by
  induction fuel generalizing w u u' args args' scope scope' with
  | zero => exact .pinned (.throw (hw.pin hscope) nofun) fun _ _ _ h => h
  | succ fuel ih =>
    have hpinned := World.held_pin hscope
    have hthrow : ∀ e : Stop, e.Regular →
        InStep M w (Action.pinned scope.value (throw e : Action Value))
        (Action.pinned scope'.value (throw e : Action Value)) fun w₂ v v' => w₂.Rel v v' :=
      fun e he => .pinned (.throw (hw.pin hscope) he) fun _ _ _ h => h
    obtain ⟨hformals, hfholds⟩ := hformals
    obtain ⟨hargs, haholds⟩ := hargs
    cases hformals with
    | nil =>
      cases hargs with
      | nil => exact .pinned (hev (hw.pin hscope) hbody.1 hpinned) fun _ _ _ h => h
      | atom _ | builtin _ | pair _ => exact hthrow _ nofun
    | atom _ | builtin _ => cases hargs <;> exact hthrow _ nofun
    | @pair f f' hf =>
      cases hargs with
      | nil | atom _ | builtin _ => exact hthrow _ nofun
      | @pair a a' ha =>
        have hformals : w.Held (.pair f) (.pair f') := ⟨.pair hf, hfholds⟩
        have hargs : w.Held (.pair a) (.pair a') := ⟨.pair ha, haholds⟩
        refine .pinned_bind (InStep.car (hw.pin hscope) hf) ?_
        rintro w₁ ident ident' - - hw hpin ⟨hsame, hident⟩
        obtain rfl := World.pin_injective hsame
        have hident := hformals.part hw hident
        dsimp only
        rw [hident.1.isAtom]
        split
        · refine .pinned_bind (InStep.car hpin ha) ?_
          rintro w₁ actual actual' - - hw hpin ⟨hsame, hactual⟩
          obtain rfl := World.pin_injective hsame
          refine bindNext hev hw hscope hactual.1 hcaller.pin hident ?_
          intro w₂ v v' s s' hnext hw hs
          have hformals := hformals.next hnext
          have hargs := hargs.next hnext
          refine .pinned_bind (InStep.cdr (hw.pin hs) hformals.1.cell) ?_
          rintro w₃ formals formals' - - hw - ⟨hsame, hrest⟩
          obtain rfl := World.pin_injective hsame
          refine .pinned_bind (InStep.cdr (hw.pin hs) hargs.1.cell) ?_
          rintro w₃ actuals actuals' - - hw - ⟨hsame, hrest'⟩
          obtain rfl := World.pin_injective hsame
          exact ih hw (hbody.next hnext) (hcaller.next hnext) (hformals.part hw hrest)
            (hargs.part hw hrest') hs
        · exact .pinned (bind (InStep.throw hpin nofun (Q := fun _ _ _ => False)) fun _ _ _ _ _ h => h.elim)
            fun _ _ _ h => h

/-- Calling a closure, which nothing holds before its parts are pinned. -/
theorem callClosure {caller caller' : Scope} (hev : EvalInStep M ev ev') (fuel : Nat) (hw : w.Ok M)
    (hx : w.ren.cell x x') (hargs : w.Held args args')
    (hcaller : w.Held caller.value caller'.value) :
    InStep M w (Eval.callClosure ev fuel x args caller)
      (Eval.callClosure ev' fuel x' args' caller') fun w₂ v v' => w₂.Rel v v' := by
  refine (InStep.cdr hw hx).bind ?_
  rintro w rest rest' - hw ⟨rfl, hrest⟩
  refine (asking hw (hw.three? hrest.1)).bind ?_
  rintro w o o' - hw ⟨rfl, ho⟩
  cases ho with
  | none => exact .throw hw nofun
  | @some parts parts' h =>
    obtain ⟨captured, formals, body⟩ := parts
    obtain ⟨captured', formals', body'⟩ := parts'
    obtain ⟨hcaptured, hformals, hbody⟩ := h
    refine (InStep.recordCall hw hformals.1 hargs.1).bind ?_
    rintro w₂ _ _ hnext hw₂ hsame
    have hpart : ∀ {c c'}, w.Part rest c c' → w₂.Part rest c c' :=
      fun hc => hc.of_same hsame.1 hsame.2
    have hrest : w₂.Rel rest rest' := by
      rw [World.Rel, hsame.1]
      exact hrest.1
    refine .pinned (Q := fun w₂ v v' => w₂.Rel v v') ?_ fun _ _ _ h => h
    exact bindFormals hev fuel (hw₂.pin hrest) ((hpart hbody).held_pin hw₂ hrest)
      (hcaller.next hnext).pin ((hpart hformals).held_pin hw₂ hrest) (hargs.next hnext).pin
      (hpart hcaptured).1

/-! ### Expressions -/

/-- Applying what an operator evaluated to, which nothing holds. -/
theorem apply (hev : EvalInStep M ev ev') (fuel : Nat) (hw : w.Ok M) (hv : w.Rel v v')
    (hargs : w.Held args args') (hscope : w.Held scope.value scope'.value) :
    InStep M w (Eval.apply ev fuel v args scope) (Eval.apply ev' fuel v' args' scope')
      fun w₂ v v' => w₂.Rel v v' := by
  have hthrow : InStep M w (do throw (.failure (.notCallable (← Action.render v))) : Action Value)
      (do throw (.failure (.notCallable (← Action.render v'))) : Action Value)
      fun w₂ v v' => w₂.Rel v v' := by
    refine (InStep.render hw hv).bind ?_
    rintro _ s _ - hw ⟨rfl, rfl⟩
    exact .throw hw nofun
  cases hv with
  | nil | atom _ => exact hthrow
  | builtin b => exact runSpecial hev fuel b hw hargs hscope
  | pair hx =>
    refine (InStep.car hw hx).bind ?_
    rintro _ head head' - hw ⟨rfl, hhead⟩
    rw [if_congr (hw.lawful.eq_fixed_iff hhead.1 (i := .closure) (by decide)) rfl rfl]
    split
    · exact callClosure hev fuel hw hx hargs hscope
    · exact hthrow

/-- Evaluators keep step if those for what is inside do. -/
theorem step (hev : EvalInStep M ev ev') (fuel : Nat) :
    EvalInStep M (Eval.step ev fuel) (Eval.step ev' fuel) := by
  intro w expr expr' scope scope' hw hexpr hscope
  cases hexpr with
  | nil => exact .pure hw .nil
  | atom hi => exact evalAtom hw (hw.lawful.alike hi) (hw.names _ _ hi) hscope.1
  | builtin b => exact .throw hw nofun
  | @pair x x' hx =>
    have hheld := World.held_pin (w := w) (.pair hx)
    refine .pinned (Q := fun w₂ v v' => w₂.Rel v v') ?_ fun _ _ _ h => h
    refine (InStep.car (hw.pin (.pair hx)) hx).bind ?_
    rintro _ head head' - hw ⟨rfl, hhead⟩
    refine (InStep.cdr hw hx).bind ?_
    rintro _ args args' - hw ⟨rfl, hargs⟩
    refine (hev hw hhead.1 hscope.pin).bind fun w₂ op op' hnext hw₂ hop => ?_
    exact apply hev fuel hw₂ hop ((hheld.part hw hargs).next hnext) (hscope.pin.next hnext)

end InStep

/-- Evaluation keeps step. -/
theorem evalIn_inStep (M : Mode) (fuel : Nat) : EvalInStep M (evalIn fuel) (evalIn fuel) := by
  induction fuel with
  | zero => exact fun hw _ _ => .throw hw nofun
  | succ fuel ih => exact InStep.step ih fuel

/-- Expressions that correspond have values that do, at top level. -/
theorem InStep.eval {M : Mode} {w : World} {expr expr' : Value} (fuel : Nat) (hw : w.Ok M)
    (hexpr : w.Rel expr expr') :
    InStep M w (ArenaLisp.eval fuel expr) (ArenaLisp.eval fuel expr') fun w₂ v v' => w₂.Rel v v' :=
  evalIn_inStep M fuel hw hexpr ⟨.atom (hw.lawful.fixed (by decide)), nofun, nofun⟩

end ArenaLisp
