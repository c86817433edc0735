import ArenaLisp.Proofs.Computes

/-!
# Evaluation computes trees

One lemma for each action of the evaluator: on values that unfold it computes what the evaluator of
trees does, given that the evaluator for what is inside does so too.  An `eq` of two pairs is left
out, since trees cannot tell cells apart.
-/

namespace ArenaLisp

/-- An evaluator that computes what an evaluator of trees does, in any scope that is secured. -/
def EvalComputes (l : Lexicon) (ev : Evaluator) (tev : Tree.Evaluator) : Prop :=
  ∀ {m : Machine} {expr : Value} {scope : Scope} {e s : Tree}, m.Coherent → m.lexicon = l →
    m.Shows expr e → m.Secures scope.value s →
    Computes m (ev expr scope) (tev e s) fun m₂ v t => m₂.Shows v t

namespace Computes

variable {l : Lexicon} {m : Machine} {ev : Evaluator} {tev : Tree.Evaluator} {args v u : Value}
  {scope : Scope} {a s t : Tree}

theorem operand (b : Builtin) (hm : m.Coherent) (hargs : m.arena.Unfolds args a) :
    Computes m (Eval.operand b args) (Tree.operand b a) fun m₂ c t => m₂ = m ∧ m.Part args c t := by
  unfold Tree.operand
  refine asking_rel_bind (f := (·.arena.one? args)) (Machine.read_one? hargs) fun o ho => ?_
  generalize a.one? = o' at ho ⊢
  cases ho with
  | none => exact .throw _
  | some h => exact .pure hm ⟨rfl, h⟩

theorem operands (b : Builtin) (hm : m.Coherent) (hargs : m.arena.Unfolds args a) :
    Computes m (Eval.operands b args) (Tree.operands b a)
      fun m₂ p q => m₂ = m ∧ m.Part args p.1 q.1 ∧ m.Part args p.2 q.2 := by
  unfold Tree.operands
  refine asking_rel_bind (f := (·.arena.two? args)) (Machine.read_two? hargs) fun o ho => ?_
  generalize a.two? = o' at ho ⊢
  cases ho with
  | none => exact .throw _
  | some h => exact .pure hm ⟨rfl, h⟩

/-- The value of a name. -/
theorem evalAtom (i : AtomId) (hm : m.Coherent) (hscope : m.Secures scope.value s) :
    Computes m (Eval.evalAtom i scope) (Tree.evalAtom m.lexicon i s) fun m₂ v t => m₂.Shows v t := by
  unfold Eval.evalAtom Tree.evalAtom
  split
  · exact .pure hm ⟨by simp [Arena.Dangling], .atom (by decide)⟩
  · refine (asking hm (Machine.read_lookup i hscope.2)).bind ?_
    rintro _ o o' - - ⟨rfl, ho⟩
    cases ho with
    | some h => exact .pure hm ((hscope.part h).shows hm)
    | none => exact .get (.throw _)

/-- Calls are recorded without a trace in the arena. -/
theorem recordCall (hm : m.Coherent) (hv : m.arena.Unfolds v s) (hu : m.arena.Unfolds u t) :
    Computes m (Eval.recordCall v u) (.ok ()) fun m₂ _ _ => m₂.arena = m.arena := by
  unfold Eval.recordCall
  refine .get ?_
  split
  · refine (asking (f := (·.render v)) hm (Machine.read_render hv)).bind (g := fun _ => .ok ()) ?_
    rintro _ shown _ - - ⟨rfl, -⟩
    refine (asking (f := (·.render u)) hm (Machine.read_render hu)).bind (g := fun _ => .ok ()) ?_
    rintro _ shown' _ - - ⟨rfl, -⟩
    exact ⟨Machine.keeps_record hm _, rfl, (), rfl, rfl⟩
  · exact .pure hm rfl

/-- Evaluating an expression and binding a name to its value in front of the scope, which is the innermost
root and gives way to the new one. -/
theorem bindNext {α β : Type} {Q : Machine → α → β → Prop} {expr ident : Value} {caller : Scope}
    {e i c : Tree} {rest : Value → Scope → Action α} {g : Tree → Except Stop β}
    (hev : EvalComputes l ev tev) (hm : m.Coherent) (hl : m.lexicon = l)
    (hscope : m.Shows scope.value s) (hexpr : m.Secures expr e)
    (hcaller : (m.pin scope.value).Secures caller.value c) (hident : m.Secures ident i)
    (hrest : ∀ m₂ v sc t, m.Keeps m₂ → m₂.lexicon = l → m₂.Shows sc.value t →
      Computes m₂ (Action.pinned sc.value (rest v sc)) (g t) Q) :
    Computes m
      (Action.pinned scope.value do
        let v ← ev expr caller
        let sc ← scope.extend ident v
        Action.repin sc.value
        rest v sc)
      (do
        let v ← tev e c
        g (s.extend i v)) Q := by
  have hpin := hm.pin hscope.1
  refine pinned_bind (hev hpin hl (hexpr.pin.shows hpin) hcaller) ?_
  intro m₂ v t hkeeps hinner hlexicon hv
  have hpin := hinner.coherent
  -- the scope is still pinned when it is extended
  refine pinned_bind (g := g)
    (extend hpin ((hident.pin.keeps hinner).shows hpin) hv (hscope.pin.keeps hinner)) ?_
  intro m₃ sc t hkeeps₃ _ hlexicon₃ hs
  rw [Action.pinned_repin]
  exact hrest m₃ v sc t (hkeeps.trans hkeeps₃) (hlexicon₃.trans (hlexicon.trans hl)) hs

/-! ### Special forms -/

/-- Taking a slot of the value of the operand. -/
theorem evalSlot (b : Builtin) {slot : CellId → Action Value} {slot' : Tree → Tree → Tree}
    (hslot : ∀ {m : Machine} {id : CellId} {s t : Tree}, m.Coherent →
      m.Shows (.pair id) (.pair s t) →
      Computes m (slot id) (.ok (slot' s t)) fun m₂ v t => m₂.Shows v t)
    (hev : EvalComputes l ev tev) (hm : m.Coherent) (hl : m.lexicon = l)
    (hargs : m.Shows args a) (hscope : m.Secures scope.value s) :
    Computes m (Eval.evalSlot ev b slot args scope) (Tree.evalSlot tev b slot' a s)
      fun m₂ v t => m₂.Shows v t := by
  refine (operand b hm hargs.2).bind ?_
  rintro _ e e' - - ⟨rfl, he⟩
  refine (hev hm hl (hargs.part hm he) hscope).bind fun m₂ v t hkeeps _ hv => ?_
  have hshows := hv
  obtain ⟨-, hunfolds⟩ := hv
  cases hunfolds with
  | nil => exact .pure hkeeps.coherent ⟨by simp [Arena.Dangling], .nil⟩
  | atom _ | builtin _ => exact .throw _
  | pair _ _ _ => exact hslot hkeeps.coherent hshows

/-- Evaluating two operands, the first value pinned during the second. -/
theorem evalBoth (b : Builtin) (hev : EvalComputes l ev tev) (hm : m.Coherent)
    (hl : m.lexicon = l) (hargs : m.Secures args a) (hscope : m.Secures scope.value s) :
    Computes m (Eval.evalBoth ev b args scope) (Tree.evalBoth tev b a s)
      fun m₂ p q => m₂.Shows p.1 q.1 ∧ m₂.Shows p.2 q.2 := by
  refine (operands b hm hargs.2).bind ?_
  rintro _ ⟨e, d⟩ ⟨e', d'⟩ - - ⟨rfl, he, hd⟩
  have hd := hargs.part hd
  refine (hev hm hl ((hargs.part he).shows hm) hscope).bind fun m₂ x y hkeeps hlexicon hx => ?_
  have hm₂ := hkeeps.coherent
  have hpin := hm₂.pin hx.1
  have hsecond : Computes m₂ (Action.pinned x (ev d scope)) (tev d' s)
      fun m₃ z t => m₃.Shows x y ∧ m₃.Shows z t := by
    refine .pinned (Q := fun m₃ z t => m₃.Shows x y ∧ m₃.Shows z t) ?_ fun _ _ _ h => h
    refine (hev hpin (hlexicon.trans hl) ((hd.keeps hkeeps).pin.shows hpin) (hscope.keeps hkeeps).pin).mono ?_
    exact fun m₃ z t hkeeps₃ hz => ⟨(hx.pin.keeps hkeeps₃).shows hkeeps₃.coherent, hz⟩
  exact hsecond.bind fun m₃ z t hkeeps₃ _ h => .pure hkeeps₃.coherent h

/-- Building a closure. -/
theorem makeClosure (hm : m.Coherent) (hargs : m.Shows args a)
    (hscope : m.Secures scope.value s) :
    Computes m (Eval.makeClosure args scope) (Tree.makeClosure a s)
      fun m₂ v t => m₂.Shows v t := by
  refine (operands .lambda hm hargs.2).bind ?_
  rintro _ p q - - ⟨rfl, -⟩
  refine (cons hm (hscope.shows hm) hargs).bind
    (g := fun rest => .ok (Tree.pair (.atom .closure) rest)) fun m₂ rest t hkeeps _ hrest => ?_
  exact cons hkeeps.coherent ⟨by simp [Arena.Dangling], .atom (by decide)⟩ hrest

/-- Going through the clauses of a `cond`. -/
theorem firstTrue (hev : EvalComputes l ev tev) (fuel : Nat) (hm : m.Coherent)
    (hl : m.lexicon = l) (hargs : m.Secures args a) (hscope : m.Secures scope.value s) :
    Computes m (Eval.firstTrue ev scope fuel args) (Tree.firstTrue tev s a)
      fun m₂ v t => m₂.Shows v t := by
  induction fuel generalizing m args a with
  | zero => exact .inl rfl
  | succ fuel ih =>
    cases args with
    | nil | atom _ | builtin _ =>
      cases hargs.2
      exact .throw _
    | pair id =>
      obtain ⟨clause, clauses, c, cs, rfl, hcar, hcdr, hclause, hclauses⟩ :=
        Machine.read_pair hargs.2
      refine asking_bind (f := (·.arena.car id)) hcar ?_
      refine asking_bind (f := (·.arena.cdr id)) hcdr ?_
      refine (operands .cond hm hclause.2).bind ?_
      rintro _ ⟨test, result⟩ ⟨test', result'⟩ - - ⟨rfl, htest, hresult⟩
      have htest := hargs.part (hclause.trans htest)
      have hresult := hargs.part (hclause.trans hresult)
      refine (hev hm hl (htest.shows hm) hscope).bind fun m₂ v t hkeeps hlexicon hv => ?_
      have hm₂ := hkeeps.coherent
      rw [hv.2.isNil]
      split
      · exact ih hm₂ (hlexicon.trans hl) ((hargs.part hclauses).keeps hkeeps) (hscope.keeps hkeeps)
      · exact hev hm₂ (hlexicon.trans hl) ((hresult.keeps hkeeps).shows hm₂) (hscope.keeps hkeeps)

/-- Binding the bindings of a `let`, with the scope as the innermost root. -/
theorem bindInTurn {body : Value} {b : Tree} (hev : EvalComputes l ev tev) (fuel : Nat)
    (hm : m.Coherent) (hl : m.lexicon = l) (hbody : m.Secures body b) (hargs : m.Secures args a)
    (hscope : m.Shows scope.value s) :
    Computes m (Action.pinned scope.value (Eval.bindInTurn ev body fuel args scope))
      (Tree.bindInTurn tev b a s) fun m₂ v t => m₂.Shows v t := by
  induction fuel generalizing m args a scope s with
  | zero => exact .inl rfl
  | succ fuel ih =>
    have hpin := hm.pin hscope.1
    cases args with
    | nil =>
      cases hargs.2
      exact .pinned (hev hpin hl (hbody.pin.shows hpin) hscope.pin) fun _ _ _ h => h
    | atom _ | builtin _ =>
      cases hargs.2
      exact .pinned (.throw _) fun _ _ _ h => h
    | pair id =>
      obtain ⟨binding, bindings, c, cs, rfl, hcar, -, hbinding, -⟩ := Machine.read_pair hargs.2
      refine pinned_asking_bind (f := (·.arena.car id)) hcar ?_
      refine pinned_bind (operands .letIn hpin hbinding.2) ?_
      rintro m₂ ⟨ident, expr⟩ ⟨ident', expr'⟩ - - - ⟨hsame, hident, hexpr⟩
      obtain rfl : m₂ = m := congrArg Machine.unpin hsame
      have hident : m₂.Secures ident ident' := hargs.part (hbinding.trans hident)
      have hexpr : m₂.Secures expr expr' := hargs.part (hbinding.trans hexpr)
      dsimp only
      rw [hident.2.isAtom]
      split
      · refine bindNext (g := Tree.bindInTurn tev b cs) hev hm hl hscope hexpr hscope.pin hident ?_
        intro m₃ v sc s' hkeeps hl₃ hs
        have hargs := hargs.keeps hkeeps
        obtain ⟨_, rest, _, _, heq, -, hcdr, -, hrest⟩ := Machine.read_pair hargs.2
        cases heq
        refine pinned_asking_bind (f := (·.arena.cdr id)) hcdr ?_
        exact ih hkeeps.coherent hl₃ (hbody.keeps hkeeps)
          (hargs.part hrest) hs
      · exact .pinned (Q := fun m₂ v t => m₂.Shows v t) (.throw _) fun _ _ _ h => h

/-- Runs a special form other than `eq` on operands that are secured. -/
theorem runSpecial (hev : EvalComputes l ev tev) (fuel : Nat) {b : Builtin} (hb : b ≠ .eq)
    (hm : m.Coherent) (hl : m.lexicon = l) (hargs : m.Secures args a)
    (hscope : m.Secures scope.value s) :
    Computes m (Eval.runSpecial ev fuel b args scope) (Tree.runSpecial tev b a s)
      fun m₂ v t => m₂.Shows v t := by
  cases b with
  | eq => exact absurd rfl hb
  | quote =>
    refine (operand .quote hm hargs.2).mono ?_
    rintro _ v t - ⟨rfl, hv⟩
    exact (hargs.part hv).shows hm
  | car =>
    refine evalSlot .car (fun hm hx => ?_) hev hm hl (hargs.shows hm) hscope
    obtain ⟨_, _, _, _, heq, hcar, -, hpart, -⟩ := Machine.read_pair hx.2
    cases heq
    exact asking_ok (f := (·.arena.car _)) hm hcar (hx.part hm hpart)
  | cdr =>
    refine evalSlot .cdr (fun hm hx => ?_) hev hm hl (hargs.shows hm) hscope
    obtain ⟨_, _, _, _, heq, -, hcdr, -, hpart⟩ := Machine.read_pair hx.2
    cases heq
    exact asking_ok (f := (·.arena.cdr _)) hm hcdr (hx.part hm hpart)
  | cons =>
    refine (evalBoth .cons hev hm hl hargs hscope).bind fun m₂ p q hkeeps _ hp => ?_
    exact cons hkeeps.coherent hp.1 hp.2
  | lambda => exact makeClosure hm (hargs.shows hm) hscope
  | cond => exact firstTrue hev fuel hm hl hargs hscope
  | letIn =>
    refine (operands .letIn hm hargs.2).bind ?_
    rintro _ p q - - ⟨rfl, hbindings, hbody⟩
    exact bindInTurn hev fuel hm hl (hargs.part hbody) (hargs.part hbindings) (hscope.shows hm)

/-! ### Closures -/

/-- Binding formals to actuals, with the scope as the innermost root. -/
theorem bindFormals {body : Value} {caller : Scope} {b c f : Tree} (hev : EvalComputes l ev tev)
    (fuel : Nat) (hm : m.Coherent) (hl : m.lexicon = l) (hbody : m.Secures body b)
    (hcaller : m.Secures caller.value c) (hformals : m.Secures u f) (hargs : m.Secures args a)
    (hscope : m.Shows scope.value s) :
    Computes m (Action.pinned scope.value (Eval.bindFormals ev body caller fuel u args scope))
      (Tree.bindFormals tev b c f a s) fun m₂ v t => m₂.Shows v t := by
  induction fuel generalizing m u f args a scope s with
  | zero => exact .inl rfl
  | succ fuel ih =>
    have hpin := hm.pin hscope.1
    have hthrow : ∀ e : Stop, Computes m (Action.pinned scope.value (throw e : Action Value))
        (.error e) fun m₂ v t => m₂.Shows v t :=
      fun e => .pinned (Q := fun m₂ v t => m₂.Shows v t) (.throw e) fun _ _ _ h => h
    cases u with
    | nil =>
      cases hformals.2
      cases args with
      | nil =>
        cases hargs.2
        exact .pinned (hev hpin hl (hbody.pin.shows hpin) hscope.pin) fun _ _ _ h => h
      | atom _ | builtin _ | pair _ =>
        cases hargs.2
        exact hthrow _
    | atom _ | builtin _ =>
      cases hformals.2
      cases args <;> cases hargs.2 <;> exact hthrow _
    | pair x =>
      obtain ⟨ident, _, i, is, rfl, hcar, -, hident, -⟩ := Machine.read_pair hformals.2
      cases args with
      | nil | atom _ | builtin _ =>
        cases hargs.2
        exact hthrow _
      | pair y =>
        obtain ⟨actual, _, e, es, rfl, hcar', -, hactual, -⟩ := Machine.read_pair hargs.2
        have hident := hformals.part hident
        have hactual := hargs.part hactual
        refine pinned_asking_bind (f := (·.arena.car x)) hcar ?_
        rw [Tree.bindFormals]
        dsimp only
        rw [hident.2.isAtom]
        split
        · refine pinned_asking_bind (f := (·.arena.car y)) hcar' ?_
          refine bindNext (g := Tree.bindFormals tev b c is es) hev hm hl hscope hactual hcaller.pin
            hident ?_
          intro m₃ v sc s' hkeeps hl₃ hs
          have hformals := hformals.keeps hkeeps
          have hargs := hargs.keeps hkeeps
          obtain ⟨_, formals, _, _, heq, -, hcdr, -, hrest⟩ := Machine.read_pair hformals.2
          cases heq
          obtain ⟨_, actuals, _, _, heq, -, hcdr', -, hrest'⟩ := Machine.read_pair hargs.2
          cases heq
          refine pinned_asking_bind (f := (·.arena.cdr x)) hcdr ?_
          refine pinned_asking_bind (f := (·.arena.cdr y)) hcdr' ?_
          exact ih hkeeps.coherent hl₃ (hbody.keeps hkeeps)
            (hcaller.keeps hkeeps) (hformals.part hrest) (hargs.part hrest') hs
        · exact hthrow _

/-- Calling a closure, which nothing secures before its parts are pinned. -/
theorem callClosure {caller : Scope} {c h : Tree} {x : CellId} (hev : EvalComputes l ev tev)
    (fuel : Nat) (hm : m.Coherent) (hl : m.lexicon = l) (hx : m.Shows (.pair x) (.pair h t))
    (hargs : m.Secures args a) (hcaller : m.Secures caller.value c) :
    Computes m (Eval.callClosure ev fuel x args caller) (Tree.callClosure tev t a c)
      fun m₂ v t => m₂.Shows v t := by
  obtain ⟨_, rest, _, _, heq, -, hcdr, -, hrest⟩ := Machine.read_pair hx.2
  cases heq
  have hrest := hx.part hm hrest
  refine asking_bind (f := (·.arena.cdr x)) hcdr ?_
  refine asking_rel_bind (f := (·.arena.three? rest)) (Machine.read_three? hrest.2) fun o ho => ?_
  unfold Tree.callClosure
  generalize t.three? = o' at ho ⊢
  cases ho with
  | none => exact .throw _
  | @some parts parts' h =>
    obtain ⟨captured, formals, body⟩ := parts
    obtain ⟨captured', formals', body'⟩ := parts'
    obtain ⟨hcaptured, hformals, hbody⟩ := h
    refine (recordCall hm hformals.2 hargs.2).bind
      (g := fun _ => Tree.bindFormals tev body' c formals' a captured') ?_
    intro m₂ _ _ hkeeps hlexicon harena
    have hrest := hrest.of_arena harena
    have hpin := hkeeps.coherent.pin hrest.1
    refine .pinned (Q := fun m₂ v t => m₂.Shows v t) ?_ fun _ _ _ h => h
    exact bindFormals hev fuel hpin (hlexicon.trans hl) (hbody.of_arena harena).pin
      (hcaller.keeps hkeeps).pin (hformals.of_arena harena).pin (hargs.keeps hkeeps).pin
      ((hcaptured.of_arena harena).pin.shows hpin)

/-! ### Expressions -/

/-- Applying what an operator evaluated to, other than `eq`. -/
theorem apply (hev : EvalComputes l ev tev) (fuel : Nat) (hne : v ≠ .builtin .eq)
    (hm : m.Coherent) (hl : m.lexicon = l) (hv : m.Shows v t) (hargs : m.Secures args a)
    (hscope : m.Secures scope.value s) :
    Computes m (Eval.apply ev fuel v args scope) (Tree.apply tev l t a s)
      fun m₂ v t => m₂.Shows v t := by
  subst hl
  have hthrow : Computes m
      (do throw (.failure (.notCallable (← Action.render v))) : Action Value)
      (.error (.failure (.notCallable (t.render m.lexicon)))) fun m₂ v t => m₂.Shows v t := by
    refine (asking (f := (·.render v)) hm (Machine.read_render hv.2)).bind
      (g := fun text => .error (.failure (.notCallable text))) ?_
    rintro _ text _ - - ⟨rfl, rfl⟩
    exact .throw _
  cases v with
  | nil | atom _ =>
    cases hv.2
    exact hthrow
  | builtin b =>
    cases hv.2
    exact runSpecial hev fuel (fun hb => hne (hb ▸ rfl)) hm rfl hargs hscope
  | pair x =>
    obtain ⟨head, rest, h, r, rfl, hcar, -, hhead, -⟩ := Machine.read_pair hv.2
    refine asking_bind (f := (·.arena.car x)) hcar ?_
    rw [Tree.apply, if_congr hhead.2.eq_atom_iff rfl rfl]
    split
    · exact callClosure hev fuel hm rfl hv hargs hscope
    · exact hthrow

end Computes

end ArenaLisp
