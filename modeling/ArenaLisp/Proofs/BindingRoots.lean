import ArenaLisp.Proofs.Sequential

/-!
# The roots of a loop that binds

A `let` and a call bind names one after the other, with evaluations of anything in between.  Wherever they
evaluate, the root stack is the one they began with and one or two roots more, however many names have been
bound: the innermost root is the scope so far, in the place of the scopes before it, and what is still to be
read is reached from the stack (`binding_loops_keep_roots`).

Which evaluations an action asks for is told by exchanging its evaluator (`Eval.OnlyAt`).  The loops are
followed by induction on their bound; how the machine stands at a round is known from the bindings made so
far (`meets_bindAll`, `meets_bindEach`).
-/

namespace ArenaLisp

/-- Whether an action asks an evaluator for nothing but what has a property: with any other evaluator that
does the same there, and anything elsewhere, the run is the same. -/
def Eval.OnlyAt (P : Machine → Value → Scope → Prop) (ev : Evaluator) (act : Evaluator → Action Value)
    (m : Machine) : Prop :=
  ∀ ev' : Evaluator,
    (∀ m₂ expr scope, P m₂ expr scope → (ev' expr scope).run m₂ = (ev expr scope).run m₂) →
      (act ev').run m = (act ev).run m

/-- How a machine stands where names have been bound one after the other in front of the scope `base`, as
the arena `a` had it when this began: the new scope is the innermost root, right on `under`, and begins with
the bindings, the last of them first; neither `base` nor `parts`, which are still to be read, have changed;
and the roots reach all of the new scope and of `parts`. -/
structure Machine.Stands (m : Machine) (a : Arena) (under : List Value) (base : Scope)
    (pairs bindings : List (Value × Value)) (parts : List Value) (scope : Scope) : Prop where
  roots : m.roots = scope.value :: under
  names : bindings.map Prod.fst = pairs.map Prod.fst
  binds : m.arena.Binds scope.value bindings.reverse base.value
  kept : ∀ v ∈ base.value :: parts, a.AgreeOn m.arena v
  reaches : ∀ id, m.arena.graph.Reaches (scope.value :: parts) id → m.Pinned id

/-- Where a `let` with the operands `args` that begins in `m` and `scope` evaluates something: the expression
of a binding behind the bindings `pairs`, or the body behind all of them.  The machine is the one that the
evaluations of these bindings have led to, and the scope has their values. -/
inductive Machine.LetPoint (m : Machine) (ev : Evaluator) (args : Value) (scope : Scope) :
    Machine → Value → Scope → Prop
  | binding {bindings body ident expr : Value} {id : CellId} {pairs bs : List (Value × Value)}
    {m₂ : Machine} {s : Scope} (hargs : m.arena.Lists args [bindings, body])
    (hpairs : m.arena.Clauses bindings pairs (.pair id))
    (hbinding : m.arena.Lists (m.arena.graph id).1 [ident, expr])
    (hrun : (Eval.bindAll ev pairs scope).run (m.pin scope.value) = .ok (bs, s) m₂)
    (hstands : m₂.Stands m.arena m.roots scope pairs bs [.pair id, body] s) :
    LetPoint m ev args scope m₂ expr s
  | body {bindings body : Value} {pairs bs : List (Value × Value)} {m₂ : Machine} {s : Scope}
    (hargs : m.arena.Lists args [bindings, body]) (hpairs : m.arena.Clauses bindings pairs .nil)
    (hrun : (Eval.bindAll ev pairs scope).run (m.pin scope.value) = .ok (bs, s) m₂)
    (hstands : m₂.Stands m.arena m.roots scope pairs bs [body] s) :
    LetPoint m ev args scope m₂ body s

/-- A machine in which a call of the closure in `func` binds: the closure without its head is pinned. -/
def Machine.entered (m : Machine) (log : Log) (func : CellId) : Machine :=
  ({ m with log } : Machine).pin (m.arena.graph func).2

/-- Where a call of the closure in `func` that begins in `m` evaluates something: the actual behind those of
`pairs`, in the scope of the caller, or the body behind all of them.  The closure without its head is a root
below the scope. -/
inductive Machine.CallPoint (m : Machine) (ev : Evaluator) (func : CellId) (actuals : Value)
    (caller : Scope) : Machine → Value → Scope → Prop
  | actual {captured formals body : Value} {f x : CellId} {pairs bs : List (Value × Value)} {log : Log}
    {m₂ : Machine} {s : Scope} (hparts : m.arena.Lists (m.arena.graph func).2 [captured, formals, body])
    (hrecord : (Eval.recordCall formals actuals).run m = .ok () { m with log })
    (hpairs : m.arena.Lockstep formals actuals pairs (.pair f) (.pair x))
    (hrun : (Eval.bindEach ev caller pairs ⟨captured⟩).run ((m.entered log func).pin captured) =
      .ok (bs, s) m₂)
    (hstands : m₂.Stands m.arena ((m.arena.graph func).2 :: m.roots) ⟨captured⟩ pairs bs
      [.pair f, .pair x, body] s) :
    CallPoint m ev func actuals caller m₂ (m.arena.graph x).1 caller
  | body {captured formals body : Value} {pairs bs : List (Value × Value)} {log : Log} {m₂ : Machine}
    {s : Scope} (hparts : m.arena.Lists (m.arena.graph func).2 [captured, formals, body])
    (hrecord : (Eval.recordCall formals actuals).run m = .ok () { m with log })
    (hpairs : m.arena.Lockstep formals actuals pairs .nil .nil)
    (hrun : (Eval.bindEach ev caller pairs ⟨captured⟩).run ((m.entered log func).pin captured) =
      .ok (bs, s) m₂)
    (hstands : m₂.Stands m.arena ((m.arena.graph func).2 :: m.roots) ⟨captured⟩ pairs bs [body] s) :
    CallPoint m ev func actuals caller m₂ body s

variable {m m₂ : Machine} {scope s base caller : Scope} {args rest body ident expr : Value}
  {bindings formals actuals fs xs captured : Value} {pairs bs : List (Value × Value)}
  {parts : List Value} {ev ev' : Evaluator} {fuel k : Nat}

/-! ### One name more -/

/-- What is read as the rest of a pair is what it was. -/
theorem Arena.AgreeOn.eq_of_cdr {a a₂ : Arena} {id : CellId} {v : Value} (h : a.AgreeOn a₂ (.pair id))
    (hv : a₂.cdr id = .ok v) : (a.graph id).2 = v := by
  rw [← h.graph]
  exact graph_snd_of_cdr hv

theorem Arena.Clauses.concat {a : Arena} {id : CellId} {v : Value} (h : a.Clauses v pairs (.pair id))
    (hclause : a.Lists (a.graph id).1 [ident, expr]) :
    a.Clauses v (pairs ++ [(ident, expr)]) (a.graph id).2 := by
  generalize hv : Value.pair id = w at h
  induction h with
  | none => exact hv ▸ .clause hclause (.none _)
  | clause h _ ih => exact .clause h (ih hv)

theorem Arena.Lockstep.concat {a : Arena} {f x : CellId}
    (h : a.Lockstep formals actuals pairs (.pair f) (.pair x)) :
    a.Lockstep formals actuals (pairs ++ [((a.graph f).1, (a.graph x).1)]) (a.graph f).2
      (a.graph x).2 := by
  generalize hf : Value.pair f = v at h
  generalize hx : Value.pair x = w at h
  induction h with
  | none => exact hf ▸ hx ▸ .both (.none _ _)
  | both _ ih => exact .both (ih hf hx)

theorem Arena.Lockstep.holds (h : m.arena.Lockstep formals actuals pairs fs xs)
    (hformals : m.Holds formals) (hactuals : m.Holds actuals) : m.Holds fs ∧ m.Holds xs := by
  induction h with
  | none => exact ⟨hformals, hactuals⟩
  | both _ ih => exact ih (Machine.holds_cdr hformals) (Machine.holds_cdr hactuals)

/-- The last name is bound behind all others. -/
theorem Eval.bindEach_concat (ev : Evaluator) (caller : Scope) (ps : List (Value × Value))
    (ident actual : Value) (scope : Scope) :
    bindEach ev caller (ps ++ [(ident, actual)]) scope = do
      let (bindings, s) ← bindEach ev caller ps scope
      let (v, s) ← bindOne ev caller ident actual s
      return (bindings ++ [(ident, v)], s) := by
  induction ps generalizing scope with
  | nil => simp only [List.nil_append, bindEach, pure_bind]
  | cons p ps ih => simp only [List.cons_append, bindEach, ih, bind_assoc, pure_bind]

theorem run_bindAll_concat {b : Value × Scope} {m₃ : Machine}
    (hrun : (Eval.bindAll ev pairs scope).run m = .ok (bs, s) m₂)
    (hone : (Eval.bindOne ev s ident expr s).run m₂ = .ok b m₃) :
    (Eval.bindAll ev (pairs ++ [(ident, expr)]) scope).run m =
      .ok (bs ++ [(ident, b.1)], b.2) m₃ := by
  rw [Eval.bindAll_concat, Action.run_bind_of_ok hrun, Action.run_bind_of_ok hone]
  rfl

theorem run_bindEach_concat {b : Value × Scope} {m₃ : Machine}
    (hrun : (Eval.bindEach ev caller pairs scope).run m = .ok (bs, s) m₂)
    (hone : (Eval.bindOne ev caller ident expr s).run m₂ = .ok b m₃) :
    (Eval.bindEach ev caller (pairs ++ [(ident, expr)]) scope).run m =
      .ok (bs ++ [(ident, b.1)], b.2) m₃ := by
  rw [Eval.bindEach_concat, Action.run_bind_of_ok hrun, Action.run_bind_of_ok hone]
  rfl

/-- A binding asks for nothing but the value of its expression. -/
theorem run_bindOne_congr (h : (ev' expr caller).run m = (ev expr caller).run m) :
    (Eval.bindOne ev' caller ident expr scope).run m =
      (Eval.bindOne ev caller ident expr scope).run m := by
  unfold Eval.bindOne
  split
  · exact Action.run_bind_congr h fun _ _ _ => rfl
  · rfl

/-- Where names have been bound, the machine stands. -/
theorem Machine.Extended.stands (h : m.Extended base bs m₂ s)
    (hnames : bs.map Prod.fst = pairs.map Prod.fst) (hparts : ∀ v ∈ parts, m.Holds v) :
    (m₂.pin s.value).Stands m.arena m.roots base pairs bs parts s where
  roots := congrArg (s.value :: ·) h.keeps.roots
  names := hnames
  binds := h.binds
  kept := List.forall_mem_cons.mpr ⟨h.agree, fun v hv => h.keeps.agreeOn (hparts v hv)⟩
  reaches id hid := by
    refine Graph.Reaches.mono hid fun y hy => ?_
    rcases List.mem_cons.mp hy with hy | hy
    · exact holds_pin_self y hy.symm
    · exact (h.keeps.holds (hparts _ hy)).pin y rfl

/-! ### The loop of a `let` -/

/-- What has come of the bindings with which a list begins that is held. -/
theorem extended_of_bindAll (hm : m.WellFormed) (hbindings : m.Holds bindings)
    (hscope : m.Holds scope.value) (hreal : scope.value ≠ .poison)
    (hpairs : m.arena.Clauses bindings pairs rest)
    (hrun : (Eval.bindAll (evalIn fuel) pairs scope).run (m.pin scope.value) = .ok (bs, s) m₂) :
    bs.map Prod.fst = pairs.map Prod.fst ∧ ∃ m₃, m₂ = m₃.pin s.value ∧ m.Extended scope bs m₃ s := by
  have hidents := hpairs.ne_poison (hm.clear hbindings)
  have hheld := (hpairs.holds hbindings).1
  exact (meets_bindAll fuel hm.toCoherent (fun p hp => ⟨hidents p hp, (hheld p hp).2⟩)
    (hm.not_dangling hscope) hreal).of_ok hrun

/-- The loop of a `let` asks for nothing but what belongs to the `let`, from wherever it has come to. -/
theorem run_bindInTurn_congr (hm : m.WellFormed) (hargs : m.Holds args) (hscope : m.Holds scope.value)
    (hreal : scope.value ≠ .poison) (hlists : m.arena.Lists args [bindings, body])
    (hev : ∀ m₂ expr s, m.LetPoint (evalIn fuel) args scope m₂ expr s →
      (ev' expr s).run m₂ = (evalIn fuel expr s).run m₂)
    (hpairs : m.arena.Clauses bindings pairs rest)
    (hrun : (Eval.bindAll (evalIn fuel) pairs scope).run (m.pin scope.value) = .ok (bs, s) m₂) :
    (Eval.bindInTurn ev' body k rest s).run m₂ =
      (Eval.bindInTurn (evalIn fuel) body k rest s).run m₂ := by
  have hitems := Machine.holds_item hargs hlists
  have hbindings := hitems bindings (by simp)
  have hbody := hitems body (by simp)
  -- the run of the bindings so far is carried along, and tells how the machine stands
  induction k generalizing pairs rest bs s m₂ with
  | zero => rfl
  | succ k ih =>
    obtain ⟨hnames, m₃, rfl, hext⟩ := extended_of_bindAll hm hbindings hscope hreal hpairs hrun
    have hrest := (hpairs.holds hbindings).2
    have hagree := hext.keeps.agreeOn hrest
    have hclear : m₃.arena.Clear rest := (hm.clear hrest).transfer hagree
    by_cases hstarts : m₃.arena.StartsOf m₃.arena.IsBinding rest
    · rcases hstarts with rfl | ⟨id, rfl, ident, expr, hbinding, hatom⟩
      · exact hev _ _ _ (.body hlists hpairs hrun (hext.stands hnames (by simpa using hbody)))
      · -- the binding reads as it did when the `let` began
        have hbinding' : m.arena.Lists (m.arena.graph id).1 [ident, expr] := by
          rw [hagree.graph] at hbinding
          exact hbinding.transfer hagree.car.symm
        rw [run_bindInTurn_pair (m := m₃.pin s.value) hclear hbinding hatom,
          run_bindInTurn_pair (m := m₃.pin s.value) hclear hbinding hatom]
        refine Action.run_bind_congr (run_bindOne_congr (hev _ _ _ (.binding hlists hpairs hbinding' hrun
          (hext.stands hnames (by simpa using ⟨hrest, hbody⟩))))) fun b m₄ hone => ?_
        have hpairs' := hpairs.concat hbinding'
        have hrun' := run_bindAll_concat hrun hone
        obtain ⟨-, m₅, rfl, hext'⟩ := extended_of_bindAll hm hbindings hscope hreal hpairs' hrun'
        refine Action.run_reading_congr fun next hnext => ?_
        obtain rfl := (hext'.keeps.agreeOn hrest).eq_of_cdr hnext
        exact ih hpairs' hrun'
    · rw [run_bindInTurn_of_not (m := m₃.pin s.value) hclear hstarts,
        run_bindInTurn_of_not (m := m₃.pin s.value) hclear hstarts]

/-- A `let` evaluates only where the scope so far is the one root on those it began with. -/
theorem onlyAt_let (hm : m.WellFormed) (hargs : m.Holds args) (hscope : m.Holds scope.value)
    (hreal : scope.value ≠ .poison) (fuel k : Nat) :
    Eval.OnlyAt (m.LetPoint (evalIn fuel) args scope) (evalIn fuel)
      (fun ev => Eval.runSpecial ev k .letIn args scope) m := by
  intro ev' hev
  have hclear := hm.clear hargs
  by_cases hlists : ∃ bindings body, m.arena.Lists args [bindings, body]
  · obtain ⟨bindings, body, hlists⟩ := hlists
    refine (run_operands_bind hclear hlists .letIn).trans
      (Eq.trans ?_ (run_operands_bind hclear hlists .letIn).symm)
    refine congrArg (mapState Machine.unpin) ?_
    exact run_bindInTurn_congr hm hargs hscope hreal hlists hev (.none bindings) rfl
  · exact (Action.run_bind_of_error (run_operands_of_not hclear hlists .letIn)).trans
      (Action.run_bind_of_error (run_operands_of_not hclear hlists .letIn)).symm

/-! ### The loop of a call -/

variable {func : CellId} {log : Log}

/-- In the machine in which a call binds, all parts of the closure are held. -/
theorem entered_wellFormed (hm : m.WellFormed) (hfunc : ¬ m.arena.Dangling (.pair func))
    (hparts : m.arena.Lists (m.arena.graph func).2 [captured, formals, body]) (log : Log) :
    (m.entered log func).WellFormed ∧
      ∀ v ∈ [captured, formals, body], v ≠ .poison ∧ (m.entered log func).Holds v := by
  have hdangling : ¬ m.arena.Dangling (m.arena.graph func).2 :=
    (hm.arena.not_dangling func (Arena.not_dangling_pair.mp hfunc)).2
  refine ⟨⟨Machine.Coherent.pin ⟨hm.arena, hm.roots⟩ hdangling, hm.no_poison⟩, fun v hv => ?_⟩
  have hclear := (hm.clear_of_not_dangling hfunc).snd.item hparts v hv
  exact ⟨hclear.1, Machine.holds_item (m := m.entered log func) Machine.holds_pin_self hparts v hv⟩

/-- What has come of the formals and actuals with which two lists begin that are held. -/
theorem extended_of_bindEach (hm : m.WellFormed) (hformals : m.Holds formals)
    (hactuals : m.Holds actuals) (hcaller : m.Holds caller.value) (hscope : m.Holds scope.value)
    (hreal : scope.value ≠ .poison) (hpairs : m.arena.Lockstep formals actuals pairs fs xs)
    (hrun : (Eval.bindEach (evalIn fuel) caller pairs scope).run (m.pin scope.value) = .ok (bs, s) m₂) :
    bs.map Prod.fst = pairs.map Prod.fst ∧ ∃ m₃, m₂ = m₃.pin s.value ∧ m.Extended scope bs m₃ s :=
  (meets_bindEach fuel hm.toCoherent (hpairs.held (hm.clear hformals) hactuals) hcaller
    (hm.not_dangling hscope) hreal).of_ok hrun

/-- One round of the loop of a call, with the formals and actuals as they lay in an earlier arena. -/
theorem run_bindFormals_pair_of_agree {a : Arena} {f x : CellId} (hclear : a.Clear (.pair f))
    (hclear' : a.Clear (.pair x)) (hagree : a.AgreeOn m.arena (.pair f))
    (hagree' : a.AgreeOn m.arena (.pair x)) (ev : Evaluator) :
    (Eval.bindFormals ev body caller (k + 1) (.pair f) (.pair x) scope).run m =
      (Eval.bindOne ev caller (a.graph f).1 (a.graph x).1 scope >>= fun b => do
        let formals ← Action.cdr f
        let actuals ← Action.cdr x
        Eval.bindFormals ev body caller k formals actuals b.2).run m := by
  rw [← hagree.graph, ← hagree'.graph]
  exact run_bindFormals_pair (hclear.transfer hagree) (hclear'.transfer hagree') ev

/-- The loop of a call asks for nothing but what belongs to the call, from wherever it has come to. -/
theorem run_bindFormals_congr (hm : m.WellFormed) (hfunc : ¬ m.arena.Dangling (.pair func))
    (hactuals : m.Holds actuals) (hcaller : m.Holds caller.value)
    (hparts : m.arena.Lists (m.arena.graph func).2 [captured, formals, body])
    (hrecord : (Eval.recordCall formals actuals).run m = .ok () { m with log })
    (hev : ∀ m₂ expr s, m.CallPoint (evalIn fuel) func actuals caller m₂ expr s →
      (ev' expr s).run m₂ = (evalIn fuel expr s).run m₂)
    (hpairs : m.arena.Lockstep formals actuals pairs fs xs)
    (hrun : (Eval.bindEach (evalIn fuel) caller pairs ⟨captured⟩).run
      ((m.entered log func).pin captured) = .ok (bs, s) m₂) :
    (Eval.bindFormals ev' body caller k fs xs s).run m₂ =
      (Eval.bindFormals (evalIn fuel) body caller k fs xs s).run m₂ := by
  obtain ⟨hentered, hitems⟩ := entered_wellFormed hm hfunc hparts log
  obtain ⟨hreal, hcaptured⟩ := hitems captured (by simp)
  have hformals := (hitems formals (by simp)).2
  have hbody := (hitems body (by simp)).2
  have hactuals' : (m.entered log func).Holds actuals := hactuals.pin
  have hcaller' : (m.entered log func).Holds caller.value := hcaller.pin
  -- again the run of the bindings so far is carried along
  induction k generalizing pairs fs xs bs s m₂ with
  | zero => rfl
  | succ k ih =>
    obtain ⟨hnames, m₃, rfl, hext⟩ :=
      extended_of_bindEach hentered hformals hactuals' hcaller' hcaptured hreal hpairs hrun
    obtain ⟨hfs, hxs⟩ := hpairs.holds (m := m.entered log func) hformals hactuals'
    cases fs with
    | atom _ | builtin _ => rfl
    | nil =>
      cases xs with
      | pair _ | atom _ | builtin _ => rfl
      | nil =>
        exact hev _ _ _ (.body hparts hrecord hpairs hrun (hext.stands hnames (by simpa using hbody)))
    | pair f =>
      cases xs with
      | nil | atom _ | builtin _ => rfl
      | pair x =>
        have hagree := hext.keeps.agreeOn hfs
        have hagree' := hext.keeps.agreeOn hxs
        rw [run_bindFormals_pair_of_agree (m := m₃.pin s.value) (a := m.arena) (hentered.clear hfs)
            (hentered.clear hxs) hagree hagree',
          run_bindFormals_pair_of_agree (m := m₃.pin s.value) (a := m.arena) (hentered.clear hfs)
            (hentered.clear hxs) hagree hagree']
        refine Action.run_bind_congr (run_bindOne_congr (hev _ _ _ (.actual hparts hrecord hpairs hrun
          (hext.stands hnames (by simpa using ⟨hfs, hxs, hbody⟩))))) fun b m₄ hone => ?_
        have hpairs' : m.arena.Lockstep formals actuals _ _ _ := hpairs.concat
        have hrun' := run_bindEach_concat hrun hone
        obtain ⟨-, m₅, rfl, hext'⟩ :=
          extended_of_bindEach hentered hformals hactuals' hcaller' hcaptured hreal hpairs' hrun'
        refine Action.run_reading_congr fun fs hfs' => Action.run_reading_congr fun xs hxs' => ?_
        obtain rfl := (hext'.keeps.agreeOn hfs).eq_of_cdr hfs'
        obtain rfl := (hext'.keeps.agreeOn hxs).eq_of_cdr hxs'
        exact ih hpairs' hrun'

/-- A call evaluates only where the scope so far and the closure without its head are the roots on those it
began with. -/
theorem onlyAt_call (hm : m.WellFormed) (hfunc : ¬ m.arena.Dangling (.pair func))
    (hactuals : m.Holds actuals) (hcaller : m.Holds caller.value) (fuel k : Nat) :
    Eval.OnlyAt (m.CallPoint (evalIn fuel) func actuals caller) (evalIn fuel)
      (fun ev => Eval.callClosure ev k func actuals caller) m := by
  intro ev' hev
  have hclear := hm.clear_of_not_dangling hfunc
  refine Action.run_reading_congr fun rest hrest => ?_
  obtain rfl := Arena.graph_snd_of_cdr hrest
  refine Action.run_reading_congr fun parts hthree => ?_
  cases parts with
  | none => rfl
  | some parts =>
    obtain ⟨captured, formals, body⟩ := parts
    have hparts := Arena.lists_of_three? hthree
    have hformals := (hclear.snd.item hparts formals (by simp)).2
    obtain ⟨log, -, hrecord⟩ := run_recordCall hformals (hm.clear hactuals)
    refine Action.run_bind_congr rfl fun _ m₂ hrun => ?_
    rw [hrecord] at hrun
    cases hrun
    refine congrArg (mapState Machine.unpin) (congrArg (mapState Machine.unpin) ?_)
    exact run_bindFormals_congr hm hfunc hactuals hcaller hparts hrecord hev (.none formals actuals) rfl

/-! ### The depth of the root stack -/

theorem Machine.LetPoint.depth (h : m.LetPoint ev args scope m₂ expr s) :
    m₂.roots.length = m.roots.length + 1 := by
  cases h with
  | binding _ _ _ _ hstands | body _ _ _ hstands => exact congrArg List.length hstands.roots

theorem Machine.CallPoint.depth (h : m.CallPoint ev func args scope m₂ expr s) :
    m₂.roots.length = m.roots.length + 2 := by
  cases h with
  | actual _ _ _ _ hstands | body _ _ _ _ hstands => exact congrArg List.length hstands.roots

/-- An evaluator that gives up unless the root stack has a certain depth. -/
def Eval.atDepth (depth : Nat) (ev : Evaluator) : Evaluator := fun expr scope => do
  unless (← get).roots.length = depth do throw .unfinished
  ev expr scope

theorem run_atDepth {depth : Nat} (h : m.roots.length = depth) :
    (Eval.atDepth depth ev expr scope).run m = (ev expr scope).run m := by
  show (if m.roots.length = depth then ev expr scope else _ : Action Value).run m = _
  rw [if_pos h]

/-- Wherever a `let` or a call that begins in a machine evaluates something, however many names have been
bound, there are one or two roots on those it began with: the scope so far, which begins with the names bound
and the values that they were bound to, and below it, in a call, the closure without its head.  All of the
scope is reached from the roots, and so is what is still to be read: the bindings or the formals and actuals,
and the body. -/
theorem binding_loops_keep_roots (hm : m.WellFormed) (hargs : m.Holds args)
    (hscope : m.Holds scope.value) (hreal : scope.value ≠ .poison) (fuel k : Nat) :
    Eval.OnlyAt (m.LetPoint (evalIn fuel) args scope) (evalIn fuel)
      (fun ev => Eval.runSpecial ev k .letIn args scope) m ∧
    ∀ func, ¬ m.arena.Dangling (.pair func) →
      Eval.OnlyAt (m.CallPoint (evalIn fuel) func args scope) (evalIn fuel)
        (fun ev => Eval.callClosure ev k func args scope) m :=
  ⟨onlyAt_let hm hargs hscope hreal fuel k, fun _ hfunc => onlyAt_call hm hfunc hargs hscope fuel k⟩

/-- A `let` of two bindings and a call with two formals, run by an evaluator that gives up at any depth but
one. -/
theorem binding_loops_keep_roots_two :
    (∃ m₂, (Eval.runSpecial (Eval.atDepth 3 (evalIn 1)) 3 .letIn (.pair ⟨7⟩) .top).run letMachine =
      .ok (.atom .t) m₂) ∧
    ∃ m₂, (Eval.callClosure (Eval.atDepth 3 (evalIn 1)) 3 ⟨0⟩ (.pair ⟨6⟩) .top).run shadowMachine =
      .ok .nil m₂ := by
  have hexpr : letMachine.Holds (.pair ⟨6⟩) := fun _ hid => .root (by simp [letMachine, hid])
  have hargs : letMachine.Holds (.pair ⟨7⟩) := Machine.holds_cdr hexpr
  have hscope : letMachine.Holds Scope.top.value := nofun
  have hactuals : shadowMachine.Holds (.pair ⟨6⟩) := fun _ hid => .root (by simp [shadowMachine, hid])
  have hcaller : shadowMachine.Holds Scope.top.value := nofun
  obtain ⟨hlet, -⟩ := binding_loops_keep_roots (by decide) hargs hscope (by decide) 1 3
  obtain ⟨-, hcall⟩ := binding_loops_keep_roots (by decide) hactuals hcaller (by decide) 1 3
  have hlet := hlet (Eval.atDepth 3 (evalIn 1)) fun _ _ _ h => run_atDepth h.depth
  have hcall := hcall ⟨0⟩ (by decide) (Eval.atDepth 3 (evalIn 1)) fun _ _ _ h => run_atDepth h.depth
  exact ⟨⟨_, hlet.trans rfl⟩, ⟨_, hcall.trans rfl⟩⟩

end ArenaLisp
