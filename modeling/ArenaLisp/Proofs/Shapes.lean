import ArenaLisp.Proofs.Clear
import ArenaLisp.Proofs.EvalRuns
import ArenaLisp.Proofs.Meets
import ArenaLisp.Proofs.PinDiscipline

/-!
# The shapes of operands

A special form refuses operands that have not its shape.  All forms but two check the shape in full
before they evaluate anything.  A `let` comes upon a wrong binding only when it has evaluated those
before, but then never gives a value.  A `cond` tries the clauses that stand before the first wrong one,
and if one of their tests is true, it never comes upon the wrong one (`shapes_refused`).
-/

namespace ArenaLisp

namespace Arena

/-- Whether a value is `nil`, or a pair whose first slot has a property. -/
def StartsOf (a : Arena) (P : Value → Prop) (v : Value) : Prop :=
  v = .nil ∨ ∃ id, v = .pair id ∧ P (a.graph id).1

/-- Whether operands have the shape of a form. -/
def Shaped (a : Arena) (args : Value) : Builtin → Prop
  | .quote | .car | .cdr => ∃ x, a.Lists args [x]
  | .cons | .eq | .lambda => ∃ x y, a.Lists args [x, y]
  | .cond => a.ListOf a.IsClause args
  | .letIn => ∃ bindings body, a.Lists args [bindings, body] ∧ a.ListOf a.IsBinding bindings

/-- Whether operands have the shape of a form as far as to what is evaluated first: in a `cond` to the
first clause, in a `let` to the first binding, and in all other forms to the end. -/
def Opens (a : Arena) (args : Value) : Builtin → Prop
  | .cond => a.StartsOf a.IsClause args
  | .letIn => ∃ bindings body, a.Lists args [bindings, body] ∧ a.StartsOf a.IsBinding bindings
  | b => a.Shaped args b

/-- The tests and results of clauses with which a list begins, and what is behind them. -/
inductive Clauses (a : Arena) : Value → List (Value × Value) → Value → Prop
  | none (rest : Value) : Clauses a rest [] rest
  | clause {id : CellId} {test result rest : Value} {clauses : List (Value × Value)}
    (h : a.Lists (a.graph id).1 [test, result]) (hrest : Clauses a (a.graph id).2 clauses rest) :
    Clauses a (.pair id) ((test, result) :: clauses) rest

variable {a a₂ : Arena} {P P₂ : Value → Prop} {v x y rest : Value} {id : CellId}
  {clauses : List (Value × Value)}

/-- In full, the shape is right as far as to what is evaluated first. -/
theorem Shaped.opens {b : Builtin} (h : a.Shaped v b) : a.Opens v b := by
  have hstarts : ∀ {P v}, a.ListOf P v → a.StartsOf P v := by
    rintro P v (_ | ⟨hfirst, _⟩)
    · exact .inl rfl
    · exact .inr ⟨_, rfl, hfirst⟩
  cases b with
  | cond => exact hstarts h
  | letIn =>
    obtain ⟨bindings, body, hlists, hbindings⟩ := h
    exact ⟨bindings, body, hlists, hstarts hbindings⟩
  | quote | car | cdr | cons | eq | lambda => exact h

theorem StartsOf.transfer (h : a.StartsOf P v) (hagree : a.AgreeOn a₂ v)
    (hP : ∀ x, a.AgreeOn a₂ x → P x → P₂ x) : a₂.StartsOf P₂ v := by
  rcases h with rfl | ⟨id, rfl, h⟩
  · exact .inl rfl
  · refine .inr ⟨id, rfl, ?_⟩
    rw [hagree.graph]
    exact hP _ hagree.car h

theorem IsClause.transfer (h : a.IsClause v) (hagree : a.AgreeOn a₂ v) : a₂.IsClause v := by
  obtain ⟨test, result, hlists⟩ := h
  exact ⟨test, result, hlists.transfer hagree⟩

namespace Clauses

theorem transfer (h : a.Clauses v clauses rest) (hagree : a.AgreeOn a₂ v) :
    a₂.Clauses v clauses rest := by
  induction h with
  | none => exact .none _
  | clause h _ ih =>
    refine .clause ?_ ?_
    · rw [hagree.graph]
      exact h.transfer hagree.car
    · rw [hagree.graph]
      exact ih hagree.cdr

theorem agree (h : a.Clauses v clauses rest) (hagree : a.AgreeOn a₂ v) : a.AgreeOn a₂ rest := by
  induction h with
  | none => exact hagree
  | clause _ _ ih => exact ih hagree.cdr

end Clauses

end Arena

/-- Tries clauses one after the other, and refuses what is behind them. -/
def Eval.tryClauses (ev : Evaluator) (scope : Scope) : List (Value × Value) → Action Value
  | [] => throw (.badOperands .cond)
  | (test, result) :: clauses => do
    if (← ev test scope).isNil then tryClauses ev scope clauses else ev result scope

variable {m m' : Machine} {args : Value} {scope : Scope} {ev : Evaluator} {k : Nat}

/-! ### Refusals -/

theorem run_operand_of_not (h : m.arena.Clear args) (hargs : ¬ ∃ x, m.arena.Lists args [x]) (b : Builtin) :
    (Eval.operand b args).run m = .error (.badOperands b) m :=
  (Action.run_reading_bind (h.one?_eq_none hargs)).trans rfl

theorem run_operands_of_not (h : m.arena.Clear args) (hargs : ¬ ∃ x y, m.arena.Lists args [x, y])
    (b : Builtin) : (Eval.operands b args).run m = .error (.badOperands b) m :=
  (Action.run_reading_bind (h.two?_eq_none hargs)).trans rfl

theorem run_operands_bind {α : Type} {x y : Value} {f : Value × Value → Action α}
    (h : m.arena.Clear args) (hargs : m.arena.Lists args [x, y]) (b : Builtin) :
    (Eval.operands b args >>= f).run m = (f (x, y)).run m := by
  rw [Action.run_bind, Eval.operands, Action.run_reading_bind (h.two?_eq_some hargs)]
  rfl

/-- A `cond` that does not start with a clause. -/
theorem run_firstTrue_of_not (h : m.arena.Clear args)
    (hargs : ¬ m.arena.StartsOf m.arena.IsClause args) :
    (Eval.firstTrue ev scope (k + 1) args).run m = .error (.badOperands .cond) m := by
  cases args with
  | nil => exact absurd (.inl rfl) hargs
  | atom _ | builtin _ => rfl
  | pair id =>
    refine (Action.run_reading_bind h.car).trans ((Action.run_reading_bind h.cdr).trans ?_)
    exact Action.run_bind_of_error
      (run_operands_of_not h.fst (fun hclause => hargs (.inr ⟨id, rfl, hclause⟩)) .cond)

/-- Bindings of a `let` that do not start with a binding. -/
theorem run_bindInTurn_of_not {body : Value} (h : m.arena.Clear args)
    (hargs : ¬ m.arena.StartsOf m.arena.IsBinding args) :
    (Eval.bindInTurn ev body (k + 1) args scope).run m = .error (.badOperands .letIn) m := by
  cases args with
  | nil => exact absurd (.inl rfl) hargs
  | atom _ | builtin _ => rfl
  | pair id =>
    refine (Action.run_reading_bind h.car).trans ?_
    by_cases hlists : ∃ ident expr, m.arena.Lists (m.arena.graph id).1 [ident, expr]
    · obtain ⟨ident, expr, hlists⟩ := hlists
      have hatom : ¬ ident.isAtom := fun hatom => hargs (.inr ⟨id, rfl, ident, expr, hlists, hatom⟩)
      refine (run_operands_bind h.fst hlists .letIn).trans ?_
      simp only [hatom]
      rfl
    · exact Action.run_bind_of_error (run_operands_of_not h.fst hlists .letIn)

/-- What has not the shape of a form as far as to what is evaluated first, is refused at once. -/
theorem run_runSpecial_of_not_opens {b : Builtin} (h : m.arena.Clear args)
    (hargs : ¬ m.arena.Opens args b) :
    (Eval.runSpecial ev (k + 1) b args scope).run m = .error (.badOperands b) m := by
  cases b with
  | quote => exact run_operand_of_not h hargs .quote
  | car => exact Action.run_bind_of_error (run_operand_of_not h hargs .car)
  | cdr => exact Action.run_bind_of_error (run_operand_of_not h hargs .cdr)
  | cons =>
    exact Action.run_bind_of_error (Action.run_bind_of_error (run_operands_of_not h hargs .cons))
  | eq => exact Action.run_bind_of_error (Action.run_bind_of_error (run_operands_of_not h hargs .eq))
  | lambda => exact Action.run_bind_of_error (run_operands_of_not h hargs .lambda)
  | cond => exact run_firstTrue_of_not h hargs
  | letIn =>
    by_cases hlists : ∃ bindings body, m.arena.Lists args [bindings, body]
    · obtain ⟨bindings, body, hlists⟩ := hlists
      refine (run_operands_bind h hlists .letIn).trans ?_
      have hbindings : m.arena.Clear bindings := by
        obtain ⟨id, rfl, rfl, -⟩ := hlists
        exact h.fst
      rw [Action.run_pinned, run_bindInTurn_of_not (m := m.pin scope.value) hbindings]
      · rfl
      · exact fun hstarts => hargs ⟨bindings, body, hlists, hstarts⟩
    · exact Action.run_bind_of_error (run_operands_of_not h hlists .letIn)

/-! ### Defects further on -/

/-- A `let` gives a value only if its operands have the shape in full. -/
theorem shaped_of_run_let {fuel : Nat} {v : Value} (hm : m.Coherent) (hargs : m.Holds args)
    (hscope : m.Holds scope.value)
    (hrun : (Eval.runSpecial (evalIn fuel) k .letIn args scope).run m = .ok v m') :
    m.arena.Shaped args .letIn := by
  have hargs := hm.guards_all hargs
  have h : Runs (.free True) m (Eval.runSpecial (evalIn fuel) k .letIn args scope)
      (Eval.runSpecial (evalIn fuel) k .letIn args scope) fun _ _ => m.arena.Shaped args .letIn := by
    refine (Runs.operands .letIn hm hargs.2).bind ?_
    rintro _ ⟨bindings, body⟩ - ⟨rfl, ⟨hbindings, hbody⟩, hlists⟩
    refine (Runs.bindInTurn (A := .all) (evalIn_runs trivial (fun _ _ _ => trivial) fuel) hm
      (fun _ _ _ _ _ => trivial) (hargs.piece hbody) (hargs.piece hbindings) (.inl trivial)
      (hm.guards_all hscope).2).mono ?_
    exact fun _ _ _ hv => ⟨bindings, body, hlists, hv.2⟩
  obtain ⟨-, h⟩ := h
  rw [hrun] at h
  exact h.2

/-- A `cond` tries the clauses with which it begins, and refuses what is behind them if that does not start
with a clause. -/
theorem run_firstTrue {fuel : Nat} {rest : Value} {clauses : List (Value × Value)} (hm : m.Coherent)
    (hargs : m.Holds args) (hclear : m.arena.Clear args) (hscope : m.Holds scope.value)
    (h : m.arena.Clauses args clauses rest) (hrest : ¬ m.arena.StartsOf m.arena.IsClause rest)
    (hk : clauses.length < k) :
    (Eval.firstTrue (evalIn fuel) scope k args).run m =
      (Eval.tryClauses (evalIn fuel) scope clauses).run m := by
  induction clauses generalizing m args k with
  | nil =>
    cases h
    obtain ⟨k, rfl⟩ := Nat.exists_eq_succ_of_ne_zero (Nat.ne_of_gt hk)
    exact run_firstTrue_of_not hclear hrest
  | cons clause clauses ih =>
    obtain ⟨k, rfl⟩ := Nat.exists_eq_succ_of_ne_zero (Nat.ne_of_gt (Nat.zero_lt_of_lt hk))
    cases h with
    | @clause id test result _ _ hclause hclauses =>
      refine (Action.run_reading_bind hclear.car).trans ((Action.run_reading_bind hclear.cdr).trans ?_)
      refine (run_operands_bind hclear.fst hclause .cond).trans ?_
      have htest : m.Holds test := by
        obtain ⟨id', hid, rfl, -⟩ := hclause
        exact Machine.holds_car (hid ▸ Machine.holds_car hargs)
      have hkeeps := evalIn_keeps fuel hm (hm.not_dangling htest) hscope
      rw [Eval.tryClauses, Action.run_bind, Action.run_bind]
      cases hrun : (evalIn fuel test scope).run m with
      | error e m₂ => rfl
      | ok v m₂ =>
        rw [hrun] at hkeeps
        obtain ⟨hkeeps, -⟩ := hkeeps
        dsimp only
        split
        · -- what is held looks the same after the test
          have hrests := Machine.holds_cdr hargs
          have hagree := hkeeps.agreeOn hrests
          refine ih hkeeps.coherent (hkeeps.holds hrests) (hclear.snd.transfer hagree)
            (hkeeps.holds hscope) (hclauses.transfer hagree) ?_ (Nat.lt_of_succ_lt_succ hk)
          exact fun hstarts => hrest
            (hstarts.transfer (hclauses.agree hagree).symm fun x hx h => h.transfer hx)
        · rfl

/-- Operands that have not the shape of their form, as far as to what is evaluated first, are refused
before anything is evaluated; for all forms but `cond` and `let` that is the shape in full.  A `let`
without the shape in full never gives a value.  A `cond` in which clauses stand before a defect tries
these, and refuses the defect if none of their tests is true. -/
theorem shapes_refused (hm : m.WellFormed) (hargs : m.Holds args) (hscope : m.Holds scope.value) :
    (∀ b ev k, ¬ m.arena.Opens args b →
      (Eval.runSpecial ev (k + 1) b args scope).run m = .error (.badOperands b) m) ∧
    (∀ fuel k v m', ¬ m.arena.Shaped args .letIn →
      (Eval.runSpecial (evalIn fuel) k .letIn args scope).run m ≠ .ok v m') ∧
    ∀ fuel k clauses rest, m.arena.Clauses args clauses rest →
      ¬ m.arena.StartsOf m.arena.IsClause rest → clauses.length < k →
        (Eval.runSpecial (evalIn fuel) k .cond args scope).run m =
          (Eval.tryClauses (evalIn fuel) scope clauses).run m := by
  have hclear := hm.clear hargs
  refine ⟨fun b ev k h => run_runSpecial_of_not_opens hclear h, fun fuel k v m' h hrun => ?_,
    fun fuel k clauses rest h hrest hk => ?_⟩
  · exact h (shaped_of_run_let hm.toCoherent hargs hscope hrun)
  · exact run_firstTrue hm.toCoherent hargs hclear hscope h hrest hk

/-- A machine that holds the operands `((t t) f)`, for the atom 11 as `f`. -/
def defectMachine : Machine :=
  { Machine.new 16 none with
    arena := ⟨#[⟨.atom .t, .nil, false⟩, ⟨.atom .t, .pair ⟨0⟩, false⟩, ⟨.atom ⟨11⟩, .nil, false⟩,
      ⟨.pair ⟨1⟩, .pair ⟨2⟩, false⟩], [], 16, ⟨0, 0⟩⟩
    roots := [.pair ⟨3⟩] }

theorem defectMachine_holds : defectMachine.Holds (.pair ⟨3⟩) ∧ defectMachine.Holds (.pair ⟨2⟩) := by
  have hroot : defectMachine.Holds (.pair ⟨3⟩) := fun id hid =>
    .root (by rw [← hid]; exact List.mem_singleton.mpr rfl)
  exact ⟨hroot, fun id hid => (hroot ⟨3⟩ rfl).child (.inr hid)⟩

theorem not_isClause_defectMachine : ¬ defectMachine.arena.IsClause (.atom ⟨11⟩) := by
  rintro ⟨test, result, id, hid, -⟩
  cases hid

/-- A defect at the beginning is refused by every evaluator, and one behind a clause is refused after it. -/
theorem shapes_refused_defectMachine :
    (∀ ev, (Eval.runSpecial ev 1 .cond (.pair ⟨2⟩) .top).run defectMachine =
      .error (.badOperands .cond) defectMachine) ∧
    (Eval.runSpecial (evalIn 2) 2 .cond (.pair ⟨3⟩) .top).run defectMachine =
      (Eval.tryClauses (evalIn 2) .top [(.atom .t, .atom .t)]).run defectMachine := by
  have hwell : defectMachine.WellFormed := by decide
  have hstarts : ¬ defectMachine.arena.StartsOf defectMachine.arena.IsClause (.pair ⟨2⟩) := by
    rintro (hnil | ⟨id, hid, h⟩)
    · cases hnil
    · cases hid
      exact not_isClause_defectMachine h
  have hclauses : defectMachine.arena.Clauses (.pair ⟨3⟩) [(.atom .t, .atom .t)] (.pair ⟨2⟩) :=
    .clause ⟨⟨1⟩, rfl, rfl, ⟨0⟩, rfl, rfl, rfl⟩ (.none _)
  have hscope : defectMachine.Holds Scope.top.value := nofun
  obtain ⟨-, -, hcond⟩ := shapes_refused hwell defectMachine_holds.1 hscope
  obtain ⟨hrefused, -, -⟩ := shapes_refused hwell defectMachine_holds.2 hscope
  exact ⟨fun ev => hrefused .cond ev 0 hstarts, hcond 2 2 _ _ hclauses hstarts (by decide)⟩

/-- A `cond` gives a value though there is a defect, if a test in front of it is true. -/
theorem cond_gives_value_before_defect :
    defectMachine.WellFormed ∧ defectMachine.Holds (.pair ⟨3⟩) ∧
      ¬ defectMachine.arena.Shaped (.pair ⟨3⟩) .cond ∧
      (Eval.runSpecial (evalIn 2) 2 .cond (.pair ⟨3⟩) .top).run defectMachine =
        .ok (.atom .t) defectMachine := by
  refine ⟨by decide, defectMachine_holds.1, ?_, rfl⟩
  rintro (_ | ⟨-, hrest⟩)
  have hrest : defectMachine.arena.ListOf defectMachine.arena.IsClause (.pair ⟨2⟩) := hrest
  rcases hrest with _ | ⟨h, -⟩
  exact not_isClause_defectMachine h

end ArenaLisp
