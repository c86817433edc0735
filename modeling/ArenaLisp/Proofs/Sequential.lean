import ArenaLisp.Proofs.Agreement
import ArenaLisp.Proofs.Application
import ArenaLisp.Proofs.Shapes

/-!
# Bindings one after the other

A `let` evaluates the expression of each binding in the scope that the bindings before it have led to
(`run_bindInTurn`).  Hence a `let` comes to the same as a `let` of the bindings with which it begins around
a `let` of those behind them (`let_append_agrees`), whatever is behind them: where the one has come through
the first bindings, it stands as the other does at the beginning of its body, which looks `let` up once more
and pins the inner expression.
-/

namespace ArenaLisp

/-! ### The bindings with which a list begins -/

/-- Binds identifiers to expressions one after the other, each evaluated in the scope so far.  Gives the
bindings in this order, and the scope that begins with them. -/
def Eval.bindAll (ev : Evaluator) :
    List (Value × Value) → Scope → Action (List (Value × Value) × Scope)
  | [], scope => return ([], scope)
  | (ident, expr) :: pairs, scope => do
    let (v, scope) ← bindOne ev scope ident expr scope
    let (bindings, scope) ← bindAll ev pairs scope
    return ((ident, v) :: bindings, scope)

variable {m m₂ : Machine} {scope : Scope} {expr ident args rest body v : Value}
  {pairs : List (Value × Value)} {k fuel : Nat}

namespace Arena.Clauses

/-- What clauses that can be read begin with is no poison. -/
theorem ne_poison (h : m.arena.Clauses v pairs rest) (hclear : m.arena.Clear v) :
    ∀ p ∈ pairs, p.1 ≠ .poison := by
  induction h with
  | none => exact nofun
  | clause hclause _ ih =>
    exact List.forall_mem_cons.mpr ⟨(hclear.fst.item hclause _ List.mem_cons_self).1, ih hclear.snd⟩

/-- The parts of clauses that are held are held as well. -/
theorem holds (h : m.arena.Clauses v pairs rest) (hv : m.Holds v) :
    (∀ p ∈ pairs, m.Holds p.1 ∧ m.Holds p.2) ∧ m.Holds rest := by
  induction h with
  | none => exact ⟨nofun, hv⟩
  | clause hclause _ ih =>
    have hitems := Machine.holds_item (Machine.holds_car hv) hclause
    obtain ⟨hpairs, hrest⟩ := ih (Machine.holds_cdr hv)
    exact ⟨List.forall_mem_cons.mpr ⟨⟨hitems _ (by simp), hitems _ (by simp)⟩, hpairs⟩, hrest⟩

end Arena.Clauses

/-- Where all bindings succeed, the new scope is the innermost root in the place of the old one. -/
theorem meets_bindAll (fuel : Nat) (hm : m.Coherent)
    (hpairs : ∀ p ∈ pairs, p.1 ≠ .poison ∧ m.Holds p.2) (hscope : ¬ m.arena.Dangling scope.value)
    (hreal : scope.value ≠ .poison) :
    Meets (m.pin scope.value) (Eval.bindAll (evalIn fuel) pairs scope)
      (fun b m₂ => b.1.map Prod.fst = pairs.map Prod.fst ∧
        ∃ m₃, m₂ = m₃.pin b.2.value ∧ m.Extended scope b.1 m₃ b.2) fun _ _ => True := by
  induction pairs generalizing m scope with
  | nil => exact .pure ⟨rfl, m, rfl, .refl hm hscope hreal⟩
  | cons p pairs ih =>
    obtain ⟨ident, expr⟩ := p
    obtain ⟨hident, hexpr⟩ := hpairs _ List.mem_cons_self
    refine (meets_bindOne fuel hm hident hexpr Machine.holds_pin_self hscope hreal).bind ?_
      fun _ _ _ => trivial
    rintro ⟨v, s⟩ _ ⟨m₃, rfl, hextended⟩
    have hkeeps := hextended.keeps
    refine (ih hkeeps.coherent
      (fun p hp => (hpairs p (List.mem_cons_of_mem _ hp)).imp_right hkeeps.holds)
      hextended.not_dangling hextended.real).bind ?_ fun _ _ _ => trivial
    rintro ⟨bindings, s₂⟩ _ ⟨hnames, m₅, rfl, hrest⟩
    exact .pure ⟨congrArg (ident :: ·) hnames, m₅, rfl, hextended.cons hrest⟩

/-- One round of the loop of a `let`: its last reading comes after what it does. -/
theorem run_bindInTurn_pair {id : CellId} (hclear : m.arena.Clear (.pair id))
    (hbinding : m.arena.Lists (m.arena.graph id).1 [ident, expr]) (hatom : ident.isAtom)
    (ev : Evaluator) :
    (Eval.bindInTurn ev body (k + 1) (.pair id) scope).run m =
      (Eval.bindOne ev scope ident expr scope >>= fun b => do
        let rest ← Action.cdr id
        Eval.bindInTurn ev body k rest b.2).run m := by
  refine (Action.run_reading_bind hclear.car).trans ?_
  refine (run_operands_bind hclear.fst hbinding .letIn).trans ?_
  unfold Eval.bindOne
  dsimp only
  rw [if_pos hatom, if_pos hatom]
  simp only [bind_assoc, pure_bind]

/-- The loop of a `let` makes the bindings with which the list began, and goes on behind them. -/
theorem run_bindInTurn (fuel k : Nat) (hm : m.Coherent) (hargs : m.Holds args)
    (hclear : m.arena.Clear args) (hscope : ¬ m.arena.Dangling scope.value)
    (hreal : scope.value ≠ .poison) (h : m.arena.Clauses args pairs rest)
    (hatoms : ∀ p ∈ pairs, p.1.isAtom) :
    (Eval.bindInTurn (evalIn fuel) body (pairs.length + k) args scope).run (m.pin scope.value) =
      (Eval.bindAll (evalIn fuel) pairs scope >>= fun b =>
        Eval.bindInTurn (evalIn fuel) body k rest b.2).run (m.pin scope.value) := by
  induction pairs generalizing m args scope with
  | nil =>
    cases h
    rw [List.length_nil, Nat.zero_add]
    rfl
  | cons p pairs ih =>
    cases h with
    | @clause id ident expr _ _ hbinding hrest =>
      obtain ⟨hatom, hatoms⟩ := List.forall_mem_cons.mp hatoms
      rw [List.length_cons, Nat.add_right_comm,
        run_bindInTurn_pair (m := m.pin scope.value) hclear hbinding hatom, Eval.bindAll, bind_assoc]
      refine (meets_bindOne fuel hm (hclear.fst.item hbinding ident (by simp)).1
        (Machine.holds_item (Machine.holds_car hargs) hbinding expr (by simp))
        Machine.holds_pin_self hscope hreal).run_bind_congr ?_
      rintro ⟨v, s⟩ _ ⟨m₃, rfl, hextended⟩
      have hkeeps := hextended.keeps
      have hagree := hkeeps.agreeOn hargs
      refine (Action.run_reading_bind (hagree.cdr_eq.trans hclear.cdr)).trans ?_
      rw [ih hkeeps.coherent (hkeeps.holds (Machine.holds_cdr hargs))
        (hclear.snd.transfer hagree.cdr) hextended.not_dangling hextended.real
        (hrest.transfer hagree.cdr) hatoms]
      simp only [bind_assoc, pure_bind]

theorem Cuts.bindAll {ev ev' : Evaluator} (hev : ∀ expr scope, Cuts (ev expr scope) (ev' expr scope)) :
    Cuts (Eval.bindAll ev pairs scope) (Eval.bindAll ev' pairs scope) := by
  induction pairs generalizing scope with
  | nil => exact refl _
  | cons p pairs ih =>
    refine bind ?_ fun b => ih.bind fun _ => refl _
    unfold Eval.bindOne
    split
    · exact (hev _ _).bind fun _ => refl _
    · exact refl _

namespace InStep

variable {M : Mode} {w : World} {α β : Type} {Q : World → α → β → Prop} {ev ev' : Evaluator}
  {scope scope' caller caller' : Scope} {u u' expr expr' : Value}

/-- One binding on both sides, in front of scopes that are the innermost roots and give way to the new
ones. -/
theorem bindOne_bind {f : Value × Scope → Action α} {f' : Value × Scope → Action β}
    (hev : EvalInStep M ev ev') (hw : w.Ok M) (hscope : w.Rel scope.value scope'.value)
    (hcaller : (w.pin scope.value scope'.value).Held caller.value caller'.value) (hatom : u.isAtom)
    (hu : w.Held u u') (hexpr : w.Rel expr expr')
    (hrest : ∀ w₂ b b', w.Next w₂ → w₂.Ok M → w₂.Rel b.2.value b'.2.value →
      InStep M w₂ (Action.pinned b.2.value (f b)) (Action.pinned b'.2.value (f' b')) Q) :
    InStep M w (Action.pinned scope.value (Eval.bindOne ev caller u expr scope >>= f))
      (Action.pinned scope'.value (Eval.bindOne ev' caller' u' expr' scope' >>= f')) Q := by
  unfold Eval.bindOne
  rw [if_pos hatom, if_pos (hu.1.isAtom.trans hatom)]
  simp only [bind_assoc, pure_bind]
  exact bindNext hev hw hscope hexpr hcaller hu fun w₂ v v' s s' hnext hw hs =>
    hrest w₂ (v, s) (v', s') hnext hw hs

/-- All bindings on both sides. -/
theorem bindAll_bind {pairs pairs' : List (Value × Value)}
    {f : List (Value × Value) × Scope → Action α} {f' : List (Value × Value) × Scope → Action β}
    (hev : EvalInStep M ev ev') (hw : w.Ok M) (hscope : w.Rel scope.value scope'.value)
    (hatoms : ∀ p ∈ pairs, p.1.isAtom)
    (hpairs : List.Forall₂ (fun p p' => w.Held p.1 p'.1 ∧ w.Held p.2 p'.2) pairs pairs')
    (hrest : ∀ w₂ b b', w.Next w₂ → w₂.Ok M → w₂.Rel b.2.value b'.2.value →
      InStep M w₂ (Action.pinned b.2.value (f b)) (Action.pinned b'.2.value (f' b')) Q) :
    InStep M w (Action.pinned scope.value (Eval.bindAll ev pairs scope >>= f))
      (Action.pinned scope'.value (Eval.bindAll ev' pairs' scope' >>= f')) Q := by
  induction pairs generalizing w pairs' scope scope' f f' with
  | nil =>
    cases hpairs
    exact hrest w ([], scope) ([], scope') (.refl hw) hw hscope
  | cons p pairs ih =>
    cases hpairs with
    | @cons _ p' _ pairs' hp hpairs =>
      obtain ⟨hatom, hatoms⟩ := List.forall_mem_cons.mp hatoms
      simp only [Eval.bindAll, bind_assoc, pure_bind]
      refine bindOne_bind hev hw hscope (World.held_pin hscope) hatom hp.1 hp.2.1 ?_
      intro w₂ b b' hnext hw₂ hs
      refine ih hw₂ hs hatoms (hpairs.imp fun _ _ h => ⟨h.1.next hnext, h.2.next hnext⟩) ?_
      exact fun w₃ c c' hnext₃ hw₃ hs₃ => hrest w₃ (_, c.2) (_, c'.2) (hnext.trans hnext₃) hw₃ hs₃

end InStep

/-! ### What a `let` comes to -/

/-- Whether an expression is a `let` around a body, of which the bindings begin with those of identifiers to
expressions, and go on with what is behind them. -/
def Arena.IsLet (a : Arena) (expr : Value) (pairs : List (Value × Value)) (rest body : Value) : Prop :=
  ∃ args, a.Lists expr [.atom Builtin.letIn.atom, args, body] ∧ a.Clauses args pairs rest ∧
    ∀ p ∈ pairs, p.1.isAtom

theorem Arena.IsLet.transfer {a a₂ : Arena} (h : a.IsLet expr pairs rest body)
    (hagree : a.AgreeOn a₂ expr) : a₂.IsLet expr pairs rest body := by
  obtain ⟨args, hlists, hclauses, hatoms⟩ := h
  refine ⟨args, hlists.transfer hagree, hclauses.transfer ?_, hatoms⟩
  obtain ⟨_, rfl, -, _, hrest, rfl, -⟩ := hlists
  have hcdr := hagree.cdr
  rw [hrest] at hcdr
  exact hcdr.car

/-- The parts of a `let` that is held are held as well. -/
theorem Arena.IsLet.holds (h : m.arena.IsLet expr pairs rest body) (hexpr : m.Holds expr) :
    (∀ p ∈ pairs, m.Holds p.1 ∧ m.Holds p.2) ∧ m.Holds rest ∧ m.Holds body := by
  obtain ⟨args, hlists, hclauses, -⟩ := h
  have hitems := Machine.holds_item hexpr hlists
  obtain ⟨hpairs, hrest⟩ := hclauses.holds (hitems args (by simp))
  exact ⟨hpairs, hrest, hitems body (by simp)⟩

/-- Applies what the head of a pair comes to to the rest of it. -/
def Eval.applyHead (ev : Evaluator) (fuel : Nat) (slots : Value × Value) (scope : Scope) :
    Action Value := do
  apply ev fuel (← ev slots.1 scope) slots.2 scope

/-- A pair is evaluated by applying what its head comes to. -/
theorem run_evalIn_pair {id : CellId} (hclear : m.arena.Clear (.pair id)) (fuel : Nat) :
    (evalIn (fuel + 1) (.pair id) scope).run m =
      (Action.pinned (.pair id) <|
        Eval.applyHead (evalIn fuel) fuel (m.arena.graph id) scope).run m := by
  refine congrArg (mapState Machine.unpin) ?_
  exact (Action.run_reading_bind (m := m.pin (.pair id)) hclear.car).trans
    (Action.run_reading_bind (m := m.pin (.pair id)) hclear.cdr)

/-- A form is run if its name is bound to it. -/
theorem run_evalIn_special {id : CellId} {b : Builtin} (hclear : m.arena.Clear (.pair id))
    (hhead : (m.arena.graph id).1 = .atom b.atom)
    (hb : scope.lookup m.arena b.atom = .ok (some (.builtin b))) (fuel : Nat) :
    (evalIn (fuel + 2) (.pair id) scope).run m =
      (Action.pinned (.pair id)
        (Eval.runSpecial (evalIn (fuel + 1)) (fuel + 1) b (m.arena.graph id).2 scope)).run m := by
  have ht : b.atom ≠ .t := by
    cases b <;> decide
  have hop : (evalIn (fuel + 1) (.atom b.atom) scope).run (m.pin (.pair id)) =
      .ok (.builtin b) (m.pin (.pair id)) := by
    show (Eval.evalAtom b.atom scope).run _ = _
    rw [Eval.evalAtom, if_neg ht]
    exact Action.run_reading_bind (m := m.pin (.pair id)) (f := (scope.lookup · b.atom)) hb
  rw [run_evalIn_pair hclear]
  refine congrArg (mapState Machine.unpin) ?_
  rw [Eval.applyHead, hhead]
  exact Action.run_bind_of_ok hop

theorem Scope.ne_poison_of_lookup {a : Arena} {i : AtomId} {o : Option Value}
    (h : scope.lookup a i = .ok o) : scope.value ≠ .poison := by
  intro hpoison
  rw [lookup, hpoison] at h
  cases h

/-- A `let` makes the bindings with which it begins, and goes on behind them. -/
theorem run_evalIn_let (hm : m.Coherent) (hexpr : ¬ m.arena.Dangling expr) (hclear : m.arena.Clear expr)
    (h : m.arena.IsLet expr pairs rest body) (hscope : m.Holds scope.value)
    (hlet : scope.lookup m.arena Builtin.letIn.atom = .ok (some (.builtin .letIn))) (fuel : Nat) :
    (evalIn (pairs.length + fuel + 2) expr scope).run m =
      (Action.pinned expr <| Action.pinned scope.value do
        let (_, s) ← Eval.bindAll (evalIn (pairs.length + fuel + 1)) pairs scope
        Eval.bindInTurn (evalIn (pairs.length + fuel + 1)) body (fuel + 1) rest s).run m := by
  obtain ⟨args, hlists, hclauses, hatoms⟩ := h
  have hpin := hm.pin hexpr
  have hargs := Machine.holds_item (m := m.pin expr) Machine.holds_pin_self hlists args (by simp)
  have hargs' := (hclear.item hlists args (by simp)).2
  obtain ⟨id, rfl, hhead, hrest⟩ := hlists
  rw [run_evalIn_special hclear hhead hlet]
  refine congrArg (mapState Machine.unpin) ?_
  refine (run_operands_bind (m := m.pin (.pair id)) hclear.snd hrest .letIn).trans ?_
  refine congrArg (mapState Machine.unpin) ?_
  exact run_bindInTurn (m := m.pin (.pair id)) _ (fuel + 1) hpin hargs hargs'
    (hpin.not_dangling hscope.pin) (Scope.ne_poison_of_lookup hlet) hclauses hatoms

/-- The bindings of a `let`, made while the expression and the scope are pinned. -/
theorem meets_let (fuel : Nat) (hm : m.Coherent) (hexpr : ¬ m.arena.Dangling expr)
    (hclear : m.arena.Clear expr) (h : m.arena.IsLet expr pairs rest body) (hscope : m.Holds scope.value)
    (hreal : scope.value ≠ .poison) :
    Meets (m.pin expr |>.pin scope.value) (Eval.bindAll (evalIn fuel) pairs scope)
      (fun b m₂ => b.1.map Prod.fst = pairs.map Prod.fst ∧
        ∃ m₃, m₂ = m₃.pin b.2.value ∧ (m.pin expr).Extended scope b.1 m₃ b.2) fun _ _ => True := by
  have hpin := hm.pin hexpr
  obtain ⟨hparts, -⟩ := h.holds (m := m.pin expr) Machine.holds_pin_self
  obtain ⟨args, hlists, hclauses, -⟩ := h
  have hidents := hclauses.ne_poison (hclear.item hlists args (by simp)).2
  exact meets_bindAll fuel hpin (fun p hp => ⟨hidents p hp, (hparts p hp).2⟩)
    (hpin.not_dangling hscope.pin) hreal

/-! ### A `let` around another -/

/-- What a `let` comes to that is the body of another, where each is run by an evaluator of its own. -/
def Eval.nested (ev ev₂ : Evaluator) (k : Nat) (expr : Value) (pairs : List (Value × Value))
    (inner rest body : Value) (scope : Scope) : Action Value :=
  Action.pinned expr <| Action.pinned scope.value do
    let (_, s) ← bindAll ev pairs scope
    Action.pinned inner <| Action.pinned s.value <| bindInTurn ev₂ body k rest s

theorem Cuts.nested {inner : Value} {k₁ k₂ k₃ l₁ l₂ l₃ : Nat} (h₁ : k₁ ≤ l₁) (h₂ : k₂ ≤ l₂)
    (h₃ : k₃ ≤ l₃) :
    Cuts (Eval.nested (evalIn k₁) (evalIn k₂) k₃ expr pairs inner rest body scope)
      (Eval.nested (evalIn l₁) (evalIn l₂) l₃ expr pairs inner rest body scope) := by
  refine .pinned _ (.pinned _ ((Cuts.bindAll (evalIn_cuts h₁)).bind fun b => .pinned _ (.pinned _ ?_)))
  exact Judgement.cuts.bindInTurn (evalIn_cuts h₂) h₃ body

/-- The inner `let` is looked up behind the bindings of the outer one, which do not hide it. -/
theorem run_evalIn_nested {inner : Value} (hm : m.Coherent) (hexpr : ¬ m.arena.Dangling expr)
    (hclear : m.arena.Clear expr) (houter : m.arena.IsLet expr pairs .nil inner)
    (hinner : m.arena.IsLet inner [] rest body) (hscope : m.Holds scope.value)
    (hlet : scope.lookup m.arena Builtin.letIn.atom = .ok (some (.builtin .letIn)))
    (hnames : ∀ p ∈ pairs, p.1 ≠ .atom Builtin.letIn.atom) (fuel : Nat) :
    (evalIn (pairs.length + fuel + 3) expr scope).run m =
      (Eval.nested (evalIn (pairs.length + fuel + 2)) (evalIn (pairs.length + fuel + 1))
        (pairs.length + fuel + 1) expr pairs inner rest body scope).run m := by
  refine (run_evalIn_let hm hexpr hclear houter hscope hlet (fuel + 1)).trans ?_
  have hbound := meets_let (pairs.length + fuel + 2) hm hexpr hclear houter hscope
    (Scope.ne_poison_of_lookup hlet)
  obtain ⟨-, -, hheld⟩ := houter.holds (m := m.pin expr) Machine.holds_pin_self
  have hinner_clear : m.arena.Clear inner := by
    obtain ⟨_, hlists, -⟩ := houter
    exact (hclear.item hlists inner (by simp)).2
  refine congrArg (mapState Machine.unpin) (congrArg (mapState Machine.unpin) ?_)
  refine hbound.run_bind_congr ?_
  rintro ⟨bindings, s⟩ _ ⟨hbindings, m₃, rfl, hextended⟩
  have hkeeps := hextended.keeps
  have hagree := hkeeps.agreeOn hheld
  have hlet₃ : s.lookup m₃.arena Builtin.letIn.atom = .ok (some (.builtin .letIn)) := by
    rw [hextended.lookup_of_not_mem]
    · exact hlet
    · rw [show bindings.map Prod.fst = _ from hbindings]
      intro hmem
      obtain ⟨p, hp, hp'⟩ := List.mem_map.mp hmem
      exact hnames p hp hp'
  have hrun := run_evalIn_let (m := m₃.pin s.value) (hkeeps.coherent.pin hextended.not_dangling)
    (hkeeps.coherent.not_dangling (hkeeps.holds hheld)) (hinner_clear.transfer hagree)
    (hinner.transfer hagree) Machine.holds_pin_self hlet₃ (pairs.length + fuel)
  rw [List.length_nil, Nat.zero_add] at hrun
  exact hrun

/-- A `let` in step with a `let` of its first bindings around a `let` of the others. -/
theorem InStep.let_nested {w : World} {scope scope' : Scope} {ev ev' : Evaluator}
    {expr expr' inner rest rest' body body' : Value} {pairs pairs' : List (Value × Value)} (k : Nat)
    (hw : w.Ok .apart) (hev : EvalInStep .apart ev ev') (hscope : w.Held scope.value scope'.value)
    (hexpr : ¬ w.left.arena.Dangling expr) (hexpr' : ¬ w.right.arena.Dangling expr')
    (hflat : w.left.arena.IsLet expr pairs rest body)
    (houter : w.right.arena.IsLet expr' pairs' .nil inner)
    (hinner : w.right.arena.IsLet inner [] rest' body')
    (hpairs : List.Forall₂ (fun p p' => w.Rel p.1 p'.1 ∧ w.Rel p.2 p'.2) pairs pairs')
    (hrest : w.Rel rest rest') (hbody : w.Rel body body') :
    InStep .apart w
      (Action.pinned expr <| Action.pinned scope.value do
        let (_, s) ← Eval.bindAll ev pairs scope
        Eval.bindInTurn ev body k rest s)
      (Eval.nested ev' ev' k expr' pairs' inner rest' body' scope') fun w₂ v v' => w₂.Rel v v' := by
  obtain ⟨hparts, hrest_left, hbody_left⟩ := hflat.holds (m := w.left.pin expr) Machine.holds_pin_self
  obtain ⟨hparts', -, hinner_right⟩ := houter.holds (m := w.right.pin expr') Machine.holds_pin_self
  obtain ⟨-, hrest_right, hbody_right⟩ := hinner.holds (m := w.right.pin expr') hinner_right
  refine .pinned ?_ fun _ _ _ h => h
  -- with the expressions pinned, all their parts are held
  have hw₁ := hw.pin_apart hexpr hexpr'
  have hheld : List.Forall₂ (fun p p' => (w.pin expr expr').Held p.1 p'.1 ∧
      (w.pin expr expr').Held p.2 p'.2) pairs pairs' := by
    have hleft := (List.forall₂_and_left _ _).mpr ⟨hparts, hpairs⟩
    have hright := (List.forall₂_and_left _ _).mpr ⟨hparts', hleft.flip⟩
    exact hright.flip.imp fun p p' h =>
      ⟨⟨h.2.2.1, h.2.1.1, h.1.1⟩, ⟨h.2.2.2, h.2.1.2, h.1.2⟩⟩
  have hrest₁ : (w.pin expr expr').Held rest rest' := ⟨hrest, hrest_left, hrest_right⟩
  have hbody₁ : (w.pin expr expr').Held body body' := ⟨hbody, hbody_left, hbody_right⟩
  obtain ⟨-, -, -, hatoms⟩ := hflat
  refine bindAll_bind hev hw₁ hscope.1 hatoms hheld fun w₂ (_, s) (_, s') hnext hw₂ hs => ?_
  -- on the right, the inner expression and its scope are pinned besides
  have hw₃ := (hw₂.pinRight (hw₂.not_dangling_right hs)).pinRight (w := w₂.pinRight s'.value)
    (hw₂.right.not_dangling (hnext.right.holds hinner_right))
  refine .pinned_right (.pinned_right ?_)
  exact bindInTurn hev k hw₃ (hbody₁.next hnext).pinRight.pinRight (hrest₁.next hnext).pinRight.pinRight hs

/-- The expression of a binding is evaluated in the scope that those before it lead to. -/
theorem Eval.bindAll_concat (ev : Evaluator) (ps : List (Value × Value)) (ident expr : Value)
    (scope : Scope) :
    bindAll ev (ps ++ [(ident, expr)]) scope = do
      let (bindings, s) ← bindAll ev ps scope
      let (v, s) ← bindOne ev s ident expr s
      return (bindings ++ [(ident, v)], s) := by
  induction ps generalizing scope with
  | nil => simp only [List.nil_append, bindAll, pure_bind]
  | cons p ps ih => simp only [List.cons_append, bindAll, ih, bind_assoc, pure_bind]

/-- A `let` agrees with a `let` of its first bindings around a `let` of those behind them, of which the first
do not hide the name `let`, and what is behind them may be anything.  Each of the bindings that stand in front
of something is made in turn: its expression is evaluated in a scope that looks a name up among the bindings
to its left, of which the last ones count, and then in the scope of the whole. -/
theorem let_append_agrees {w : World} {scope scope' : Scope}
    {expr expr' inner rest rest' body body' : Value} {pairs pairs' : List (Value × Value)}
    (hw : w.Ok .apart) (hleft : w.left.WellFormed) (hright : w.right.WellFormed)
    (hscope : w.Held scope.value scope'.value)
    (hlet : scope.lookup w.left.arena Builtin.letIn.atom = .ok (some (.builtin .letIn)))
    (hexpr : ¬ w.left.arena.Dangling expr) (hexpr' : ¬ w.right.arena.Dangling expr')
    (hflat : w.left.arena.IsLet expr pairs rest body)
    (houter : w.right.arena.IsLet expr' pairs' .nil inner)
    (hinner : w.right.arena.IsLet inner [] rest' body')
    (hpairs : List.Forall₂ (fun p p' => w.Rel p.1 p'.1 ∧ w.Rel p.2 p'.2) pairs pairs')
    (hrest : w.Rel rest rest') (hbody : w.Rel body body')
    (hnames : ∀ p ∈ pairs, p.1 ≠ .atom Builtin.letIn.atom) :
    w.Agree expr scope expr' scope' ∧
    ∀ ps qs, w.left.arena.IsLet expr ps qs body → ∀ fuel,
      (evalIn (ps.length + fuel + 2) expr scope).run w.left =
        (Action.pinned expr <| Action.pinned scope.value do
          let (_, s) ← Eval.bindAll (evalIn (ps.length + fuel + 1)) ps scope
          Eval.bindInTurn (evalIn (ps.length + fuel + 1)) body (fuel + 1) qs s).run w.left ∧
      Meets (w.left.pin expr |>.pin scope.value)
        (Eval.bindAll (evalIn (ps.length + fuel + 1)) ps scope)
        (fun (bindings, s) m₂ => bindings.map Prod.fst = ps.map Prod.fst ∧
          ∀ i, s.lookup m₂.arena i =
            match bindings.reverse.find? (·.1 = .atom i) with
            | some b => .ok (some b.2)
            | none => scope.lookup w.left.arena i)
        (fun _ _ => True) ∧
      ∀ ident e, Eval.bindAll (evalIn (ps.length + fuel + 1)) (ps ++ [(ident, e)]) scope = do
        let (bindings, s) ← Eval.bindAll (evalIn (ps.length + fuel + 1)) ps scope
        let (v, s) ← Eval.bindOne (evalIn (ps.length + fuel + 1)) s ident e s
        return (bindings ++ [(ident, v)], s) := by
  constructor
  · -- both sides make `pairs.length` bindings, and the right has one level more to go down
    have hlet' := hw.lookup_builtin hscope.1 hlet
    have hnames' : ∀ p' ∈ pairs', p'.1 ≠ .atom Builtin.letIn.atom := by
      have hboth := ((List.forall₂_and_left _ _).mpr ⟨hnames, hpairs⟩).flip
      refine ((List.forall₂_and_left _ _).mp (hboth.imp fun p' p h => ⟨?_, h⟩)).1
      exact (hw.lawful.eq_fixed_iff h.2.1 (by decide)).not.mp h.1
    have hlength := hpairs.length_eq
    have hrun' := run_evalIn_nested hw.right hexpr' (hright.clear_of_not_dangling hexpr') houter
      hinner hscope.2.2 hlet' hnames'
    refine .of_inStep (pairs.length + 2) (fun n =>
      Eval.nested (evalIn (pairs.length + n + 1)) (evalIn (pairs.length + n + 1)) (n + 1)
        expr' pairs' inner rest' body' scope') hw (fun n => ?_) (fun n => ?_) fun fuel => ?_
    · have hrun := run_evalIn_let hw.left hexpr (hleft.clear_of_not_dangling hexpr) hflat hscope.2.1
        hlet n
      rw [show n + (pairs.length + 2) = pairs.length + n + 2 by omega]
      exact (InStep.let_nested (n + 1) hw (evalIn_inStep .apart _) hscope hexpr hexpr' hflat houter
        hinner hpairs hrest hbody).of_runs (.refl hw) hrun rfl
    · refine ⟨pairs'.length + n + 3, ?_⟩
      rw [CutAt, hrun' n]
      exact Cuts.nested (by omega) (by omega) (by omega) w.right
    · refine ⟨pairs.length + fuel + 1, ?_⟩
      refine CutAt.trans (evalIn_cuts (by omega : fuel ≤ pairs'.length + fuel + 3) expr' scope' w.right) ?_
      rw [CutAt, hrun' fuel]
      exact Cuts.nested (by omega) (by omega) (by omega) w.right
  · intro ps qs hps fuel
    have hclear := hleft.clear_of_not_dangling hexpr
    refine ⟨run_evalIn_let hw.left hexpr hclear hps hscope.2.1 hlet fuel, ?_,
      fun ident e => Eval.bindAll_concat _ ps ident e scope⟩
    refine (meets_let _ hw.left hexpr hclear hps hscope.2.1 (Scope.ne_poison_of_lookup hlet)).mono ?_
      fun _ _ h => h
    rintro ⟨bindings, s⟩ _ ⟨hbindings, m₃, rfl, hextended⟩
    exact ⟨hbindings, hextended.lookup⟩

/-- A machine that holds `(let ((a t) (a a)) a)` and `(let ((a t)) (let ((a a)) a))`, for the atom 11 as
`a`. -/
def letMachine : Machine :=
  { Machine.new 18 none with
    arena := ⟨#[⟨.atom ⟨11⟩, .pair ⟨1⟩, false⟩, ⟨.atom .t, .nil, false⟩,
      ⟨.atom ⟨11⟩, .pair ⟨3⟩, false⟩, ⟨.atom ⟨11⟩, .nil, false⟩,
      ⟨.pair ⟨0⟩, .pair ⟨5⟩, false⟩, ⟨.pair ⟨2⟩, .nil, false⟩,
      ⟨.atom ⟨9⟩, .pair ⟨7⟩, false⟩, ⟨.pair ⟨4⟩, .pair ⟨3⟩, false⟩,
      ⟨.pair ⟨0⟩, .nil, false⟩, ⟨.atom ⟨9⟩, .pair ⟨10⟩, false⟩, ⟨.pair ⟨5⟩, .pair ⟨3⟩, false⟩,
      ⟨.atom ⟨9⟩, .pair ⟨12⟩, false⟩, ⟨.pair ⟨8⟩, .pair ⟨13⟩, false⟩, ⟨.pair ⟨9⟩, .nil, false⟩],
      [], 18, ⟨0, 0⟩⟩
    roots := [.pair ⟨6⟩, .pair ⟨11⟩] }

/-- Both expressions of the machine come to the same, which is the value of the first binding. -/
theorem let_append_agrees_letMachine :
    (World.self letMachine).Agree (.pair ⟨6⟩) .top (.pair ⟨11⟩) .top ∧
      ∃ m₂ m₃, letMachine.Gives (.pair ⟨6⟩) .top (.atom .t) m₂ ∧
        letMachine.Gives (.pair ⟨11⟩) .top (.atom .t) m₃ := by
  have hwell : letMachine.WellFormed := by decide
  have hrel : ∀ v, ¬ letMachine.arena.Dangling v → v ≠ .poison → (World.self letMachine).Rel v v :=
    fun _ => World.rel_self
  have hscope : (World.self letMachine).Held Scope.top.value Scope.top.value :=
    ⟨hrel _ (by decide) (by decide), nofun, nofun⟩
  have hbinding : letMachine.arena.Lists (.pair ⟨0⟩) [.atom ⟨11⟩, .atom .t] :=
    ⟨⟨0⟩, rfl, rfl, ⟨1⟩, rfl, rfl, rfl⟩
  have hflat : letMachine.arena.IsLet (.pair ⟨6⟩) [(.atom ⟨11⟩, .atom .t)] (.pair ⟨5⟩) (.atom ⟨11⟩) :=
    ⟨.pair ⟨4⟩, ⟨⟨6⟩, rfl, rfl, ⟨7⟩, rfl, rfl, ⟨3⟩, rfl, rfl, rfl⟩, .clause hbinding (.none _), by decide⟩
  have houter : letMachine.arena.IsLet (.pair ⟨11⟩) [(.atom ⟨11⟩, .atom .t)] .nil (.pair ⟨9⟩) :=
    ⟨.pair ⟨8⟩, ⟨⟨11⟩, rfl, rfl, ⟨12⟩, rfl, rfl, ⟨13⟩, rfl, rfl, rfl⟩, .clause hbinding (.none _),
      by decide⟩
  have hinner : letMachine.arena.IsLet (.pair ⟨9⟩) [] (.pair ⟨5⟩) (.atom ⟨11⟩) :=
    ⟨.pair ⟨5⟩, ⟨⟨9⟩, rfl, rfl, ⟨10⟩, rfl, rfl, ⟨3⟩, rfl, rfl, rfl⟩, .none _, nofun⟩
  refine ⟨?_, _, _, ⟨5, rfl⟩, ⟨5, rfl⟩⟩
  exact (let_append_agrees (World.ok_self hwell) hwell hwell hscope rfl (by decide) (by decide) hflat houter hinner
    (.cons ⟨hrel _ (by decide) (by decide), hrel _ (by decide) (by decide)⟩ .nil)
    (hrel _ (by decide) (by decide)) (hrel _ (by decide) (by decide)) (by decide)).1

end ArenaLisp
