import ArenaLisp.Proofs.Acyclic
import ArenaLisp.Proofs.TreeViews

/-!
# Equality of trees is decided

In a well-formed arena without a cycle every value that does not dangle stands for exactly one tree, and
the comparison of two values tells whether their trees are equal (`Machine.WellFormed.sameTree_decides`).
The comparison with a stack of the pairs of values that are still to be compared gives the same answer:
it tells whether all pairs on the stack have equal trees, and every turn takes a node off the trees on
their left (`comparePending_eq`).  The nodes are counted in the trees and not in the cells, which may be
exponentially fewer.
-/

namespace ArenaLisp

/-- The number of pairs and leaves. -/
def Tree.size : Tree → Nat
  | .nil | .atom _ | .builtin _ => 1
  | .pair car cdr => car.size + cdr.size + 1

theorem Tree.size_pos (t : Tree) : 0 < t.size := by
  cases t with
  | nil | atom _ | builtin _ | pair _ _ => exact Nat.succ_pos _

namespace Arena

/-- Whether a value stands for a tree.  It is the tree to which the value unfolds; but an atom stands for
itself, even if it is the one that marks a free cell. -/
def StandsFor (a : Arena) (v : Value) (t : Tree) : Prop :=
  a.Unfolds v t ∨ ∃ i, v = .atom i ∧ t = .atom i

variable {a : Arena} {v w : Value} {s t : Tree} {id : CellId} {i : AtomId}

/-! ### Values and their trees -/

theorem exists_pair_of_isPair (h : ¬ (v.isPair && w.isPair) = false) :
    ∃ p q, v = .pair p ∧ w = .pair q := by
  cases v with
  | nil | atom _ | builtin _ => exact absurd rfl h
  | pair p =>
    cases w with
    | nil | atom _ | builtin _ => exact absurd rfl h
    | pair q => exact ⟨p, q, rfl, rfl⟩

namespace StandsFor

theorem unfolds (h : a.StandsFor (.pair id) t) : a.Unfolds (.pair id) t := by
  rcases h with h | ⟨i, hi, -⟩
  · exact h
  · cases hi

theorem eq_of_atom (h : a.StandsFor (.atom i) t) : t = .atom i := by
  rcases h with h | ⟨j, hj, rfl⟩
  · cases h
    rfl
  · cases hj
    rfl

/-- A value stands for at most one tree. -/
theorem unique (hv : a.StandsFor v s) (hv' : a.StandsFor v t) : s = t := by
  rcases hv with hs | ⟨i, rfl, rfl⟩
  · rcases hv' with ht | ⟨i, rfl, rfl⟩
    · exact hs.unique ht
    · exact eq_of_atom (.inl hs)
  · exact hv'.eq_of_atom.symm

/-- Two values of which one is no pair are equal if their trees are. -/
theorem beq_eq (hv : a.StandsFor v s) (hw : a.StandsFor w t)
    (hne : (v.isPair && w.isPair) = false) : (v == w) = (s == t) := by
  rcases hv with hs | ⟨i, rfl, rfl⟩
  · rcases hw with ht | ⟨j, rfl, rfl⟩
    · exact hs.beq_eq ht hne
    · rw [Bool.eq_iff_iff, beq_iff_eq, beq_iff_eq, hs.eq_atom_iff]
  · rcases hw with ht | ⟨j, rfl, rfl⟩
    · rw [Bool.eq_iff_iff, beq_iff_eq, beq_iff_eq, eq_comm, ht.eq_atom_iff, eq_comm]
    · rw [Bool.eq_iff_iff, beq_iff_eq, beq_iff_eq, Value.atom.injEq, Tree.atom.injEq]

/-- The comparison of two values tells whether they stand for the same tree. -/
theorem sameTree_eq (ha : a.Coherent) (hv : a.StandsFor v s) (hw : a.StandsFor w t) :
    a.sameTree v w = .ok (s == t) := by
  by_cases hne : (v.isPair && w.isPair) = false
  · rw [sameTree, sameTreeWithin_of_isPair hne, hv.beq_eq hw hne]
  · obtain ⟨p, q, rfl, rfl⟩ := exists_pair_of_isPair hne
    exact Arena.sameTree_eq ha hv.unfolds hw.unfolds

end StandsFor

/-! ### The comparison turn by turn -/

section Turns

variable {pending : List (Value × Value)} {trees : List (Tree × Tree)} {turns : Nat} {p q : CellId}
  {x y x' y' : Value}

theorem comparePending_of_isPair (hne : (v.isPair && w.isPair) = false) :
    a.comparePending (turns + 1) ((v, w) :: pending) =
      if v = w then a.comparePending turns pending else .ok false := by
  cases v with
  | nil | atom _ | builtin _ => rfl
  | pair p =>
    cases w with
    | nil | atom _ | builtin _ => rfl
    | pair q => cases hne

theorem comparePending_pair (hp : a.pair? p = some (x, y)) (hq : a.pair? q = some (x', y')) :
    a.comparePending (turns + 1) ((.pair p, .pair q) :: pending) =
      if p = q then a.comparePending turns pending
      else a.comparePending turns ((x, x') :: (y, y') :: pending) := by
  obtain ⟨hcar, hcdr⟩ := pair?_eq_some.mp hp
  obtain ⟨hcar', hcdr'⟩ := pair?_eq_some.mp hq
  rw [comparePending, hcar, hcdr, hcar', hcdr']
  rfl

/-- The pairs of trees for which the pairs of values on a stack stand. -/
inductive StackFor (a : Arena) : List (Value × Value) → List (Tree × Tree) → Prop
  | nil : StackFor a [] []
  | cons {v w : Value} {s t : Tree} {pending : List (Value × Value)} {trees : List (Tree × Tree)}
    (hv : a.StandsFor v s) (hw : a.StandsFor w t) (h : StackFor a pending trees) :
    StackFor a ((v, w) :: pending) ((s, t) :: trees)

/-- The number of nodes on the left side of a stack. -/
def leftSize (trees : List (Tree × Tree)) : Nat := (trees.map fun q => q.1.size).sum

@[simp] theorem leftSize_cons : leftSize ((s, t) :: trees) = s.size + leftSize trees := by
  simp [leftSize]

/-- As many turns as there are nodes on the left side of a stack are enough to tell whether the trees of
all pairs are equal. -/
theorem comparePending_eq (h : a.StackFor pending trees) (hn : leftSize trees ≤ turns) :
    a.comparePending turns pending = .ok (trees.all fun q => q.1 == q.2) := by
  induction turns generalizing pending trees with
  | zero =>
    cases h with
    | nil => rfl
    | @cons v w s t _ _ hv hw h =>
      have hpos := s.size_pos
      rw [leftSize_cons] at hn
      omega
  | succ turns ih =>
    cases h with
    | nil => rfl
    | @cons v w s t pending trees hv hw h =>
      have hpos := s.size_pos
      rw [leftSize_cons] at hn
      rw [List.all_cons]
      by_cases hne : (v.isPair && w.isPair) = false
      · rw [comparePending_of_isPair hne, ← hv.beq_eq hw hne]
        by_cases hvw : v = w
        · rw [if_pos hvw, ih h (by omega), beq_iff_eq.mpr hvw, Bool.true_and]
        · rw [if_neg hvw, beq_eq_false_iff_ne.mpr hvw, Bool.false_and]
      · obtain ⟨p, q, rfl, rfl⟩ := exists_pair_of_isPair hne
        cases hv.unfolds with
        | @pair _ x y s₁ s₂ hp hx hy =>
        cases hw.unfolds with
        | @pair _ x' y' t₁ t₂ hq hx' hy' =>
        rw [comparePending_pair hp hq]
        by_cases hpq : p = q
        · subst hpq
          rw [if_pos rfl, ih h (by omega), hv.unique hw, beq_self_eq_true, Bool.true_and]
        · -- the node goes, and its two parts take its place
          have hparts : a.StackFor ((x, x') :: (y, y') :: pending) ((s₁, t₁) :: (s₂, t₂) :: trees) :=
            .cons (.inl hx) (.inl hx') (.cons (.inl hy) (.inl hy') h)
          rw [Tree.size] at hn
          have hsize : leftSize ((s₁, t₁) :: (s₂, t₂) :: trees) ≤ turns := by
            rw [leftSize_cons, leftSize_cons]
            omega
          rw [if_neg hpq, ih hparts hsize, List.all_cons, List.all_cons, Tree.pair_beq, Bool.and_assoc]

end Turns

end Arena

/-- A value prints as the tree for which it stands. -/
theorem Arena.StandsFor.render_eq_ok {m : Machine} {v : Value} {t : Tree}
    (h : m.arena.StandsFor v t) : m.render v = .ok (t.render m.lexicon) := by
  rcases h with h | ⟨i, rfl, rfl⟩
  · exact Machine.render_eq_ok h
  · rfl

namespace Machine.WellFormed

variable {m : Machine} {v w : Value} (hm : m.WellFormed) (hacyclic : m.arena.Acyclic)
include hm hacyclic

theorem exists_standsFor (hv : ¬ m.arena.Dangling v) : ∃ t, m.arena.StandsFor v t := by
  by_cases hp : v = .poison
  · exact ⟨_, .inr ⟨_, hp, rfl⟩⟩
  · obtain ⟨t, ht⟩ := hm.exists_unfolds hacyclic hv hp
    exact ⟨t, .inl ht⟩

/-- Two values are found to be the same tree exactly if there is a tree for which both stand. -/
theorem sameTree_eq_true_iff (hv : ¬ m.arena.Dangling v) (hw : ¬ m.arena.Dangling w) :
    m.arena.sameTree v w = .ok true ↔ ∃ t, m.arena.StandsFor v t ∧ m.arena.StandsFor w t := by
  obtain ⟨s, hs⟩ := hm.exists_standsFor hacyclic hv
  obtain ⟨t, ht⟩ := hm.exists_standsFor hacyclic hw
  rw [hs.sameTree_eq hm.arena ht, Except.ok.injEq, beq_iff_eq]
  constructor
  · rintro rfl
    exact ⟨s, hs, ht⟩
  · rintro ⟨u, hu, hu'⟩
    rw [hs.unique hu, ht.unique hu']

/-- Every value that does not dangle stands for exactly one tree.  The comparison of two such values comes
to an end and tells whether their trees are equal, and so does the comparison turn by turn if it is given
enough turns; it is an equivalence, and values with equal trees have the same printed form. -/
theorem sameTree_decides :
    (∀ v, ¬ m.arena.Dangling v → ∃! t, m.arena.StandsFor v t) ∧
    (∀ v w s t, m.arena.StandsFor v s → m.arena.StandsFor w t →
      m.arena.sameTree v w = .ok (s == t) ∧
        ∀ turns, s.size ≤ turns → m.arena.comparePending turns [(v, w)] = .ok (s == t)) ∧
    (Equivalence fun v w : {v // ¬ m.arena.Dangling v} => m.arena.sameTree v w = .ok true) ∧
    ∀ v w, ¬ m.arena.Dangling v → ¬ m.arena.Dangling w → m.arena.sameTree v w = .ok true →
      ∃ text, m.render v = .ok text ∧ m.render w = .ok text := by
  refine ⟨fun v hv => ?_, fun v w s t hs ht => ⟨hs.sameTree_eq hm.arena ht, fun turns hn => ?_⟩,
    ⟨fun v => ?_, fun {v w} h => ?_, fun {u v w} h h' => ?_⟩, fun v w hv hw h => ?_⟩
  · obtain ⟨t, ht⟩ := hm.exists_standsFor hacyclic hv
    exact ⟨t, ht, fun u hu => hu.unique ht⟩
  · have hstack : m.arena.StackFor [(v, w)] [(s, t)] := .cons hs ht .nil
    rw [Arena.comparePending_eq hstack (by simpa [Arena.leftSize] using hn), List.all_cons,
      List.all_nil, Bool.and_true]
  · obtain ⟨t, ht⟩ := hm.exists_standsFor hacyclic v.2
    exact (hm.sameTree_eq_true_iff hacyclic v.2 v.2).mpr ⟨t, ht, ht⟩
  · obtain ⟨t, hv, hw⟩ := (hm.sameTree_eq_true_iff hacyclic v.2 w.2).mp h
    exact (hm.sameTree_eq_true_iff hacyclic w.2 v.2).mpr ⟨t, hw, hv⟩
  · obtain ⟨t, hu, hv⟩ := (hm.sameTree_eq_true_iff hacyclic u.2 v.2).mp h
    obtain ⟨t', hv', hw⟩ := (hm.sameTree_eq_true_iff hacyclic v.2 w.2).mp h'
    exact (hm.sameTree_eq_true_iff hacyclic u.2 w.2).mpr ⟨t, hu, hv.unique hv' ▸ hw⟩
  · obtain ⟨t, ht, ht'⟩ := (hm.sameTree_eq_true_iff hacyclic hv hw).mp h
    exact ⟨t.render m.lexicon, ht.render_eq_ok, ht'.render_eq_ok⟩

end Machine.WellFormed

/-- A machine in which two trees are equal: the parts of the first lie in one cell, and those of the second
in two, one of which the trees share. -/
def sharingMachine : Machine :=
  { Machine.new 4 none with
    arena := (((Arena.empty 4).grow (.atom .t) .nil |>.grow (.pair ⟨0⟩) (.pair ⟨0⟩)).grow
      (.atom .t) .nil).grow (.pair ⟨2⟩) (.pair ⟨0⟩) }

theorem acyclic_sharingMachine : sharingMachine.arena.Acyclic := by
  unfold sharingMachine
  refine .grow (by decide) ?_ (by decide) (by decide)
  refine .grow (by decide) ?_ nofun nofun
  refine .grow (by decide) ?_ (by decide) (by decide)
  exact (Arena.acyclic_empty 4).grow (by decide) nofun nofun

/-- The two trees are found to be equal in seven turns, and are printed alike; the first is not equal to
its own part. -/
theorem sameTree_decides_sharingMachine :
    sharingMachine.arena.sameTree (.pair ⟨1⟩) (.pair ⟨3⟩) = .ok true ∧
      sharingMachine.arena.comparePending 7 [(.pair ⟨1⟩, .pair ⟨3⟩)] = .ok true ∧
      sharingMachine.arena.sameTree (.pair ⟨1⟩) (.pair ⟨0⟩) = .ok false ∧
      ∃ text, sharingMachine.render (.pair ⟨1⟩) = .ok text ∧
        sharingMachine.render (.pair ⟨3⟩) = .ok text := by
  have hwell : sharingMachine.WellFormed := by decide
  obtain ⟨-, hsame, -, hprint⟩ := hwell.sameTree_decides acyclic_sharingMachine
  have h₀ : sharingMachine.arena.StandsFor (.pair ⟨0⟩) (.pair (.atom .t) .nil) :=
    .inl (.pair rfl (.atom (by decide)) .nil)
  have h₂ : sharingMachine.arena.StandsFor (.pair ⟨2⟩) (.pair (.atom .t) .nil) :=
    .inl (.pair rfl (.atom (by decide)) .nil)
  have h₁ : sharingMachine.arena.StandsFor (.pair ⟨1⟩)
      (.pair (.pair (.atom .t) .nil) (.pair (.atom .t) .nil)) :=
    .inl (.pair rfl h₀.unfolds h₀.unfolds)
  have h₃ : sharingMachine.arena.StandsFor (.pair ⟨3⟩)
      (.pair (.pair (.atom .t) .nil) (.pair (.atom .t) .nil)) :=
    .inl (.pair rfl h₂.unfolds h₀.unfolds)
  obtain ⟨heq, hturns⟩ := hsame _ _ _ _ h₁ h₃
  refine ⟨heq, hturns 7 (by decide), (hsame _ _ _ _ h₁ h₀).1, ?_⟩
  exact hprint _ _ (by decide) (by decide) heq

end ArenaLisp
