import ArenaLisp.Proofs.Reach
import ArenaLisp.Text.Render

/-!
# What a value unfolds to

A value of an arena stands for a finite tree, if it is not part of a cycle.  The relation `Unfolds`
says so, without regard to the cells in which the pairs lie: the tree is unique (`Unfolds.unique`),
it stays the same when other cells change (`Unfolds.transfer`), and short lists and printed forms can
be told from it.
-/

namespace ArenaLisp

/-- A finite structure that lies in no arena. -/
inductive Tree where
  | nil
  | atom (id : AtomId)
  | builtin (b : Builtin)
  | pair (car cdr : Tree)
  deriving DecidableEq, Repr

namespace Tree

/-- Truth as a tree. -/
def ofBool (b : Bool) : Tree := if b then .atom .t else .nil

def isNil : Tree → Bool
  | .nil => true
  | _ => false

/-- Whether the tree can be a bound identifier. -/
def isAtom : Tree → Bool
  | .nil | .atom _ => true
  | _ => false

/-- The first item of a list and the rest. -/
def uncons? : Tree → Option (Tree × Tree)
  | .pair x rest => some (x, rest)
  | _ => none

/-- The item of a proper list of one. -/
def one? (t : Tree) : Option Tree :=
  t.uncons?.bind fun p => if p.2 = .nil then some p.1 else none

/-- The items of a proper list of two. -/
def two? (t : Tree) : Option (Tree × Tree) :=
  t.uncons?.bind fun p => p.2.one?.map fun y => (p.1, y)

/-- The items of a proper list of three. -/
def three? (t : Tree) : Option (Tree × Tree × Tree) :=
  t.uncons?.bind fun p => p.2.two?.map fun yz => (p.1, yz)

/-! ### Printed forms -/

/-- The expression that a pair quotes. -/
def quoted? (car cdr : Tree) : Option Tree := if car = .atom .quote then cdr.one? else none

/-- What follows the first element of a list. -/
def tailText (element : Tree → List Char → List Char) : Nat → Tree → List Char → List Char
  | _, .nil, after => ')' :: after
  | 0, .pair _ _, after => ' ' :: Render.ellipsis ++ ')' :: after
  | count + 1, .pair car cdr, after => ' ' :: element car (tailText element count cdr after)
  | _, t, after => ' ' :: '.' :: ' ' :: element t (')' :: after)

/-- The text of a tree of which `depth` levels are shown. -/
def text (lexicon : Lexicon) : Nat → Tree → List Char → List Char
  | 0, _, after => Render.ellipsis ++ after
  | _ + 1, .nil, after => Lexicon.nilName.toList ++ after
  | _ + 1, .atom id, after => (lexicon.name id).toList ++ after
  | _ + 1, .builtin b, after => "#<builtin ".toList ++ b.name.toList ++ '>' :: after
  | depth + 1, .pair car cdr, after =>
    match quoted? car cdr with
    | some x => '\x27' :: text lexicon depth x after
    | none =>
      '(' :: text lexicon depth car (tailText (text lexicon depth) Render.maxTail cdr after)

theorem text_pair (lexicon : Lexicon) (depth : Nat) (car cdr : Tree) (after : List Char) :
    text lexicon (depth + 1) (.pair car cdr) after =
      match quoted? car cdr with
      | some x => '\x27' :: text lexicon depth x after
      | none =>
        '(' :: text lexicon depth car (tailText (text lexicon depth) Render.maxTail cdr after) :=
  rfl

/-- The printed form of a tree. -/
def render (lexicon : Lexicon) (t : Tree) : String :=
  String.ofList (t.text lexicon (Render.maxDepth + 1) [])

end Tree

namespace Arena

/-- A cell holds a pair if both of its slots hold something else than poison. -/
theorem pair?_eq_some_iff {a : Arena} {id : CellId} {x y : Value} :
    a.pair? id = some (x, y) ↔ a.graph id = (x, y) ∧ x ≠ .poison ∧ y ≠ .poison := by
  unfold pair? graph graphOf
  cases a.cells[id.toNat]? with
  | none =>
    refine iff_of_false nofun ?_
    rintro ⟨h, hx, -⟩
    exact hx (Prod.mk.inj h).1.symm
  | some cell =>
    show (if cell.car = .poison ∨ cell.cdr = .poison then none else some (cell.car, cell.cdr)) =
      some (x, y) ↔ (cell.car, cell.cdr) = (x, y) ∧ _
    constructor
    · intro h
      split at h
      · cases h
      · rename_i hne
        cases h
        exact ⟨rfl, not_or.mp hne⟩
    · rintro ⟨h, hx, hy⟩
      cases h
      rw [if_neg (not_or.mpr ⟨hx, hy⟩)]

/-- Whether a value stands for a tree.  Poison stands for nothing. -/
inductive Unfolds (a : Arena) : Value → Tree → Prop
  | nil : Unfolds a .nil .nil
  | atom {id : AtomId} (h : Value.atom id ≠ .poison) : Unfolds a (.atom id) (.atom id)
  | builtin (b : Builtin) : Unfolds a (.builtin b) (.builtin b)
  | pair {id : CellId} {x y : Value} {s t : Tree} (h : a.pair? id = some (x, y))
      (hs : Unfolds a x s) (ht : Unfolds a y t) : Unfolds a (.pair id) (.pair s t)

namespace Unfolds

variable {a a' : Arena} {v w : Value} {s t : Tree} {i : AtomId}

/-- A value unfolds to at most one tree. -/
theorem unique (h : a.Unfolds v s) (h' : a.Unfolds v t) : s = t := by
  induction h generalizing t with
  | nil | atom _ | builtin _ => cases h'; rfl
  | pair hpair _ _ ihs iht =>
    cases h' with
    | pair hpair' hs' ht' =>
      rw [hpair] at hpair'
      cases hpair'
      rw [ihs hs', iht ht']

/-- What is not changed in what a value reaches is not changed in its tree. -/
theorem transfer (h : a.Unfolds v t) (hagree : a.AgreeOn a' v) : a'.Unfolds v t := by
  induction h with
  | nil => exact .nil
  | atom h => exact .atom h
  | builtin b => exact .builtin b
  | @pair id x y s t hpair _ _ ihs iht =>
    obtain ⟨hgraph, hx, hy⟩ := pair?_eq_some_iff.mp hpair
    have hcar := hagree.car
    have hcdr := hagree.cdr
    rw [hgraph] at hcar hcdr
    exact .pair (pair?_eq_some_iff.mpr ⟨hagree.graph.trans hgraph, hx, hy⟩) (ihs hcar) (iht hcdr)

theorem ne_poison (h : a.Unfolds v t) : v ≠ .poison := by
  cases h with
  | atom h => exact h
  | nil | builtin _ | pair _ _ _ => nofun

theorem isNil (h : a.Unfolds v t) : v.isNil = t.isNil := by
  cases h <;> rfl

theorem isAtom (h : a.Unfolds v t) : v.isAtom = t.isAtom := by
  cases h <;> rfl

theorem eq_nil_iff (h : a.Unfolds v t) : v = .nil ↔ t = .nil := by
  cases h <;> simp

theorem eq_atom_iff (h : a.Unfolds v t) : v = .atom i ↔ t = .atom i := by
  cases h <;> simp

/-- Two values of which one is no pair are equal if their trees are. -/
theorem beq_eq (hv : a.Unfolds v s) (hw : a.Unfolds w t) (hne : (v.isPair && w.isPair) = false) :
    (v == w) = (s == t) := by
  rw [Bool.eq_iff_iff, beq_iff_eq, beq_iff_eq]
  cases hv <;> cases hw <;> simp [Value.isPair] at hne ⊢

end Unfolds

end Arena

end ArenaLisp
