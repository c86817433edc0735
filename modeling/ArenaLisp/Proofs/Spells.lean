import ArenaLisp.Proofs.Grammar
import ArenaLisp.Proofs.Names
import ArenaLisp.Proofs.Tree

/-!
# Values and trees that spell an expression

A value spells an expression if it is made of pairs as the expression is, with the atom of each name in
its place (`Spells`).  It goes on doing so while its cells stay as they are and the lexicon grows
(`Spells.transfer`).  In a proper lexicon the value then unfolds to the tree that the expression denotes
(`Spells.unfolds`), in which there is nothing but nil, pairs and atoms that have a spelling.
-/

namespace ArenaLisp

namespace Lexicon

variable {l : Lexicon} {e : SExpr} {t u : Tree}

/-- Whether a tree is what an expression denotes, each name standing for its atom. -/
inductive Denotes (l : Lexicon) : SExpr → Tree → Prop
  | nil : Denotes l .nil .nil
  | name {s : String} {i : AtomId} (h : l.lookup? s = some (.atom i)) :
      Denotes l (.name s) (.atom i)
  | pair {e f : SExpr} {t u : Tree} (he : Denotes l e t) (hf : Denotes l f u) :
      Denotes l (.pair e f) (.pair t u)

/-- What an expression denotes, it denotes in a lexicon that has grown. -/
theorem Denotes.grows {l₂ : Lexicon} (h : l.Denotes e t) (hl : l.Grows l₂) : l₂.Denotes e t := by
  induction h with
  | nil => exact .nil
  | name hs => exact .name (hl.lookup? hs)
  | pair _ _ ihe ihf => exact .pair ihe ihf

/-- An expression denotes at most one tree. -/
theorem Denotes.unique (h : l.Denotes e t) (h' : l.Denotes e u) : t = u := by
  induction h generalizing u with
  | nil =>
    cases h'
    rfl
  | name hs =>
    cases h' with
    | name hs' =>
      rw [hs] at hs'
      cases hs'
      rfl
  | pair _ _ ihe ihf =>
    cases h' with
    | pair he hf => rw [ihe he, ihf hf]

end Lexicon

/-- A tree without builtins, the top-level marker and poison. -/
def Tree.Plain : Tree → Prop
  | .nil => True
  | .atom i => i ≠ .topLevel ∧ Value.atom i ≠ .poison
  | .builtin _ => False
  | .pair car cdr => car.Plain ∧ cdr.Plain

/-- What an expression denotes in a proper lexicon is plain. -/
theorem Lexicon.Denotes.plain {l : Lexicon} {e : SExpr} {t : Tree} (hl : l.Proper)
    (h : l.Denotes e t) : t.Plain := by
  induction h with
  | nil => trivial
  | name hs => exact ⟨fun htop => hl.ne_marker (htop ▸ hs), hl.ne_poison hs⟩
  | pair _ _ ihe ihf => exact ⟨ihe, ihf⟩

namespace Arena

/-- Whether a value is made as an expression says. -/
inductive Spells (a : Arena) (l : Lexicon) : Value → SExpr → Prop
  | nil : Spells a l .nil .nil
  | name {s : String} {i : AtomId} (h : l.lookup? s = some (.atom i)) :
      Spells a l (.atom i) (.name s)
  | pair {id : CellId} {x y : Value} {e f : SExpr} (h : a.graph id = (x, y))
      (he : Spells a l x e) (hf : Spells a l y f) : Spells a l (.pair id) (.pair e f)

namespace Spells

variable {a a' : Arena} {l l₂ : Lexicon} {v : Value} {e : SExpr}

theorem transfer (h : a.Spells l v e) (hagree : a.AgreeOn a' v) (hl : l.Grows l₂) :
    a'.Spells l₂ v e := by
  induction h with
  | nil => exact .nil
  | name h => exact .name (hl.lookup? h)
  | @pair id x y e f hgraph _ _ ihe ihf =>
    have hcar := hagree.car
    have hcdr := hagree.cdr
    rw [hgraph] at hcar hcdr
    exact .pair (hagree.graph.trans hgraph) (ihe hcar) (ihf hcdr)

/-- What a name is interned as spells it. -/
theorem intern (a : Arena) (l : Lexicon) (s : String) :
    a.Spells (l.intern s).2 (l.intern s).1 (.ofName s) := by
  unfold SExpr.ofName
  rcases l.intern_cases s with ⟨hs, h⟩ | ⟨hs, i, h⟩
  · rw [if_pos hs, h]
    exact .nil
  · have hlookup := l.lookup?_intern s
    rw [h] at hlookup
    rw [if_neg hs, h]
    exact .name hlookup

/-- What spells an expression unfolds to the tree that the expression denotes. -/
theorem unfolds (hl : l.Proper) (h : a.Spells l v e) : ∃ t, a.Unfolds v t ∧ l.Denotes e t := by
  induction h with
  | nil => exact ⟨_, .nil, .nil⟩
  | name hs => exact ⟨_, .atom (hl.ne_poison hs), .name hs⟩
  | pair hgraph _ _ ihe ihf =>
    obtain ⟨t, ht, he⟩ := ihe
    obtain ⟨u, hu, hf⟩ := ihf
    exact ⟨_, .pair (pair?_eq_some_iff.mpr ⟨hgraph, ht.ne_poison, hu.ne_poison⟩) ht hu,
      .pair he hf⟩

end Spells

end Arena

end ArenaLisp
