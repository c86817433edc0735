import ArenaLisp.Proofs.Spells

/-!
# Printed trees and the grammar

The printer shows so many levels of a tree and so many elements of a list.  A readable tree that fits
prints as an expression that denotes it, whatever is printed behind it; one that does not fit prints as
a text that has an obstacle, because the mark of what is cut off is no expression.  Both are shown of
the printing of elements, level by level (`faithful_text`), and of what follows the first element of a
list, element by element (`Faithful.derives_tail`, `Faithful.blocks_tail`).
-/

namespace ArenaLisp

open Grammar

namespace Tree

/-- The number of pairs. -/
def pairs : Tree → Nat
  | .nil | .atom _ | .builtin _ => 0
  | .pair car cdr => car.pairs + cdr.pairs + 1

/-- The level of the innermost parts: an element of a list is one level below the list. -/
def height : Tree → Nat
  | .nil | .atom _ | .builtin _ => 0
  | .pair car cdr => max (car.height + 1) cdr.height

/-- The number of pairs of a list, from one tail to the next. -/
def spine : Tree → Nat
  | .nil | .atom _ | .builtin _ => 0
  | .pair _ cdr => cdr.spine + 1

/-- The number of pairs of the longest list in a tree. -/
def width : Tree → Nat
  | .nil | .atom _ | .builtin _ => 0
  | .pair car cdr => max (max car.width cdr.width) (cdr.spine + 1)

/-- Whether a tree is made of pairs, nil and atoms in use other than the top-level marker, the names of
which can be read. -/
def Readable (l : Lexicon) : Tree → Prop
  | .nil => True
  | .atom i => i.index.toNat < l.count ∧ i ≠ .topLevel ∧ IsName (l.name i).toList
  | .builtin _ => False
  | .pair car cdr => car.Readable l ∧ cdr.Readable l

/-- Whether nothing of a tree is cut off when `depth` levels are shown. -/
def Fits (depth : Nat) (t : Tree) : Prop := t.height < depth ∧ t.width ≤ Render.maxTail + 1

/-- Whether nothing is cut off of what follows the first element of a list, when `count` elements are
shown of it. -/
def FitsBehind (depth count : Nat) (t : Tree) : Prop :=
  t.height ≤ depth ∧ t.width ≤ Render.maxTail + 1 ∧ t.spine ≤ count

instance (depth : Nat) (t : Tree) : Decidable (t.Fits depth) := inferInstanceAs (Decidable (_ ∧ _))

variable {l : Lexicon} {depth count n : Nat} {s t u car cdr x : Tree} {i : AtomId} {e : SExpr}
  {cs w after rest left : List Char} {o : Obstacle}

/-! ### What fits -/

theorem one?_eq_some (h : t.one? = some x) : t = .pair x .nil := by
  cases t with
  | nil | atom _ | builtin _ => cases h
  | pair y rest =>
    have h : (if rest = .nil then some y else none) = some x := h
    rw [Option.ite_none_right_eq_some] at h
    obtain ⟨rfl, h⟩ := h
    cases h
    rfl

theorem quoted?_eq_some (h : quoted? car cdr = some x) :
    car = .atom .quote ∧ cdr = .pair x .nil := by
  rw [quoted?, Option.ite_none_right_eq_some] at h
  exact ⟨h.1, one?_eq_some h.2⟩

theorem fits_quoted : (Tree.pair (.atom .quote) (.pair x .nil)).Fits (depth + 1) ↔ x.Fits depth := by
  have htail : 2 ≤ Render.maxTail + 1 := by decide
  simp only [Fits, height, width, spine]
  omega

theorem fits_pair : (Tree.pair car cdr).Fits (depth + 1) ↔
    car.Fits depth ∧ cdr.FitsBehind depth Render.maxTail := by
  simp only [Fits, FitsBehind, height, width]
  omega

theorem fitsBehind_pair (hcount : count < Render.maxTail) :
    (Tree.pair car cdr).FitsBehind depth (count + 1) ↔
      car.Fits depth ∧ cdr.FitsBehind depth count := by
  simp only [Fits, FitsBehind, height, width, spine]
  omega

theorem not_fitsBehind_zero : ¬ (Tree.pair car cdr).FitsBehind depth 0 := by
  simp only [FitsBehind, spine]
  omega

end Tree

namespace Lexicon.Denotes

variable {l : Lexicon} {e : SExpr} {t : Tree}

theorem pairs_eq (h : l.Denotes e t) : e.pairs = t.pairs := by
  induction h with
  | nil | name _ => rfl
  | pair _ _ ihe ihf => rw [SExpr.pairs, Tree.pairs, ihe, ihf]

end Lexicon.Denotes

/-- Printing of elements that is read back: a readable tree that fits prints as an expression that
denotes it, and one that does not fit as a text that has an obstacle. -/
structure Faithful (l : Lexicon) (depth : Nat) (element : Tree → List Char → List Char) : Prop where
  derives : ∀ t after, t.Readable l → t.Fits depth → AtDelimiter after →
    ∃ e, Derives .expr (element t after) e after ∧ l.Denotes e t
  blocks : ∀ t after, t.Readable l → ¬ t.Fits depth →
    ∃ o left n, Blocks .expr (element t after) o left n ∧ n ≤ t.pairs
  head : ∀ t after, t.Readable l →
    ∃ x r, (element t after).dropWhile isBlank = x :: r ∧ x ≠ ')' ∧ (0 < depth → x ≠ '.')

namespace Grammar

theorem atDelimiter_tailText (element : Tree → List Char → List Char) (count : Nat) (t : Tree)
    (after : List Char) : AtDelimiter (t.tailText element count after) := by
  cases count with
  | zero => cases t <;> exact atDelimiter_cons (by decide)
  | succ count => cases t <;> exact atDelimiter_cons (by decide)

end Grammar

namespace Faithful

variable {l : Lexicon} {depth count : Nat} {element : Tree → List Char → List Char} {t : Tree}
  {cs after : List Char} {e : SExpr}

/-- An expression behind which a rest of a list is printed that fits, with that rest. -/
theorem derives_tail (h : Faithful l depth element) (hdepth : 0 < depth) (ht : t.Readable l)
    (hfits : t.FitsBehind depth count) (hcount : count ≤ Render.maxTail)
    (he : Derives .expr cs e (t.tailText element count after)) :
    ∃ f, Derives .items cs (.pair e f) after ∧ l.Denotes f t := by
  -- the explicit tail of an improper list
  have hdot : ∀ i cs e, (Tree.atom i).Readable l →
      Derives .expr cs e (' ' :: '.' :: ' ' :: element (.atom i) (')' :: after)) →
      ∃ f, Derives .items cs (.pair e f) after ∧ l.Denotes f (.atom i) := by
    intro i cs e hi he
    have hfits : (Tree.atom i).Fits depth := ⟨hdepth, Nat.zero_le _⟩
    obtain ⟨f, hf, hdenotes⟩ := h.derives _ (')' :: after) hi hfits (atDelimiter_cons (by decide))
    exact ⟨f, .dotted he rfl (hf.congr rfl) rfl, hdenotes⟩
  induction t generalizing cs e count with
  | nil =>
    have hclose : Derives .items (')' :: after) .nil after := .close rfl
    cases count with
    | zero | succ count => exact ⟨.nil, .more he hclose, .nil⟩
  | atom i =>
    cases count with
    | zero | succ count => exact hdot i cs e ht he
  | builtin b => exact ht.elim
  | pair a d _ ihd =>
    cases count with
    | zero => exact absurd hfits Tree.not_fitsBehind_zero
    | succ count =>
      rw [Tree.fitsBehind_pair hcount] at hfits
      obtain ⟨g, hg, ha⟩ := h.derives a _ ht.1 hfits.1 (atDelimiter_tailText element count d after)
      have hg : Derives .expr (' ' :: element a (d.tailText element count after)) g _ := hg.congr rfl
      obtain ⟨f, hf, hd⟩ := ihd ht.2 hfits.2 (Nat.le_of_lt hcount) hg
      exact ⟨.pair g f, .more he hf, .pair ha hd⟩

/-- An expression behind which a rest of a list is printed that does not fit: there is an obstacle. -/
theorem blocks_tail (h : Faithful l depth element) (hdepth : 0 < depth) (ht : t.Readable l)
    (hfits : ¬ t.FitsBehind depth count) (hcount : count ≤ Render.maxTail)
    (he : Derives .expr cs e (t.tailText element count after)) :
    ∃ o left n, Blocks .items cs o left (e.pairs + n) ∧ n ≤ t.pairs := by
  induction t generalizing cs e count with
  | nil => exact absurd ⟨Nat.zero_le _, Nat.zero_le _, Nat.zero_le _⟩ hfits
  | atom i => exact absurd ⟨Nat.zero_le _, Nat.zero_le _, Nat.zero_le _⟩ hfits
  | builtin b => exact ht.elim
  | pair a d _ ihd =>
    cases count with
    | zero =>
      -- the list is cut off where a dot would stand before its tail
      exact ⟨_, _, 0, .afterDot he rfl (.strayDot rfl), Nat.zero_le _⟩
    | succ count =>
      have htext : (Tree.pair a d).tailText element (count + 1) after =
          ' ' :: element a (d.tailText element count after) := rfl
      rw [htext] at he
      obtain ⟨x, r, hr, hclose, hdot⟩ := h.head a (d.tailText element count after) ht.1
      have hfirst : (' ' :: element a (d.tailText element count after)).dropWhile isBlank = x :: r := hr
      have hne : ((' ' :: element a (d.tailText element count after)).dropWhile isBlank).head? ≠
          some '.' := by
        rw [hfirst]
        simpa using hdot hdepth
      rw [Tree.fitsBehind_pair hcount] at hfits
      by_cases ha : a.Fits depth
      · obtain ⟨g, hg, hdenotes⟩ := h.derives a _ ht.1 ha (atDelimiter_tailText element count d after)
        have hg : Derives .expr (' ' :: element a (d.tailText element count after)) g _ := hg.congr rfl
        obtain ⟨o, left, n, hblocks, hn⟩ :=
          ihd ht.2 (fun hd => hfits ⟨ha, hd⟩) (Nat.le_of_lt hcount) hg
        refine ⟨o, left, _, .tail he hne hblocks, ?_⟩
        rw [hdenotes.pairs_eq, Tree.pairs]
        omega
      · obtain ⟨o, left, n, hblocks, hn⟩ := h.blocks a (d.tailText element count after) ht.1 ha
        have hblocks : Blocks .expr (' ' :: element a (d.tailText element count after)) o left n :=
          hblocks.congr rfl
        refine ⟨o, left, n, .tail he hne (.head hfirst hclose hblocks), ?_⟩
        rw [Tree.pairs]
        omega

end Faithful

/-! ### The levels of a tree -/

section Levels

variable {l : Lexicon} {depth : Nat} {t : Tree} {i : AtomId} {after : List Char}

theorem derives_nilName (hafter : AtDelimiter after) :
    Derives .expr (Lexicon.nilName.toList ++ after) .nil after := by
  have hname : IsName Lexicon.nilName.toList := by decide
  have hderives := Derives.name (hname.dropWhile_append after) hname hafter
  rwa [String.ofList_toList, SExpr.ofName, if_pos rfl] at hderives

theorem derives_name (hl : Lexicon.initial.Grows l) (hi : (Tree.atom i).Readable l) (hafter : AtDelimiter after) :
    Derives .expr ((l.name i).toList ++ after) (.name (l.name i)) after := by
  obtain ⟨hlt, htop, hname⟩ := hi
  have hne : l.name i ≠ Lexicon.nilName := by
    intro heq
    have hlookup := hl.lookup?_name hlt htop
    rw [heq, Lexicon.lookup?_nilName] at hlookup
    cases hlookup
  have hderives := Derives.name (hname.dropWhile_append after) hname hafter
  rwa [String.ofList_toList, SExpr.ofName, if_neg hne] at hderives

theorem derives_text_succ (hl : Lexicon.initial.Grows l)
    (h : Faithful l depth (Tree.text l depth)) (ht : t.Readable l) (hfits : t.Fits (depth + 1))
    (hafter : AtDelimiter after) :
    ∃ e, Derives .expr (t.text l (depth + 1) after) e after ∧ l.Denotes e t := by
  cases t with
  | nil => exact ⟨.nil, derives_nilName hafter, .nil⟩
  | atom i => exact ⟨_, derives_name hl ht hafter, .name (hl.lookup?_name ht.1 ht.2.1)⟩
  | builtin b => exact ht.elim
  | pair car cdr =>
    rw [Tree.text_pair]
    cases hq : Tree.quoted? car cdr with
    | some x =>
      obtain ⟨rfl, rfl⟩ := Tree.quoted?_eq_some hq
      obtain ⟨e, he, hx⟩ := h.derives x after ht.2.1 (Tree.fits_quoted.mp hfits) hafter
      exact ⟨e.quote, .quote rfl he, .pair (.name hl.lookup?_quote) (.pair hx .nil)⟩
    | none =>
      obtain ⟨hcar, hcdr⟩ := Tree.fits_pair.mp hfits
      have hdepth : 0 < depth := Nat.lt_of_le_of_lt (Nat.zero_le _) hcar.1
      obtain ⟨e, he, hx⟩ := h.derives car _ ht.1 hcar
        (atDelimiter_tailText (Tree.text l depth) Render.maxTail cdr after)
      obtain ⟨f, hf, hy⟩ := h.derives_tail hdepth ht.2 hcdr (Nat.le_refl _) he
      exact ⟨.pair e f, .list rfl hf, .pair hx hy⟩

theorem blocks_text_succ (h : Faithful l depth (Tree.text l depth)) (ht : t.Readable l)
    (hfits : ¬ t.Fits (depth + 1)) :
    ∃ o left n, Blocks .expr (t.text l (depth + 1) after) o left n ∧ n ≤ t.pairs := by
  cases t with
  | nil | atom _ => exact absurd ⟨Nat.succ_pos depth, Nat.zero_le _⟩ hfits
  | builtin b => exact ht.elim
  | pair car cdr =>
    rw [Tree.text_pair, Tree.pairs]
    cases hq : Tree.quoted? car cdr with
    | some x =>
      obtain ⟨rfl, rfl⟩ := Tree.quoted?_eq_some hq
      rw [Tree.fits_quoted] at hfits
      obtain ⟨o, left, n, hblocks, hn⟩ := h.blocks x after ht.2.1 hfits
      refine ⟨o, left, n, .quote rfl hblocks, ?_⟩
      rw [Tree.pairs, Tree.pairs]
      omega
    | none =>
      rw [Tree.fits_pair] at hfits
      by_cases hcar : car.Fits depth
      · have hdepth : 0 < depth := Nat.lt_of_le_of_lt (Nat.zero_le _) hcar.1
        obtain ⟨e, he, hx⟩ := h.derives car _ ht.1 hcar
          (atDelimiter_tailText (Tree.text l depth) Render.maxTail cdr after)
        obtain ⟨o, left, n, hblocks, hn⟩ :=
          h.blocks_tail hdepth ht.2 (fun hcdr => hfits ⟨hcar, hcdr⟩) (Nat.le_refl _) he
        refine ⟨o, left, _, .list rfl hblocks, ?_⟩
        rw [hx.pairs_eq]
        omega
      · obtain ⟨o, left, n, hblocks, hn⟩ :=
          h.blocks car (cdr.tailText (Tree.text l depth) Render.maxTail after) ht.1 hcar
        obtain ⟨x, r, hr, hclose, -⟩ := h.head car _ ht.1
        exact ⟨o, left, n, .list rfl (.head hr hclose hblocks), by omega⟩

theorem head_text_succ (ht : t.Readable l) (after : List Char) :
    ∃ x r, (t.text l (depth + 1) after).dropWhile isBlank = x :: r ∧ x ≠ ')' ∧ x ≠ '.' := by
  cases t with
  | nil => exact ⟨'n', _, rfl, by decide, by decide⟩
  | atom i =>
    obtain ⟨x, w, hw, -, -, hclose, hdot, -⟩ := ht.2.2.exists_cons
    refine ⟨x, w ++ after, ?_, hclose, hdot⟩
    show ((l.name i).toList ++ after).dropWhile isBlank = x :: (w ++ after)
    rw [ht.2.2.dropWhile_append, hw, List.cons_append]
  | builtin b => exact ht.elim
  | pair car cdr =>
    rw [Tree.text_pair]
    cases Tree.quoted? car cdr with
    | some x => exact ⟨'\x27', _, rfl, by decide, by decide⟩
    | none => exact ⟨'(', _, rfl, by decide, by decide⟩

/-- What is shown of a tree is read back, however many levels are shown. -/
theorem faithful_text (hl : Lexicon.initial.Grows l) (depth : Nat) : Faithful l depth (Tree.text l depth) := by
  induction depth with
  | zero =>
    refine ⟨fun t after _ hfits => absurd hfits.1 (Nat.not_lt_zero _), fun t after _ _ => ?_,
      fun t after _ => ⟨'.', _, rfl, by decide, fun h => absurd h (Nat.lt_irrefl 0)⟩⟩
    exact ⟨_, _, 0, .strayDot rfl, Nat.zero_le _⟩
  | succ depth ih =>
    refine ⟨fun t after ht hfits hafter => derives_text_succ hl ih ht hfits hafter,
      fun t after ht hfits => blocks_text_succ ih ht hfits, fun t after ht => ?_⟩
    obtain ⟨x, r, hr, hclose, hdot⟩ := head_text_succ ht after
    exact ⟨x, r, hr, hclose, fun _ => hdot⟩

end Levels

end ArenaLisp
