import ArenaLisp.Failure
import ArenaLisp.Lexicon
import ArenaLisp.Text.Cursor
import Mathlib.Data.List.TakeWhile

/-!
# The grammar of expressions

An expression is a name, a quoted expression or a list; blanks may stand before each of its parts.

    expr  = blanks (name | ' expr | ( items)
    items = blanks ) | expr items | expr blanks . expr blanks )

`Derives` says what an expression denotes and where it ends.  A text that does not begin with an
expression has an obstacle in it, which `Blocks` finds; there is no third case (`derives_or_blocks`).
-/

namespace ArenaLisp

/-- What an expression denotes: names and pairs, without an arena or a lexicon. -/
inductive SExpr where
  | nil
  | name (s : String)
  | pair (car cdr : SExpr)
  deriving DecidableEq, Repr

namespace SExpr

/-- What a name denotes. -/
def ofName (s : String) : SExpr := if s = Lexicon.nilName then .nil else .name s

/-- What a quoted expression denotes. -/
def quote (e : SExpr) : SExpr := .pair (.name "quote") (.pair e .nil)

/-- The number of pairs. -/
def pairs : SExpr → Nat
  | .nil | .name _ => 0
  | .pair car cdr => car.pairs + cdr.pairs + 1

@[simp] theorem pairs_ofName (s : String) : (ofName s).pairs = 0 := by
  unfold ofName
  split <;> rfl

@[simp] theorem pairs_quote (e : SExpr) : e.quote.pairs = e.pairs + 2 := by
  simp [quote, pairs]

end SExpr

namespace Grammar

/-- An expression, or what follows the opening parenthesis of a list or an element of it. -/
inductive Part where
  | expr
  | items
  deriving DecidableEq, Repr

/-- The characters of a name. -/
def IsName (w : List Char) : Prop :=
  w ≠ [] ∧ w.head? ≠ some '.' ∧ w.head? ≠ some '\x27' ∧ ∀ x ∈ w, isDelimiter x = false

-- the last part is decided over the characters of the text, not over all characters
instance (w : List Char) : Decidable (IsName w) :=
  haveI : Decidable (∀ x ∈ w, isDelimiter x = false) := List.decidableBAll _ w
  inferInstanceAs (Decidable (_ ∧ _))

/-- Whether a name that stands before a text ends there. -/
def AtDelimiter (rest : List Char) : Prop := ∀ x ∈ rest.head?, isDelimiter x = true

/-- A text begins with a part that denotes `e`, and what is behind it is left.  A name goes on as far
as it can. -/
inductive Derives : Part → List Char → SExpr → List Char → Prop
  | name {cs w rest : List Char} (h : cs.dropWhile isBlank = w ++ rest) (hw : IsName w)
      (hrest : AtDelimiter rest) : Derives .expr cs (.ofName (String.ofList w)) rest
  | quote {cs r rest : List Char} {e : SExpr} (h : cs.dropWhile isBlank = '\x27' :: r)
      (he : Derives .expr r e rest) : Derives .expr cs e.quote rest
  | list {cs r rest : List Char} {e : SExpr} (h : cs.dropWhile isBlank = '(' :: r)
      (he : Derives .items r e rest) : Derives .expr cs e rest
  | close {cs rest : List Char} (h : cs.dropWhile isBlank = ')' :: rest) :
      Derives .items cs .nil rest
  | more {cs d rest : List Char} {e t : SExpr} (he : Derives .expr cs e d)
      (ht : Derives .items d t rest) : Derives .items cs (.pair e t) rest
  | dotted {cs d r d' rest : List Char} {e t : SExpr} (he : Derives .expr cs e d)
      (hdot : d.dropWhile isBlank = '.' :: r) (ht : Derives .expr r t d')
      (hclose : d'.dropWhile isBlank = ')' :: rest) : Derives .items cs (.pair e t) rest

/-- A text begins with no part: at the obstacle `o`, from which on `left` is left, it cannot be read
on.  The expressions before it that were complete have `n` pairs. -/
inductive Blocks : Part → List Char → Obstacle → List Char → Nat → Prop
  | endOfText {cs : List Char} (h : cs.dropWhile isBlank = []) : Blocks .expr cs .endOfText [] 0
  | strayClose {cs r : List Char} (h : cs.dropWhile isBlank = ')' :: r) :
      Blocks .expr cs .strayClose (')' :: r) 0
  | strayDot {cs r : List Char} (h : cs.dropWhile isBlank = '.' :: r) :
      Blocks .expr cs .strayDot ('.' :: r) 0
  | quote {cs r left : List Char} {o : Obstacle} {n : Nat}
      (h : cs.dropWhile isBlank = '\x27' :: r) (he : Blocks .expr r o left n) :
      Blocks .expr cs o left n
  | list {cs r left : List Char} {o : Obstacle} {n : Nat} (h : cs.dropWhile isBlank = '(' :: r)
      (he : Blocks .items r o left n) : Blocks .expr cs o left n
  | openList {cs : List Char} (h : cs.dropWhile isBlank = []) : Blocks .items cs .openList [] 0
  | head {cs r left : List Char} {x : Char} {o : Obstacle} {n : Nat}
      (h : cs.dropWhile isBlank = x :: r) (hx : x ≠ ')') (he : Blocks .expr cs o left n) :
      Blocks .items cs o left n
  | tail {cs d left : List Char} {e : SExpr} {o : Obstacle} {n : Nat} (he : Derives .expr cs e d)
      (hdot : (d.dropWhile isBlank).head? ≠ some '.') (ht : Blocks .items d o left n) :
      Blocks .items cs o left (e.pairs + n)
  | afterDot {cs d r left : List Char} {e : SExpr} {o : Obstacle} {n : Nat}
      (he : Derives .expr cs e d) (hdot : d.dropWhile isBlank = '.' :: r)
      (ht : Blocks .expr r o left n) : Blocks .items cs o left (e.pairs + n)
  | openTail {cs d r d' : List Char} {e t : SExpr} (he : Derives .expr cs e d)
      (hdot : d.dropWhile isBlank = '.' :: r) (ht : Derives .expr r t d')
      (hclose : (d'.dropWhile isBlank).head? ≠ some ')') :
      Blocks .items cs .openTail (d'.dropWhile isBlank) (e.pairs + t.pairs)

variable {p : Part} {cs cs' r rest left w : List Char} {x : Char} {e : SExpr} {o : Obstacle} {n : Nat}

/-! ### Blanks -/

theorem length_lt_of_dropWhile (h : cs.dropWhile isBlank = x :: r) : r.length < cs.length := by
  have hle := (List.dropWhile_sublist (p := isBlank) (l := cs)).length_le
  rw [h, List.length_cons] at hle
  omega

theorem isBlank_of_dropWhile (h : cs.dropWhile isBlank = x :: r) : isBlank x = false := by
  have hhead := List.head?_dropWhile_not isBlank cs
  rw [h] at hhead
  exact hhead

/-- An expression can stand behind more blanks, or fewer. -/
theorem Derives.congr (h : Derives p cs e rest)
    (hcs : cs'.dropWhile isBlank = cs.dropWhile isBlank) : Derives p cs' e rest := by
  induction h generalizing cs' with
  | name h hw hrest => exact .name (hcs.trans h) hw hrest
  | quote h he _ => exact .quote (hcs.trans h) he
  | list h he _ => exact .list (hcs.trans h) he
  | close h => exact .close (hcs.trans h)
  | more _ ht ih _ => exact .more (ih hcs) ht
  | dotted _ hdot ht hclose ih _ => exact .dotted (ih hcs) hdot ht hclose

theorem Blocks.congr (h : Blocks p cs o left n)
    (hcs : cs'.dropWhile isBlank = cs.dropWhile isBlank) : Blocks p cs' o left n := by
  induction h generalizing cs' with
  | endOfText h => exact .endOfText (hcs.trans h)
  | strayClose h => exact .strayClose (hcs.trans h)
  | strayDot h => exact .strayDot (hcs.trans h)
  | quote h he _ => exact .quote (hcs.trans h) he
  | list h he _ => exact .list (hcs.trans h) he
  | openList h => exact .openList (hcs.trans h)
  | head h hx _ ih => exact .head (hcs.trans h) hx (ih hcs)
  | tail he hdot ht _ => exact .tail (he.congr hcs) hdot ht
  | afterDot he hdot ht _ => exact .afterDot (he.congr hcs) hdot ht
  | openTail he hdot ht hclose => exact .openTail (he.congr hcs) hdot ht hclose

/-! ### The character that comes first -/

theorem IsName.exists_cons (hw : IsName w) :
    ∃ x w', w = x :: w' ∧ isBlank x = false ∧ x ≠ '(' ∧ x ≠ ')' ∧ x ≠ '.' ∧ x ≠ '\x27' := by
  obtain ⟨hne, hdot, hquote, hall⟩ := hw
  obtain ⟨x, w', rfl⟩ := List.exists_cons_of_ne_nil hne
  have hx := hall x List.mem_cons_self
  simp only [isDelimiter, Bool.or_eq_false_iff, beq_eq_false_iff_ne] at hx
  exact ⟨x, w', rfl, hx.1.1, hx.1.2, hx.2, by simpa using hdot, by simpa using hquote⟩

/-- An expression does not begin with a closing parenthesis or a dot. -/
theorem Derives.exists_cons (h : Derives .expr cs e rest) :
    ∃ x r, cs.dropWhile isBlank = x :: r ∧ x ≠ ')' ∧ x ≠ '.' := by
  cases h with
  | name h hw _ =>
    obtain ⟨x, w', rfl, -, -, hclose, hdot, -⟩ := hw.exists_cons
    exact ⟨x, _, h, hclose, hdot⟩
  | quote h _ | list h _ => exact ⟨_, _, h, by decide, by decide⟩

theorem Derives.head_ne_dot (h : Derives p cs e rest) : (cs.dropWhile isBlank).head? ≠ some '.' := by
  have hexpr : ∀ {e d}, Derives .expr cs e d → (cs.dropWhile isBlank).head? ≠ some '.' := by
    intro e d he
    obtain ⟨x, r, hr, -, hdot⟩ := he.exists_cons
    simpa [hr] using hdot
  cases h with
  | name h hw hrest => exact hexpr (.name h hw hrest)
  | quote h he => exact hexpr (.quote h he)
  | list h he => exact hexpr (.list h he)
  | close h => simp [h]
  | more he _ | dotted he _ _ _ => exact hexpr he

/-! ### How much is read -/

/-- An expression takes a character for itself, and half a character for each of its pairs. -/
theorem Derives.pairs_le (h : Derives p cs e rest) :
    e.pairs + 2 * rest.length + (if p = .expr then 2 else 0) ≤ 2 * cs.length := by
  induction h with
  | @name cs w rest h hw =>
    have hle := (List.dropWhile_sublist (p := isBlank) (l := cs)).length_le
    have hpos := List.length_pos_iff.mpr hw.1
    rw [h, List.length_append] at hle
    rw [SExpr.pairs_ofName, if_pos rfl]
    omega
  | quote h _ ih =>
    have hlt := length_lt_of_dropWhile h
    rw [if_pos rfl] at ih ⊢
    rw [SExpr.pairs_quote]
    omega
  | list h _ ih =>
    have hlt := length_lt_of_dropWhile h
    rw [if_neg nofun] at ih
    rw [if_pos rfl]
    omega
  | close h =>
    have hlt := length_lt_of_dropWhile h
    rw [if_neg nofun, SExpr.pairs]
    omega
  | more _ _ ih ih' =>
    rw [if_pos rfl] at ih
    rw [if_neg nofun] at ih' ⊢
    rw [SExpr.pairs]
    omega
  | dotted _ hdot _ hclose ih ih' =>
    have hlt := length_lt_of_dropWhile hdot
    have hlt' := length_lt_of_dropWhile hclose
    rw [if_pos rfl] at ih ih'
    rw [if_neg nofun, SExpr.pairs]
    omega

theorem Derives.length_lt (h : Derives .expr cs e rest) : rest.length < cs.length := by
  have hle := h.pairs_le
  rw [if_pos rfl] at hle
  omega

/-- So does what was complete before an obstacle. -/
theorem Blocks.pairs_le (h : Blocks p cs o left n) : n ≤ 2 * cs.length := by
  induction h with
  | endOfText _ | strayClose _ | strayDot _ | openList _ => exact Nat.zero_le _
  | quote h _ ih | list h _ ih =>
    have hlt := length_lt_of_dropWhile h
    omega
  | head _ _ _ ih => exact ih
  | tail he _ _ ih =>
    have hle := he.pairs_le
    omega
  | afterDot he hdot _ ih =>
    have hle := he.pairs_le
    have hlt := length_lt_of_dropWhile hdot
    omega
  | openTail he hdot ht _ =>
    have hle := he.pairs_le
    have hlt := length_lt_of_dropWhile hdot
    have hle' := ht.pairs_le
    omega

/-! ### Every text has an expression or an obstacle -/

/-- What a name is followed by, and the name, when a text is cut where it ends. -/
theorem isName_takeWhile (hblank : isBlank x = false) (hopen : x ≠ '(') (hclose : x ≠ ')')
    (hdot : x ≠ '.') (hquote : x ≠ '\x27') :
    IsName ((x :: r).takeWhile (!isDelimiter ·)) := by
  have hx : isDelimiter x = false := by simp [isDelimiter, hblank, hopen, hclose]
  rw [List.takeWhile_cons_of_pos (by simp [hx])]
  refine ⟨nofun, by simpa using hdot, by simpa using hquote, fun y hy => ?_⟩
  rcases List.mem_cons.mp hy with rfl | hy
  · exact hx
  · simpa using List.mem_takeWhile_imp hy

theorem atDelimiter_dropWhile (cs : List Char) : AtDelimiter (cs.dropWhile (!isDelimiter ·)) := by
  intro x hx
  have hhead := List.head?_dropWhile_not (!isDelimiter ·) cs
  rw [Option.mem_def.mp hx] at hhead
  simpa using hhead

theorem atDelimiter_cons (h : isDelimiter x = true) : AtDelimiter (x :: rest) := by
  intro y hy
  cases hy
  exact h

/-- No blanks stand before a name. -/
theorem IsName.dropWhile_append (hw : IsName w) (rest : List Char) :
    (w ++ rest).dropWhile isBlank = w ++ rest := by
  obtain ⟨x, w', rfl, hblank, -⟩ := hw.exists_cons
  rw [List.cons_append, List.dropWhile_cons_of_neg (by simp [hblank])]

/-- A name that is followed by a delimiter is cut off there. -/
theorem IsName.takeWhile (hw : IsName w) (hrest : AtDelimiter rest) :
    (w ++ rest).takeWhile (!isDelimiter ·) = w ∧ (w ++ rest).dropWhile (!isDelimiter ·) = rest := by
  have hall : ∀ y ∈ w, (!isDelimiter y) = true := fun y hy => by simp [hw.2.2.2 y hy]
  rw [List.takeWhile_append_of_pos hall, List.dropWhile_append_of_pos hall]
  cases rest with
  | nil => exact ⟨List.append_nil w, rfl⟩
  | cons y rest =>
    have hy : isDelimiter y = true := hrest y rfl
    simp [hy]

/-- Whether a text begins with a part or has an obstacle. -/
def Decided (p : Part) (cs : List Char) : Prop :=
  (∃ e rest, Derives p cs e rest) ∨ ∃ o left n, Blocks p cs o left n

theorem decided_expr (ih : ∀ r : List Char, r.length < cs.length → ∀ p, Decided p r) :
    Decided .expr cs := by
  cases h : cs.dropWhile isBlank with
  | nil => exact .inr ⟨_, _, _, .endOfText h⟩
  | cons x r =>
    have hr := ih r (length_lt_of_dropWhile h)
    by_cases hclose : x = ')'
    · exact .inr ⟨_, _, _, .strayClose (hclose ▸ h)⟩
    by_cases hdot : x = '.'
    · exact .inr ⟨_, _, _, .strayDot (hdot ▸ h)⟩
    by_cases hopen : x = '('
    · rcases hr .items with ⟨e, rest, he⟩ | ⟨o, left, n, he⟩
      · exact .inl ⟨_, _, .list (hopen ▸ h) he⟩
      · exact .inr ⟨_, _, _, .list (hopen ▸ h) he⟩
    by_cases hquote : x = '\x27'
    · rcases hr .expr with ⟨e, rest, he⟩ | ⟨o, left, n, he⟩
      · exact .inl ⟨_, _, .quote (hquote ▸ h) he⟩
      · exact .inr ⟨_, _, _, .quote (hquote ▸ h) he⟩
    have hcut := List.takeWhile_append_dropWhile (p := (!isDelimiter ·)) (l := x :: r)
    exact .inl ⟨_, _, .name (h.trans hcut.symm)
      (isName_takeWhile (isBlank_of_dropWhile h) hopen hclose hdot hquote)
      (atDelimiter_dropWhile _)⟩

theorem decided_items (hexpr : Decided .expr cs)
    (ih : ∀ r : List Char, r.length < cs.length → ∀ p, Decided p r) : Decided .items cs := by
  cases h : cs.dropWhile isBlank with
  | nil => exact .inr ⟨_, _, _, .openList h⟩
  | cons x r =>
    by_cases hclose : x = ')'
    · exact .inl ⟨_, _, .close (hclose ▸ h)⟩
    rcases hexpr with ⟨e, d, he⟩ | ⟨o, left, n, he⟩
    · by_cases hdot : (d.dropWhile isBlank).head? = some '.'
      · obtain ⟨r, hr⟩ := List.head?_eq_some_iff.mp hdot
        have hlt := Nat.lt_trans (length_lt_of_dropWhile hr) he.length_lt
        rcases ih r hlt .expr with ⟨t, d', ht⟩ | ⟨o, left, n, ht⟩
        · by_cases hend : (d'.dropWhile isBlank).head? = some ')'
          · obtain ⟨rest, hrest⟩ := List.head?_eq_some_iff.mp hend
            exact .inl ⟨_, _, .dotted he hr ht hrest⟩
          · exact .inr ⟨_, _, _, .openTail he hr ht hend⟩
        · exact .inr ⟨_, _, _, .afterDot he hr ht⟩
      · rcases ih d he.length_lt .items with ⟨t, rest, ht⟩ | ⟨o, left, n, ht⟩
        · exact .inl ⟨_, _, .more he ht⟩
        · exact .inr ⟨_, _, _, .tail he hdot ht⟩
    · exact .inr ⟨_, _, _, .head h hclose he⟩

theorem derives_or_blocks (p : Part) (cs : List Char) : Decided p cs := by
  induction hn : cs.length using Nat.strongRecOn generalizing p cs with
  | _ n ih =>
    subst hn
    have ih : ∀ r : List Char, r.length < cs.length → ∀ p, Decided p r :=
      fun r hr p => ih r.length hr p r rfl
    cases p with
    | expr => exact decided_expr ih
    | items => exact decided_items (decided_expr ih) ih

end Grammar

end ArenaLisp
