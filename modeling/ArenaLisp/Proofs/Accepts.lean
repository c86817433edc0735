import ArenaLisp.Proofs.Build
import ArenaLisp.Proofs.TreeViews

/-!
# The reader follows the grammar

Where a text begins with an expression of the grammar, the reader builds what it denotes, stops behind
it, and takes one cell for each of its pairs (`Derives.builds`).  Where it does not, the reader stops at
the obstacle that the grammar finds (`Blocks.stops`).  There is no third case, so that the reader
accepts exactly the grammar (`read_accepts`).
-/

namespace ArenaLisp

open ReadAction

namespace Grammar

/-- The reader of a part. -/
def Part.reader : Part → Nat → ReadAction Value
  | .expr => ReadAction.expr
  | .items => ReadAction.items

/-- How deep the reader may have to go into a text. -/
def Part.depth : Part → List Char → Nat
  | .expr, cs => 2 * cs.length + 1
  | .items, cs => 2 * cs.length + 2

variable {p : Part} {cs w r d rest left : List Char} {x : Char} {e t : SExpr} {o : Obstacle}
  {n limit fuel : Nat} {m : Machine} {c : Cursor} {E : Stop → Prop}

theorem exists_eq_succ_of_depth_le (h : p.depth cs ≤ fuel) : ∃ k, fuel = k + 1 := by
  have hpos : 0 < p.depth cs := by
    cases p with
    | expr | items => exact Nat.succ_pos _
  exact ⟨fuel - 1, by omega⟩

/-! ### What the reader does with the next character -/

theorem peek?_eq (hc : c.rest = cs) (h : cs.dropWhile isBlank = x :: r) :
    (c.dropWhile isBlank).peek? = some x := by
  show (c.rest.dropWhile isBlank).head? = some x
  rw [hc, h]
  rfl

theorem peek?_eq_none (hc : c.rest = cs) (h : cs.dropWhile isBlank = []) :
    (c.dropWhile isBlank).peek? = none := by
  show (c.rest.dropWhile isBlank).head? = none
  rw [hc, h]
  rfl

theorem rest_next_dropWhile (hc : c.rest = cs) (h : cs.dropWhile isBlank = x :: r) :
    (c.dropWhile isBlank).next.rest = r :=
  Cursor.rest_next (x := x) (by rw [← h, ← hc]; rfl)

theorem fromPlace_name (hc : c.rest = cs) (h : cs.dropWhile isBlank = w ++ rest) (hw : IsName w)
    (hrest : AtDelimiter rest) :
    (expr (fuel + 1)).fromPlace c = do
      let v ← Action.intern (String.ofList w)
      return (v, (c.dropWhile isBlank).dropWhile (!isDelimiter ·)) := by
  have hcut : (c.dropWhile isBlank).takeWhile (!isDelimiter ·) = w := by
    show (c.rest.dropWhile isBlank).takeWhile _ = w
    rw [hc, h]
    exact (hw.takeWhile hrest).1
  obtain ⟨x, w', rfl, -, hopen, hclose, hdot, hquote⟩ := hw.exists_cons
  rw [fromPlace_expr, peek?_eq hc h]
  simp only
  rw [fromPlace_atom, hcut]

/-- Behind an element without a dot, the list goes on. -/
theorem fromPlace_listTail_more (h : (c.rest.dropWhile isBlank).head? ≠ some '.') :
    (listTail fuel).fromPlace c = (items fuel).fromPlace c := by
  have hpeek : (c.dropWhile isBlank).peek? ≠ some '.' := h
  rw [fromPlace_listTail, if_neg hpeek, fromPlace_items_dropWhile]

/-- Behind a dot, there is one more expression. -/
theorem fromPlace_listTail_dot (h : c.rest.dropWhile isBlank = '.' :: r) :
    (listTail fuel).fromPlace c = (do
      let q ← (expr fuel).fromPlace (c.dropWhile isBlank).next
      let d := q.2.dropWhile isBlank
      if d.peek? = some ')' then return (q.1, d.next) else obstructed .openTail d) := by
  rw [fromPlace_listTail, if_pos (peek?_eq rfl h)]

/-- An element of a list, and what stands behind it. -/
theorem fromPlace_element (hc : c.rest = cs) (h : cs.dropWhile isBlank = x :: r) (hx : x ≠ ')') :
    (items (fuel + 1)).fromPlace c = do
      let q ← (expr fuel).fromPlace c
      let t ← Action.pinned q.1 ((listTail fuel).fromPlace q.2)
      let v ← Action.cons q.1 t.1
      return (v, t.2) := by
  rw [fromPlace_items, peek?_eq hc h]
  simp only
  rw [fromPlace_expr_dropWhile]

/-! ### Where there is an expression -/

/-- Reading a text `cs` that begins with what denotes `e`: one cell is taken for each pair, and the
place afterwards is the one from which `rest` is left. -/
def Builds (act : ReadAction Value) (cs : List Char) (e : SExpr) (rest : List Char) : Prop :=
  ∀ (m : Machine) (c : Cursor) (n : Nat) (E : Stop → Prop), c.rest = cs → m.Coherent →
    m.lexicon.lookup? "quote" = some (.atom .quote) → m.pinnedCount + e.pairs = n →
    Spends n m (act.fromPlace c)
      (fun m₂ q => m₂.Built e n q.1 ∧ q.2.rest = rest ∧ q.2.size = c.size) E

namespace Builds

theorem name (h : cs.dropWhile isBlank = w ++ rest) (hw : IsName w) (hrest : AtDelimiter rest) :
    Builds (expr (fuel + 1)) cs (.ofName (String.ofList w)) rest := by
  intro m c n E hc hm _ hn
  rw [SExpr.pairs_ofName] at hn
  rw [fromPlace_name hc h hw hrest]
  refine (Spends.intern hm _).bind (Nat.le_refl n) fun m₂ v hkeeps _ hv => ?_
  have hplace : ((c.rest.dropWhile isBlank).dropWhile (!isDelimiter ·)) = rest := by
    rw [hc, h]
    exact (hw.takeWhile hrest).2
  exact .pure hkeeps.coherent ⟨hn ▸ hv, hplace, rfl⟩

theorem quote (h : cs.dropWhile isBlank = '\x27' :: r) (he : Builds (expr fuel) r e rest) :
    Builds (expr (fuel + 1)) cs e.quote rest := by
  intro m c n E hc hm hquote hn
  rw [SExpr.pairs_quote, ← Nat.add_assoc] at hn
  subst hn
  rw [fromPlace_expr, peek?_eq hc h]
  refine (he _ _ _ _ (rest_next_dropWhile hc h) hm hquote rfl).bind (Nat.le_add_right _ 2) ?_
  intro m₂ q hkeeps hreads hq
  refine (Spends.quote hkeeps.coherent (hreads.lookup? hquote) hq.1 (Nat.le_refl _)).bind
    (Nat.le_refl _) fun m₃ v hkeeps₂ _ hv => ?_
  exact .pure hkeeps₂.coherent ⟨hv, hq.2.1, by simpa using hq.2.2⟩

theorem list (h : cs.dropWhile isBlank = '(' :: r) (he : Builds (items fuel) r e rest) :
    Builds (expr (fuel + 1)) cs e rest := by
  intro m c n E hc hm hquote hn
  rw [fromPlace_expr, peek?_eq hc h]
  refine (he _ _ _ _ (rest_next_dropWhile hc h) hm hquote hn).mono (Nat.le_refl n) fun m₂ q _ _ hq => ?_
  exact ⟨hq.1, hq.2.1, by simpa using hq.2.2⟩

theorem close (h : cs.dropWhile isBlank = ')' :: rest) :
    Builds (items (fuel + 1)) cs .nil rest := by
  intro m c n E hc hm _ hn
  have hbuilt : m.Built .nil n .nil := hn ▸ m.built_nil
  rw [fromPlace_items, peek?_eq hc h]
  exact .pure hm ⟨hbuilt, rest_next_dropWhile hc h, by simp⟩

theorem behind (h : (cs.dropWhile isBlank).head? ≠ some '.') (ht : Builds (items fuel) cs t rest) :
    Builds (listTail fuel) cs t rest := by
  intro m c n E hc hm hquote hn
  rw [fromPlace_listTail_more (hc ▸ h)]
  exact ht m c n E hc hm hquote hn

theorem behind_dot (h : cs.dropWhile isBlank = '.' :: r) (ht : Builds (expr fuel) r t d)
    (hclose : d.dropWhile isBlank = ')' :: rest) : Builds (listTail fuel) cs t rest := by
  intro m c n E hc hm hquote hn
  rw [fromPlace_listTail_dot (hc ▸ h)]
  refine (ht _ _ _ _ (rest_next_dropWhile hc h) hm hquote hn).bind (Nat.le_refl n) ?_
  intro m₂ q hkeeps _ hq
  obtain ⟨hv, hd, hsize⟩ := hq
  dsimp only
  rw [if_pos (peek?_eq hd hclose)]
  exact .pure hkeeps.coherent ⟨hv, rest_next_dropWhile hd hclose, by simpa using hsize⟩

theorem element (hfirst : cs.dropWhile isBlank = x :: r) (hx : x ≠ ')')
    (he : Builds (expr fuel) cs e d) (ht : Builds (listTail fuel) d t rest) :
    Builds (items (fuel + 1)) cs (.pair e t) rest := by
  intro m c n E hc hm hquote hn
  obtain rfl : m.pinnedCount + e.pairs + t.pairs + 1 = n := by
    rw [← hn, SExpr.pairs]
    omega
  rw [fromPlace_element hc hfirst hx]
  refine (he m c _ E hc hm hquote rfl).bind (by omega) fun m₂ q hkeeps hreads hq => ?_
  obtain ⟨hv, hd, hsize⟩ := hq
  have htail := ht _ _ _ E hd (hkeeps.coherent.pin hv.not_dangling) (hreads.lookup? hquote) rfl
  rw [hv.pinnedCount_pin, hsize] at htail
  have hpair := htail.mono (Nat.le_succ _) fun _ _ _ _ hu => hu
  exact Spends.element (P := fun d => d.rest = rest ∧ d.size = c.size) hv hpair (Nat.lt_succ_self _)

end Builds

/-- Where a text begins with a part, the reader builds what it denotes and stops behind it. -/
theorem Derives.builds (h : Derives p cs e rest) (hfuel : p.depth cs ≤ fuel) :
    Builds (p.reader fuel) cs e rest := by
  induction h generalizing fuel with
  | name h hw hrest =>
    obtain ⟨fuel, rfl⟩ := exists_eq_succ_of_depth_le hfuel
    exact Builds.name h hw hrest
  | quote h _ ih =>
    obtain ⟨fuel, rfl⟩ := exists_eq_succ_of_depth_le hfuel
    have hlt := length_lt_of_dropWhile h
    simp only [Part.depth] at hfuel ih
    exact Builds.quote h (ih (by omega))
  | list h _ ih =>
    obtain ⟨fuel, rfl⟩ := exists_eq_succ_of_depth_le hfuel
    have hlt := length_lt_of_dropWhile h
    simp only [Part.depth] at hfuel ih
    exact Builds.list h (ih (by omega))
  | close h =>
    obtain ⟨fuel, rfl⟩ := exists_eq_succ_of_depth_le hfuel
    exact Builds.close h
  | more he ht ihe iht =>
    obtain ⟨fuel, rfl⟩ := exists_eq_succ_of_depth_le hfuel
    obtain ⟨x, r, hr, hx, -⟩ := he.exists_cons
    have hlt := he.length_lt
    simp only [Part.depth] at hfuel ihe iht
    have htail : Builds (listTail fuel) _ _ _ := Builds.behind ht.head_ne_dot (iht (by omega))
    exact Builds.element hr hx (ihe (by omega)) htail
  | dotted he hdot ht hclose ihe iht =>
    obtain ⟨fuel, rfl⟩ := exists_eq_succ_of_depth_le hfuel
    obtain ⟨x, r, hr, hx, -⟩ := he.exists_cons
    have hlt := he.length_lt
    have hlt' := length_lt_of_dropWhile hdot
    simp only [Part.depth] at hfuel ihe iht
    have htail : Builds (listTail fuel) _ _ _ := Builds.behind_dot hdot (iht (by omega)) hclose
    exact Builds.element hr hx (ihe (by omega)) htail

/-! ### Where there is none -/

/-- Reading a text `cs` that has the obstacle `o` where `left` is left, and `n` pairs before it: reading
stops there, unless there are fewer cells. -/
def Stops (act : ReadAction Value) (cs : List Char) (o : Obstacle) (left : List Char) (n : Nat) : Prop :=
  ∀ (m : Machine) (c : Cursor) (k : Nat), c.rest = cs → m.Coherent →
    m.lexicon.lookup? "quote" = some (.atom .quote) → m.pinnedCount + n = k →
    Spends k m (act.fromPlace c) (fun _ _ => False)
      fun err => err = .failure (.unreadable (.blocked o (c.size - left.length)))

namespace Stops

/-- The obstacle is the next character, or its absence. -/
theorem obstructed (hc : c.rest = cs) :
    Spends limit m (ReadAction.obstructed o (c.dropWhile isBlank) : Action (Value × Cursor))
      (fun _ _ => False) fun err => err =
        .failure (.unreadable (.blocked o (c.size - (cs.dropWhile isBlank).length))) := by
  have hplace := (c.dropWhile isBlank).pos_add_length
  have hrest : (c.dropWhile isBlank).rest = cs.dropWhile isBlank := by rw [← hc]; rfl
  rw [hrest, Cursor.size_dropWhile] at hplace
  refine .throw ?_
  rw [show c.size - (cs.dropWhile isBlank).length = (c.dropWhile isBlank).pos by omega]

theorem endOfText (h : cs.dropWhile isBlank = []) : Stops (expr (fuel + 1)) cs .endOfText [] 0 := by
  intro m c k hc _ _ _
  rw [fromPlace_expr, peek?_eq_none hc h, ← h]
  exact obstructed hc

theorem strayClose (h : cs.dropWhile isBlank = ')' :: r) :
    Stops (expr (fuel + 1)) cs .strayClose (')' :: r) 0 := by
  intro m c k hc _ _ _
  rw [fromPlace_expr, peek?_eq hc h, ← h]
  exact obstructed hc

theorem strayDot (h : cs.dropWhile isBlank = '.' :: r) :
    Stops (expr (fuel + 1)) cs .strayDot ('.' :: r) 0 := by
  intro m c k hc _ _ _
  rw [fromPlace_expr, peek?_eq hc h, ← h]
  exact obstructed hc

theorem quote (h : cs.dropWhile isBlank = '\x27' :: r) (he : Stops (expr fuel) r o left n) :
    Stops (expr (fuel + 1)) cs o left n := by
  intro m c k hc hm hquote hn
  rw [fromPlace_expr, peek?_eq hc h]
  have he := he m _ k (rest_next_dropWhile hc h) hm hquote hn
  rw [Cursor.size_next, Cursor.size_dropWhile] at he
  exact he.bind_stop

theorem list (h : cs.dropWhile isBlank = '(' :: r) (he : Stops (items fuel) r o left n) :
    Stops (expr (fuel + 1)) cs o left n := by
  intro m c k hc hm hquote hn
  rw [fromPlace_expr, peek?_eq hc h]
  have he := he m _ k (rest_next_dropWhile hc h) hm hquote hn
  rwa [Cursor.size_next, Cursor.size_dropWhile] at he

theorem openList (h : cs.dropWhile isBlank = []) : Stops (items (fuel + 1)) cs .openList [] 0 := by
  intro m c k hc _ _ _
  rw [fromPlace_items, peek?_eq_none hc h, ← h]
  exact obstructed hc

theorem head (h : cs.dropWhile isBlank = x :: r) (hx : x ≠ ')') (he : Stops (expr fuel) cs o left n) :
    Stops (items (fuel + 1)) cs o left n := by
  intro m c k hc hm hquote hn
  rw [fromPlace_element hc h hx]
  exact (he m c k hc hm hquote hn).bind_stop

theorem behind (h : (cs.dropWhile isBlank).head? ≠ some '.') (ht : Stops (items fuel) cs o left n) :
    Stops (listTail fuel) cs o left n := by
  intro m c k hc hm hquote hn
  rw [fromPlace_listTail_more (hc ▸ h)]
  exact ht m c k hc hm hquote hn

theorem behind_dot (h : cs.dropWhile isBlank = '.' :: r) (ht : Stops (expr fuel) r o left n) :
    Stops (listTail fuel) cs o left n := by
  intro m c k hc hm hquote hn
  rw [fromPlace_listTail_dot (hc ▸ h)]
  have ht := ht m _ k (rest_next_dropWhile hc h) hm hquote hn
  rw [Cursor.size_next, Cursor.size_dropWhile] at ht
  exact ht.bind_stop

/-- No closing parenthesis stands behind the explicit tail. -/
theorem openTail (h : cs.dropWhile isBlank = '.' :: r) (ht : Builds (expr fuel) r t d)
    (hclose : (d.dropWhile isBlank).head? ≠ some ')') :
    Stops (listTail fuel) cs .openTail (d.dropWhile isBlank) t.pairs := by
  intro m c k hc hm hquote hn
  rw [fromPlace_listTail_dot (hc ▸ h)]
  refine (ht m _ k _ (rest_next_dropWhile hc h) hm hquote hn).bind (Nat.le_refl k) ?_
  intro m₂ q _ _ hq
  obtain ⟨-, hd, hsize⟩ := hq
  have hpeek : (q.2.dropWhile isBlank).peek? ≠ some ')' := by
    show (q.2.rest.dropWhile isBlank).head? ≠ some ')'
    rwa [hd]
  dsimp only
  rw [if_neg hpeek, show c.size = q.2.size by simpa using hsize.symm]
  exact obstructed hd

/-- The obstacle stands behind an element. -/
theorem tail (hfirst : cs.dropWhile isBlank = x :: r) (hx : x ≠ ')') (he : Builds (expr fuel) cs e d)
    (ht : Stops (listTail fuel) d o left n) :
    Stops (items (fuel + 1)) cs o left (e.pairs + n) := by
  intro m c k hc hm hquote hn
  rw [fromPlace_element hc hfirst hx]
  refine (he m c _ _ hc hm hquote rfl).bind (by omega) fun m₂ q hkeeps hreads hq => ?_
  obtain ⟨hv, hd, hsize⟩ := hq
  have htail := ht _ _ k hd (hkeeps.coherent.pin hv.not_dangling) (hreads.lookup? hquote)
    (by rw [hv.pinnedCount_pin]; omega)
  rw [hsize] at htail
  have hpinned : Spends k m₂ (Action.pinned q.1 ((listTail fuel).fromPlace q.2)) (fun _ _ => False)
      fun err => err = .failure (.unreadable (.blocked o (c.size - left.length))) :=
    htail.pinned fun _ _ _ _ h => h
  exact hpinned.bind_stop

end Stops

/-- Where a text begins with no part, the reader stops at the obstacle. -/
theorem Blocks.stops (h : Blocks p cs o left n) (hfuel : p.depth cs ≤ fuel) :
    Stops (p.reader fuel) cs o left n := by
  induction h generalizing fuel with
  | endOfText h =>
    obtain ⟨fuel, rfl⟩ := exists_eq_succ_of_depth_le hfuel
    exact Stops.endOfText h
  | strayClose h =>
    obtain ⟨fuel, rfl⟩ := exists_eq_succ_of_depth_le hfuel
    exact Stops.strayClose h
  | strayDot h =>
    obtain ⟨fuel, rfl⟩ := exists_eq_succ_of_depth_le hfuel
    exact Stops.strayDot h
  | quote h _ ih =>
    obtain ⟨fuel, rfl⟩ := exists_eq_succ_of_depth_le hfuel
    have hlt := length_lt_of_dropWhile h
    simp only [Part.depth] at hfuel ih
    exact Stops.quote h (ih (by omega))
  | list h _ ih =>
    obtain ⟨fuel, rfl⟩ := exists_eq_succ_of_depth_le hfuel
    have hlt := length_lt_of_dropWhile h
    simp only [Part.depth] at hfuel ih
    exact Stops.list h (ih (by omega))
  | openList h =>
    obtain ⟨fuel, rfl⟩ := exists_eq_succ_of_depth_le hfuel
    exact Stops.openList h
  | head h hx _ ih =>
    obtain ⟨fuel, rfl⟩ := exists_eq_succ_of_depth_le hfuel
    simp only [Part.depth] at hfuel ih
    exact Stops.head h hx (ih (by omega))
  | tail he hdot _ ih =>
    obtain ⟨fuel, rfl⟩ := exists_eq_succ_of_depth_le hfuel
    obtain ⟨x, r, hr, hx, -⟩ := he.exists_cons
    have hlt := he.length_lt
    simp only [Part.depth] at hfuel ih
    have hhead : Builds (expr fuel) _ _ _ := he.builds (by simp only [Part.depth]; omega)
    have htail : Stops (listTail fuel) _ _ _ _ := Stops.behind hdot (ih (by omega))
    exact Stops.tail hr hx hhead htail
  | afterDot he hdot _ ih =>
    obtain ⟨fuel, rfl⟩ := exists_eq_succ_of_depth_le hfuel
    obtain ⟨x, r, hr, hx, -⟩ := he.exists_cons
    have hlt := he.length_lt
    have hlt' := length_lt_of_dropWhile hdot
    simp only [Part.depth] at hfuel ih
    have hhead : Builds (expr fuel) _ _ _ := he.builds (by simp only [Part.depth]; omega)
    have htail : Stops (listTail fuel) _ _ _ _ := Stops.behind_dot hdot (ih (by omega))
    exact Stops.tail hr hx hhead htail
  | openTail he hdot ht hclose =>
    obtain ⟨fuel, rfl⟩ := exists_eq_succ_of_depth_le hfuel
    obtain ⟨x, r, hr, hx, -⟩ := he.exists_cons
    have hlt := he.length_lt
    have hlt' := length_lt_of_dropWhile hdot
    simp only [Part.depth] at hfuel
    have hhead : Builds (expr fuel) _ _ _ := he.builds (by simp only [Part.depth]; omega)
    have hlast : Builds (expr fuel) _ _ _ := ht.builds (by simp only [Part.depth]; omega)
    exact Stops.tail hr hx hhead (Stops.openTail hdot hlast hclose)

end Grammar

/-! ### The next expression of a text -/

namespace ReadAction

open Grammar

variable {m : Machine} {c : Cursor} {e : SExpr} {rest left : List Char} {o : Obstacle} {n : Nat}
  {x : Char} {r : List Char} {E : Stop → Prop}

theorem fromPlace_read_of_blank (h : c.rest.dropWhile isBlank = []) :
    read.fromPlace c = pure (none, c.dropWhile isBlank) := by
  rw [fromPlace_read, peek?_eq_none rfl h]
  rfl

theorem fromPlace_read_of_cons (h : c.rest.dropWhile isBlank = x :: r) :
    read.fromPlace c = do
      let p ← (expr (2 * c.size + 2)).fromPlace c
      return (some p.1, p.2) := by
  rw [fromPlace_read, peek?_eq rfl h, fromPlace_expr_dropWhile]
  rfl

/-- A text is not longer than what the reader is ready to go into. -/
theorem depth_le (c : Cursor) : Part.expr.depth c.rest ≤ 2 * c.size + 2 := by
  have hsize := c.pos_add_length
  rw [Part.depth]
  omega

theorem spends_read_of_derives (h : Derives .expr c.rest e rest) (hm : m.Coherent)
    (hquote : m.lexicon.lookup? "quote" = some (.atom .quote)) (hn : m.pinnedCount + e.pairs = n) :
    Spends n m (read.fromPlace c)
      (fun m₂ q => ∃ v, q.1 = some v ∧ m₂.Built e n v ∧ q.2.rest = rest ∧ q.2.size = c.size) E := by
  obtain ⟨x, r, hr, -⟩ := h.exists_cons
  rw [fromPlace_read_of_cons hr]
  have hread := h.builds (depth_le c) m c n E rfl hm hquote hn
  refine hread.bind (Nat.le_refl n) fun m₂ q hkeeps _ hq => ?_
  exact .pure hkeeps.coherent ⟨q.1, rfl, hq⟩

theorem spends_read_of_blocks (h : Blocks .expr c.rest o left n)
    (hcons : c.rest.dropWhile isBlank ≠ []) (hm : m.Coherent)
    (hquote : m.lexicon.lookup? "quote" = some (.atom .quote)) :
    Spends (m.pinnedCount + n) m (read.fromPlace c) (fun _ _ => False)
      fun err => err = .failure (.unreadable (.blocked o (c.size - left.length))) := by
  obtain ⟨x, r, hr⟩ := List.exists_cons_of_ne_nil hcons
  rw [fromPlace_read_of_cons hr]
  exact (h.stops (depth_le c) m c _ rfl hm hquote rfl).bind_stop

/-- Where a text begins with an expression, the reader gives what it denotes and stops behind it, if
there is room for its pairs. -/
theorem run_read_of_derives (hm : m.Coherent) (hl : Lexicon.initial.Grows m.lexicon)
    (h : Derives .expr c.rest e rest) :
    if m.pinnedCount + e.pairs ≤ m.arena.capacity.toNat then
      ∃ v m₂ d, read.run ⟨m, c⟩ = .ok (some v) ⟨m₂, d⟩ ∧ d.rest = rest ∧ d.size = c.size ∧
        m.Reads m₂ ∧ (m₂.lexicon.count ≤ Lexicon.maxCount →
          ∃ t, m₂.Shows v t ∧ m₂.lexicon.Denotes e t ∧ t.Plain)
    else ∃ s, read.run ⟨m, c⟩ = .error (.failure .outOfMemory) s := by
  have hspends := spends_read_of_derives (E := fun _ => False) h hm hl.lookup?_quote rfl
  by_cases hroom : m.pinnedCount + e.pairs ≤ m.arena.capacity.toNat
  · rw [if_pos hroom]
    obtain ⟨q, m₂, hrun, hkeeps, hreads, v, hv, hbuilt, hrest, hsize⟩ := hspends.exists_ok hroom
    refine ⟨v, m₂, q.2, run_eq_ok c (hv ▸ hrun), hrest, hsize, hreads, fun hcount => ?_⟩
    have hproper := Lexicon.initial_proper.of_grows (hl.trans hreads) hcount
    obtain ⟨t, ht, he⟩ := hbuilt.spells.unfolds hproper
    exact ⟨t, ⟨hbuilt.not_dangling, ht⟩, he, he.plain hproper⟩
  · rw [if_neg hroom]
    cases hrun : (read.fromPlace c).run m with
    | ok q m₂ =>
      obtain ⟨hkeeps, -, v, -, hbuilt, -⟩ := hspends.of_ok hrun
      exact absurd (hbuilt.le_capacity hkeeps) hroom
    | error err m₂ =>
      obtain ⟨rfl, -⟩ := (hspends.of_error hrun).resolve_left id
      obtain ⟨d, hd⟩ := run_eq_error c hrun
      exact ⟨_, hd⟩

/-- Where a text begins with none, though not all of it is blank, the reader stops. -/
theorem run_read_of_blocks (hm : m.Coherent) (hl : Lexicon.initial.Grows m.lexicon)
    (hcons : c.rest.dropWhile isBlank ≠ []) (h : Blocks .expr c.rest o left n) :
    (∃ s, read.run ⟨m, c⟩ =
        .error (.failure (.unreadable (.blocked o (c.size - left.length)))) s) ∨
      m.arena.capacity.toNat < m.pinnedCount + n ∧
        ∃ s, read.run ⟨m, c⟩ = .error (.failure .outOfMemory) s := by
  obtain ⟨err, m₂, hrun, herr⟩ := (spends_read_of_blocks h hcons hm hl.lookup?_quote).exists_error
  obtain ⟨d, hd⟩ := run_eq_error c hrun
  rcases herr with rfl | ⟨rfl, hroom⟩
  · exact .inl ⟨_, hd⟩
  · exact .inr ⟨hroom, _, hd⟩

theorem run_read_of_blank (h : c.rest.dropWhile isBlank = []) :
    read.run ⟨m, c⟩ = .ok none ⟨m, c.dropWhile isBlank⟩ := by
  refine run_eq_ok c ?_
  rw [fromPlace_read_of_blank h]
  rfl

/-! ### The only expression of a text -/

theorem spends_parse_of_derives {text : String} (h : Derives .expr text.toList e rest)
    (hend : rest.dropWhile isBlank = []) (hm : m.Coherent)
    (hquote : m.lexicon.lookup? "quote" = some (.atom .quote)) (hn : m.pinnedCount + e.pairs = n) :
    Spends n m (Action.parse text) (fun m₂ v => m₂.Built e n v) E := by
  have hread : Spends n m (readOnly.fromPlace (.ofString text)) (fun m₂ p => m₂.Built e n p.1) E := by
    rw [fromPlace_readOnly]
    refine (spends_read_of_derives (c := .ofString text) h hm hquote hn).bind (Nat.le_refl n) ?_
    rintro m₂ ⟨_, d⟩ hkeeps _ ⟨v, rfl, hv, hrest, -⟩
    unfold only
    dsimp only
    rw [peek?_eq_none hrest hend]
    exact .pure hkeeps.coherent hv
  rw [parse_eq]
  exact hread.bind (Nat.le_refl n) fun m₂ p hkeeps _ hp => .pure hkeeps.coherent hp

theorem spends_parse_of_blocks {text : String} (h : Blocks .expr text.toList o left n)
    (hcons : text.toList.dropWhile isBlank ≠ []) (hm : m.Coherent)
    (hquote : m.lexicon.lookup? "quote" = some (.atom .quote)) :
    Spends (m.pinnedCount + n) m (Action.parse text) (fun _ _ => False)
      fun err => err = .failure (.unreadable (.blocked o (text.toList.length - left.length))) := by
  rw [parse_eq, fromPlace_readOnly]
  exact (spends_read_of_blocks (c := .ofString text) h hcons hm hquote).bind_stop.bind_stop

/-! ### The reader accepts the grammar -/

/-- The reader gives nothing for blanks only, a value for an expression, or none at all. -/
theorem run_read_cases (hm : m.Coherent) (hl : Lexicon.initial.Grows m.lexicon) (c : Cursor) :
    (c.rest.dropWhile isBlank = [] ∧ ∃ s, read.run ⟨m, c⟩ = .ok none s) ∨
    (∃ e v m₂ d, Derives .expr c.rest e d.rest ∧ read.run ⟨m, c⟩ = .ok (some v) ⟨m₂, d⟩ ∧
      m.Reads m₂ ∧ (m₂.lexicon.count ≤ Lexicon.maxCount →
        ∃ t, m₂.Shows v t ∧ m₂.lexicon.Denotes e t ∧ t.Plain)) ∨
    ∃ err s, read.run ⟨m, c⟩ = .error err s := by
  by_cases hblank : c.rest.dropWhile isBlank = []
  · exact .inl ⟨hblank, _, run_read_of_blank hblank⟩
  · rcases derives_or_blocks .expr c.rest with ⟨e, rest, he⟩ | ⟨o, left, n, he⟩
    · have h := run_read_of_derives hm hl he
      split at h
      · obtain ⟨v, m₂, d, hrun, rfl, -, hshows⟩ := h
        exact .inr (.inl ⟨e, v, m₂, d, he, hrun, hshows⟩)
      · exact .inr (.inr ⟨_, h⟩)
    · rcases run_read_of_blocks hm hl hblank he with h | ⟨-, h⟩
      · exact .inr (.inr ⟨_, h⟩)
      · exact .inr (.inr ⟨_, h⟩)

/-- What is read was an expression of the text, and its names are in the lexicon now. -/
theorem derives_of_run_read {v : Value} {m₂ : Machine} {d : Cursor} (hm : m.Coherent)
    (hl : Lexicon.initial.Grows m.lexicon) (hrun : read.run ⟨m, c⟩ = .ok (some v) ⟨m₂, d⟩) :
    ∃ e, Derives .expr c.rest e d.rest ∧ m.Reads m₂ ∧ (m₂.lexicon.count ≤ Lexicon.maxCount →
      ∃ t, m₂.Shows v t ∧ m₂.lexicon.Denotes e t ∧ t.Plain) := by
  rcases run_read_cases hm hl c with ⟨-, s, h⟩ | ⟨e, v', m', d', he, h, hshows⟩ | ⟨err, s, h⟩
  · rw [hrun] at h
    cases h
  · rw [hrun] at h
    cases h
    exact ⟨e, he, hshows⟩
  · rw [hrun] at h
    cases h

/-- The reader accepts exactly the grammar.  It gives nothing where only blanks are left; a value where
the text begins with an expression, if there is a cell for each of its pairs beside those that the root
stack reaches; and otherwise it stops at an obstacle.  The value stands for the tree that the expression
denotes, and the place afterwards is the end of the expression. -/
theorem read_accepts (hm : m.Coherent) (hl : Lexicon.initial.Grows m.lexicon) (c : Cursor) :
    ((∃ s, read.run ⟨m, c⟩ = .ok none s) ↔ ∀ x ∈ c.rest, isBlank x = true) ∧
    (∀ v s, read.run ⟨m, c⟩ = .ok (some v) s → ∃ e, Derives .expr c.rest e s.cursor.rest) ∧
    (∀ e rest, Derives .expr c.rest e rest →
      if m.pinnedCount + e.pairs ≤ m.arena.capacity.toNat then
        ∃ v m₂ d, read.run ⟨m, c⟩ = .ok (some v) ⟨m₂, d⟩ ∧ d.rest = rest ∧ d.size = c.size ∧
          m.Reads m₂ ∧ (m₂.lexicon.count ≤ Lexicon.maxCount →
            ∃ t, m₂.Shows v t ∧ m₂.lexicon.Denotes e t ∧ t.Plain)
      else ∃ s, read.run ⟨m, c⟩ = .error (.failure .outOfMemory) s) ∧
    ((∃ x ∈ c.rest, isBlank x = false) → (∀ e rest, ¬ Derives .expr c.rest e rest) →
      (∃ o n s, read.run ⟨m, c⟩ = .error (.failure (.unreadable (.blocked o n))) s) ∨
        m.arena.capacity.toNat < m.pinnedCount + 2 * c.rest.length ∧
          ∃ s, read.run ⟨m, c⟩ = .error (.failure .outOfMemory) s) := by
  have hblank : c.rest.dropWhile isBlank = [] ↔ ∀ x ∈ c.rest, isBlank x = true :=
    List.dropWhile_eq_nil_iff
  refine ⟨⟨?_, fun h => ⟨_, run_read_of_blank (hblank.mpr h)⟩⟩, ?_,
    fun e rest h => run_read_of_derives hm hl h, ?_⟩
  · rintro ⟨s, hrun⟩
    rcases run_read_cases hm hl c with ⟨h, -⟩ | ⟨e, v, m₂, d, -, h, -⟩ | ⟨err, s', h⟩
    · exact hblank.mp h
    · rw [hrun] at h
      cases h
    · rw [hrun] at h
      cases h
  · intro v s hrun
    obtain ⟨e, he, -⟩ := derives_of_run_read hm hl hrun
    exact ⟨e, he⟩
  · rintro ⟨x, hx, hxblank⟩ hnone
    have hcons : c.rest.dropWhile isBlank ≠ [] := by
      intro h
      rw [hblank.mp h x hx] at hxblank
      cases hxblank
    rcases derives_or_blocks .expr c.rest with ⟨e, rest, h⟩ | ⟨o, left, n, h⟩
    · exact absurd h (hnone e rest)
    · have hle := h.pairs_le
      rcases run_read_of_blocks hm hl hcons h with ⟨s, hs⟩ | ⟨hroom, hs⟩
      · exact .inl ⟨o, _, s, hs⟩
      · exact .inr ⟨by omega, hs⟩

/-- A machine with three cells, of which one is pinned and two are garbage. -/
def littered : Machine :=
  { Machine.new 3 none with
    arena := ⟨#[⟨.nil, .pair ⟨1⟩, false⟩, ⟨.atom .t, .nil, false⟩, ⟨.nil, .nil, false⟩], [], 3, ⟨0, 0⟩⟩
    roots := [.pair ⟨1⟩] }

/-- In the middle of the expression the arena is collected; the text behind it is left. -/
theorem read_accepts_littered : ∃ v m₂ d,
    read.run ⟨littered, .ofString " '()x"⟩ = .ok (some v) ⟨m₂, d⟩ ∧ d.rest = ['x'] ∧
      m₂.arena.tally.collections = 1 ∧ m₂.Shows v (.pair (.atom .quote) (.pair .nil .nil)) := by
  have hderives : Derives .expr (Cursor.ofString " '()x").rest (SExpr.quote .nil) ['x'] :=
    .quote rfl (.list rfl (.close rfl))
  have h := (read_accepts (m := littered) (by decide) .refl _).2.2.1 _ _ hderives
  rw [if_pos (by decide +kernel)] at h
  obtain ⟨v, m₂, d, hrun, hrest, -, hreads, hshows⟩ := h
  have hend : (ending (read.run ⟨littered, .ofString " '()x"⟩)).machine.arena.tally.collections = 1 ∧
      (ending (read.run ⟨littered, .ofString " '()x"⟩)).machine.lexicon.count ≤ Lexicon.maxCount := by
    decide +kernel
  rw [hrun] at hend
  obtain ⟨t, ht, hdenotes, -⟩ := hshows hend.2
  have hquote : m₂.lexicon.Denotes (SExpr.quote .nil) (.pair (.atom .quote) (.pair .nil .nil)) :=
    .pair (.name (Lexicon.Grows.lookup?_quote hreads)) (.pair .nil .nil)
  exact ⟨v, m₂, d, hrun, hrest, hend.1, hdenotes.unique hquote ▸ ht⟩

end ReadAction

end ArenaLisp
