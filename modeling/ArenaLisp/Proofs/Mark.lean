import ArenaLisp.Proofs.Reach

/-!
# Marking and sweeping are exact

Marking from a list of values marks exactly the cells that the values reach (`mark_spec`), in
every graph, whatever marks earlier collections have left.  Hence a collection frees exactly the
cells that its roots do not reach, lowest first (`mem_free_collect`, `pairwise_free_collect`), and
leaves the slots of all others as they are (`graph_collect_of_reaches`).
-/

namespace ArenaLisp

/-- Whether a cell is there and marked. -/
def Marked (cells : Array Cell) (id : CellId) : Prop :=
  ∃ cell, cells[id.toNat]? = some cell ∧ cell.marked = true

theorem Marked.lt_size {cells : Array Cell} {id : CellId} (h : Marked cells id) :
    id.toNat < cells.size := by
  obtain ⟨cell, hcell, -⟩ := h
  exact (Array.getElem?_eq_some_iff.mp hcell).1

namespace Marking

variable {m : Marking} {id x y : CellId} {v : Value}

/-- Entering a cell marks it, and leaves the others as they are. -/
theorem getElem?_enter (m : Marking) (id : CellId) (i : Nat) :
    (m.enter id).cells[i]? =
      if i = id.toNat then m.cells[i]?.map ({ · with marked := true }) else m.cells[i]? := by
  unfold enter
  split
  · rename_i h
    dsimp only
    by_cases hm : m.cells[id.toNat].marked = true
    · rw [if_pos hm]
      split
      · rename_i hi
        subst hi
        rw [Array.getElem?_eq_getElem h, Option.map_some]
        congr 1
        rw [← hm]
      · rfl
    · rw [if_neg hm]
      show (m.cells.set id.toNat { m.cells[id.toNat] with marked := true })[i]? = _
      rw [Array.getElem?_set]
      by_cases hi : i = id.toNat
      · subst hi
        simp [Array.getElem?_eq_getElem h]
      · simp [hi, Ne.symm hi]
  · rename_i h
    split
    · rename_i hi
      subst hi
      simp [Array.getElem?_eq_none (Nat.le_of_not_lt h)]
    · rfl

theorem size_enter (m : Marking) (id : CellId) : (m.enter id).cells.size = m.cells.size := by
  unfold enter
  split
  · dsimp only
    split <;> simp
  · rfl

theorem graphOf_enter (m : Marking) (id : CellId) : graphOf (m.enter id).cells = graphOf m.cells := by
  funext x
  unfold graphOf
  rw [getElem?_enter]
  by_cases hx : x.toNat = id.toNat
  · rw [if_pos hx]
    cases m.cells[x.toNat]? <;> rfl
  · rw [if_neg hx]

theorem marked_enter : Marked (m.enter id).cells x ↔
    Marked m.cells x ∨ x = id ∧ x.toNat < m.cells.size := by
  unfold Marked
  rw [getElem?_enter]
  by_cases hx : x = id
  · subst hx
    rw [if_pos rfl]
    cases hc : m.cells[x.toNat]? with
    | none => simpa using Array.getElem?_eq_none_iff.mp hc
    | some cell => simpa using .inr (Array.getElem?_eq_some_iff.mp hc).1
  · rw [if_neg (fun h => hx (CellId.toNat_injective h))]
    simp [hx]

/-- A cell that becomes marked is queued. -/
theorem mem_queue_enter : x ∈ (m.enter id).queue ↔
    x ∈ m.queue ∨ x = id ∧ x.toNat < m.cells.size ∧ ¬ Marked m.cells x := by
  unfold enter
  split
  · rename_i h
    dsimp only
    have hmarked : Marked m.cells id ↔ m.cells[id.toNat].marked = true := by
      simp [Marked, Array.getElem?_eq_getElem h]
    by_cases hm : m.cells[id.toNat].marked = true
    · rw [if_pos hm]
      constructor
      · exact .inl
      · rintro (hx | ⟨rfl, -, hx⟩)
        · exact hx
        · exact absurd (hmarked.mpr hm) hx
    · rw [if_neg hm, List.mem_cons]
      constructor
      · rintro (rfl | hx)
        · exact .inr ⟨rfl, h, fun hx => hm (hmarked.mp hx)⟩
        · exact .inl hx
      · rintro (hx | ⟨hx, -⟩)
        · exact .inr hx
        · exact .inl hx
  · rename_i h
    constructor
    · exact .inl
    · rintro (hx | ⟨rfl, hlt, -⟩)
      · exact hx
      · exact absurd hlt h

/-! ### The invariant -/

/-- Marking in progress from values that reach `R` in `g`: only that is marked, and the children of
a marked cell that is not queued are marked, those of `x` in `open_` perhaps excepted. -/
structure Sound (g : Graph) (R : CellId → Prop) (open_ : CellId → Prop) (m : Marking) : Prop where
  graph : graphOf m.cells = g
  reached : ∀ x, Marked m.cells x → R x
  queued : ∀ x ∈ m.queue, Marked m.cells x
  closed : ∀ x y, Marked m.cells x → x ∉ m.queue → ¬ open_ x → g.Child x y →
    y.toNat < m.cells.size → Marked m.cells y

variable {g : Graph} {R open_ : CellId → Prop}

theorem Sound.enter (h : m.Sound g R open_) (hid : R id) : (m.enter id).Sound g R open_ where
  graph := (graphOf_enter m id).trans h.graph
  reached x hx := by
    rcases marked_enter.mp hx with hx | ⟨rfl, -⟩
    · exact h.reached x hx
    · exact hid
  queued x hx := by
    rcases mem_queue_enter.mp hx with hx | ⟨rfl, hlt, -⟩
    · exact marked_enter.mpr (.inl (h.queued x hx))
    · exact marked_enter.mpr (.inr ⟨rfl, hlt⟩)
  closed x y hx hq ho hxy hy := by
    rw [size_enter] at hy
    rw [mem_queue_enter, not_or] at hq
    have hold : Marked m.cells x := by
      by_contra hnew
      rcases marked_enter.mp hx with hx | hx
      · exact hnew hx
      · exact hq.2 ⟨hx.1, hx.2, hnew⟩
    exact marked_enter.mpr (.inl (h.closed x y hold hq.1 ho hxy hy))

theorem Sound.visit (h : m.Sound g R open_) (hv : ∀ x, v = .pair x → R x) :
    (m.visit v).Sound g R open_ := by
  cases v with
  | pair id => exact h.enter (hv id rfl)
  | nil | atom _ | builtin _ => exact h

theorem marked_visit : Marked (m.visit v).cells x ↔
    Marked m.cells x ∨ v = .pair x ∧ x.toNat < m.cells.size := by
  cases v with
  | pair id =>
    show Marked (m.enter id).cells x ↔ _
    rw [marked_enter, Value.pair.injEq]
    exact or_congr Iff.rfl (and_congr eq_comm Iff.rfl)
  | nil | atom _ | builtin _ => simp [Marking.visit]

theorem size_visit (m : Marking) (v : Value) : (m.visit v).cells.size = m.cells.size := by
  cases v with
  | pair id => exact size_enter m id
  | nil | atom _ | builtin _ => rfl

/-- Following the head of the queue keeps the invariant. -/
theorem Sound.follow {cells : Array Cell} {queue : List CellId} {cell : Cell}
    (h : (⟨cells, id :: queue⟩ : Marking).Sound g R fun _ => False)
    (hR : ∀ x y, R x → g.Child x y → R y) (hcell : cells[id.toNat]? = some cell) :
    (((⟨cells, queue⟩ : Marking).visit cell.car).visit cell.cdr).Sound g R fun _ => False := by
  have hid : Marked cells id := h.queued id List.mem_cons_self
  have hslots : g id = (cell.car, cell.cdr) := by
    rw [← h.graph]
    exact graphOf_of_getElem? hcell
  have hpop : (⟨cells, queue⟩ : Marking).Sound g R (· = id) :=
    { graph := h.graph
      reached := h.reached
      queued := fun x hx => h.queued x (List.mem_cons_of_mem _ hx)
      closed := fun x y hx hq ho =>
        h.closed x y hx (fun hmem => (List.mem_cons.mp hmem).elim ho hq) not_false }
  have hnext := (hpop.visit (v := cell.car) fun x hx =>
      hR id x (h.reached id hid) (.inl (by rw [hslots, hx]))).visit (v := cell.cdr) fun x hx =>
      hR id x (h.reached id hid) (.inr (by rw [hslots, hx]))
  refine { hnext with closed := fun x y hx hq _ hxy hy => ?_ }
  by_cases hxid : x = id
  · -- the children of the popped cell are the two values that were visited
    subst hxid
    rw [size_visit, size_visit] at hy
    rw [Graph.Child, hslots] at hxy
    rw [marked_visit, marked_visit, size_visit]
    rcases hxy with hxy | hxy
    · exact .inl (.inr ⟨hxy, hy⟩)
    · exact .inr ⟨hxy, hy⟩
  · exact hnext.closed x y hx hq hxid hxy hy

/-- When the queue has run empty, marking is closed, and has lost no mark. -/
theorem Sound.finish (hR : ∀ x y, R x → g.Child x y → R y) (h : m.Sound g R fun _ => False) :
    (⟨m.finish, []⟩ : Marking).Sound g R (fun _ => False) ∧ m.finish.size = m.cells.size ∧
      ∀ x, Marked m.cells x → Marked m.finish x := by
  fun_induction Marking.finish m with
  | case1 cells => exact ⟨h, rfl, fun _ hx => hx⟩
  | case2 cells id queue cell hcell ih =>
    obtain ⟨hsound, hsize, hmono⟩ := ih (h.follow hR hcell)
    refine ⟨hsound, by rw [hsize, size_visit, size_visit], fun x hx => hmono x ?_⟩
    exact marked_visit.mpr (.inl (marked_visit.mpr (.inl hx)))
  | case3 cells id queue hcell ih =>
    have hid : Marked cells id := h.queued id List.mem_cons_self
    have hlt := hid.lt_size
    rw [Array.getElem?_eq_none_iff] at hcell
    omega

theorem Sound.foldl_visit (vs : List Value) (h : m.Sound g R open_)
    (hvs : ∀ x, .pair x ∈ vs → R x) :
    (vs.foldl Marking.visit m).Sound g R open_ ∧
      (vs.foldl Marking.visit m).cells.size = m.cells.size ∧
      (∀ x, Marked m.cells x → Marked (vs.foldl Marking.visit m).cells x) ∧
      ∀ x, .pair x ∈ vs → x.toNat < m.cells.size →
        Marked (vs.foldl Marking.visit m).cells x := by
  induction vs generalizing m with
  | nil => exact ⟨h, rfl, fun _ hx => hx, by simp⟩
  | cons v vs ih =>
    obtain ⟨hsound, hsize, hmono, hroots⟩ := ih (h.visit (v := v) fun x hx => hvs x (by simp [hx]))
      fun x hx => hvs x (List.mem_cons_of_mem _ hx)
    rw [List.foldl_cons]
    refine ⟨hsound, hsize.trans (size_visit m v),
      fun x hx => hmono x (marked_visit.mpr (.inl hx)), fun x hx hlt => ?_⟩
    rcases List.mem_cons.mp hx with hx | hx
    · exact hmono x (marked_visit.mpr (.inr ⟨hx.symm, hlt⟩))
    · exact hroots x hx (by rwa [size_visit])

/-- Marking before the queue is followed: all marks are gone, and the roots have been visited. -/
def start (roots : List Value) (cells : Array Cell) : Marking :=
  roots.foldl visit ⟨cells.map ({ · with marked := false }), []⟩

/-- The cells without their marks. -/
private theorem graphOf_map_unmark (cells : Array Cell) :
    graphOf (cells.map ({ · with marked := false })) = graphOf cells := by
  funext x
  unfold graphOf
  rw [Array.getElem?_map]
  cases cells[x.toNat]? <;> rfl

private theorem not_marked_map_unmark (cells : Array Cell) (x : CellId) :
    ¬ Marked (cells.map ({ · with marked := false })) x := by
  rintro ⟨cell, hcell, hmarked⟩
  rw [Array.getElem?_map, Option.map_eq_some_iff] at hcell
  obtain ⟨old, -, rfl⟩ := hcell
  exact Bool.false_ne_true hmarked

/-- Whatever marks were left from before, the roots are marked when the queue begins to be followed. -/
theorem sound_start (roots : List Value) (cells : Array Cell) :
    (start roots cells).Sound (graphOf cells) ((graphOf cells).Reaches roots) (fun _ => False) ∧
      (start roots cells).cells.size = cells.size ∧
      ∀ x, .pair x ∈ roots → x.toNat < cells.size → Marked (start roots cells).cells x := by
  have hclear : (⟨cells.map ({ · with marked := false }), []⟩ : Marking).Sound (graphOf cells)
      ((graphOf cells).Reaches roots) fun _ => False :=
    { graph := graphOf_map_unmark cells
      reached := fun x hx => absurd hx (not_marked_map_unmark cells x)
      queued := by simp
      closed := fun x _ hx => absurd hx (not_marked_map_unmark cells x) }
  obtain ⟨hsound, hsize, -, hroots⟩ := hclear.foldl_visit roots fun x hx => .root hx
  rw [Array.size_map] at hsize hroots
  exact ⟨hsound, hsize, hroots⟩

end Marking

namespace Arena

/-- Marking marks exactly what the roots reach, and leaves the slots and the number of cells. -/
theorem mark_spec (roots : List Value) (cells : Array Cell) :
    graphOf (mark roots cells) = graphOf cells ∧ (mark roots cells).size = cells.size ∧
      ∀ x, Marked (mark roots cells) x ↔
        (graphOf cells).Reaches roots x ∧ x.toNat < cells.size := by
  obtain ⟨hstart, hsize₁, hroots⟩ := Marking.sound_start roots cells
  obtain ⟨hdone, hsize₂, hmono⟩ := hstart.finish fun x y hx hxy => .child hx hxy
  have hsize : (mark roots cells).size = cells.size := hsize₂.trans hsize₁
  refine ⟨hdone.graph, hsize, fun x => ⟨fun hx => ⟨hdone.reached x hx, ?_⟩, ?_⟩⟩
  · have := hx.lt_size
    omega
  · rintro ⟨hx, hlt⟩
    induction hx with
    | root h => exact hmono _ (hroots _ h hlt)
    | child _ hxy ih =>
      exact hdone.closed _ _ (ih (lt_size_of_child hxy)) (by simp) not_false hxy
        (by show _ < (mark roots cells).size; omega)

/-! ### Sweeping -/

theorem mem_unmarked {cells : Array Cell} (hsize : cells.size ≤ 2 ^ 32) {x : CellId} :
    x ∈ unmarked cells ↔ x.toNat < cells.size ∧ ¬ Marked cells x := by
  unfold unmarked
  rw [List.mem_filterMap]
  constructor
  · rintro ⟨i, hi, hx⟩
    have hlt : i < cells.size := List.mem_range.mp hi
    rw [Option.ite_none_right_eq_some, Option.some.injEq] at hx
    obtain ⟨hany, rfl⟩ := hx
    rw [Marked, CellId.toNat_ofNat (by omega)]
    refine ⟨hlt, ?_⟩
    rintro ⟨cell, hcell, hmarked⟩
    simp [hcell, hmarked] at hany
  · rintro ⟨hlt, hx⟩
    refine ⟨x.toNat, List.mem_range.mpr hlt, ?_⟩
    have hcell := Array.getElem?_eq_getElem hlt
    have hfree : cells[x.toNat].marked = false := by
      by_contra hmarked
      exact hx ⟨_, hcell, by simpa using hmarked⟩
    simp [hcell, hfree]

/-- Unmarked cells are listed lowest first, each once. -/
theorem pairwise_unmarked {cells : Array Cell} (hsize : cells.size ≤ 2 ^ 32) :
    (unmarked cells).Pairwise (·.toNat < ·.toNat) := by
  unfold unmarked
  rw [List.pairwise_filterMap]
  refine List.pairwise_lt_range.imp_of_mem ?_
  intro i j hi hj hij x hx y hy
  have hi := List.mem_range.mp hi
  have hj := List.mem_range.mp hj
  rw [Option.ite_none_right_eq_some, Option.some.injEq] at hx hy
  rw [← hx.2, ← hy.2, CellId.toNat_ofNat (by omega), CellId.toNat_ofNat (by omega)]
  exact hij

variable {a : Arena} {roots : List Value} {x : CellId}

theorem mem_free_collect (hsize : a.used ≤ 2 ^ 32) :
    x ∈ (a.collect roots).free ↔ x.toNat < a.used ∧ ¬ a.graph.Reaches roots x := by
  obtain ⟨-, hlen, hmarked⟩ := mark_spec roots a.cells
  have hmem : x ∈ unmarked (mark roots a.cells) ↔ _ := mem_unmarked (by rw [hlen]; exact hsize)
  rw [hlen, hmarked] at hmem
  refine hmem.trans (and_congr_right fun hlt => not_congr ?_)
  exact and_iff_left hlt

theorem pairwise_free_collect (hsize : a.used ≤ 2 ^ 32) :
    (a.collect roots).free.Pairwise (·.toNat < ·.toNat) :=
  pairwise_unmarked (by rw [(mark_spec roots a.cells).2.1]; exact hsize)

@[simp] theorem used_collect : (a.collect roots).used = a.used := by
  show (Array.map _ (mark roots a.cells)).size = a.cells.size
  rw [Array.size_map, (mark_spec roots a.cells).2.1]

@[simp] theorem capacity_collect : (a.collect roots).capacity = a.capacity := rfl

/-- A collection leaves the slots of all that the roots reach. -/
theorem graph_collect_of_reaches (hx : a.graph.Reaches roots x) (hlt : x.toNat < a.used) :
    (a.collect roots).graph x = a.graph x := by
  obtain ⟨hgraph, -, hmarked⟩ := mark_spec roots a.cells
  obtain ⟨cell, hcell, hmark⟩ := (hmarked x).mpr ⟨hx, hlt⟩
  have hswept : (a.collect roots).cells[x.toNat]? = some cell := by
    show (Array.map _ (mark roots a.cells))[x.toNat]? = _
    rw [Array.getElem?_map, hcell, Option.map_some, if_pos hmark]
  rw [graph, graphOf_of_getElem? hswept, ← graphOf_of_getElem? hcell, hgraph, graph]

/-- A collection poisons all that the roots do not reach. -/
theorem graph_collect_of_not_reaches (hx : ¬ a.graph.Reaches roots x) :
    (a.collect roots).graph x = (.poison, .poison) := by
  obtain ⟨-, -, hmarked⟩ := mark_spec roots a.cells
  have hswept : (a.collect roots).cells[x.toNat]? =
      (mark roots a.cells)[x.toNat]?.map fun cell => if cell.marked then cell else .free :=
    Array.getElem?_map
  rw [graph, graphOf, hswept]
  cases hcell : (mark roots a.cells)[x.toNat]? with
  | none => rfl
  | some cell =>
    have hmark : cell.marked ≠ true := fun hmark => hx ((hmarked x).mp ⟨cell, hcell, hmark⟩).1
    rw [Option.map_some, if_neg hmark]
    rfl

end Arena

end ArenaLisp
