import ArenaLisp.Proofs.Room

/-!
# A collection as a whole

The marking loop takes one turn for each cell that the roots reach, and in an arena in which every pair
has its cell no turn looks beyond the cells (`turns_mark`).  Cycles, shared cells and marks that earlier
collections have left make no difference.  Afterwards exactly the other cells are free, lowest first and
poisoned, and the tally has grown by their number (`collected_exact`).
-/

namespace ArenaLisp

/-! ### The marking loop turn by turn -/

namespace Marking

/-- One turn of the loop: the first cell leaves the queue, and the pairs in its slots are visited.  The
cell and these pairs have to be there. -/
inductive Turn : Marking → Marking → Prop
  | follow {cells : Array Cell} {queue : List CellId} {id : CellId} {cell : Cell}
      (hcell : cells[id.toNat]? = some cell)
      (hslots : ∀ y, (graphOf cells).Child id y → y.toNat < cells.size) :
      Turn ⟨cells, id :: queue⟩ (((⟨cells, queue⟩ : Marking).visit cell.car).visit cell.cdr)

/-- Whether the loop runs empty after so many turns, and the cells that it leaves. -/
inductive Turns : Nat → Marking → Array Cell → Prop
  | done {cells : Array Cell} : Turns 0 ⟨cells, []⟩ cells
  | turn {n : Nat} {m m' : Marking} {cells : Array Cell} (h : m.Turn m') (hrest : Turns n m' cells) :
      Turns (n + 1) m cells

variable {m : Marking} {g : Graph} {R : CellId → Prop}

/-- The loop runs empty, and each turn takes one off the work. -/
theorem Sound.turns (hR : ∀ x y, R x → g.Child x y → R y)
    (hrange : ∀ x y, g.Child x y → y.toNat < m.cells.size) (h : m.Sound g R fun _ => False) :
    ∃ n, Turns n m m.finish ∧ n + m.finish.countP (!·.marked) = m.work := by
  fun_induction Marking.finish m with
  | case1 cells => exact ⟨0, .done, by simp [work]⟩
  | case2 cells id queue cell hcell ih =>
    have hsize : (((⟨cells, queue⟩ : Marking).visit cell.car).visit cell.cdr).cells.size =
        cells.size := by
      rw [size_visit, size_visit]
    obtain ⟨n, hturns, hwork⟩ := ih (fun x y hxy => hsize ▸ hrange x y hxy) (h.follow hR hcell)
    refine ⟨n + 1, .turn (.follow hcell fun y hy => hrange id y (h.graph ▸ hy)) hturns, ?_⟩
    rw [work_visit, work_visit] at hwork
    have hpop : (⟨cells, id :: queue⟩ : Marking).work = (⟨cells, queue⟩ : Marking).work + 1 := by
      simp [work, Nat.add_assoc]
    omega
  | case3 cells id queue hcell ih =>
    have hlt := (h.queued id List.mem_cons_self).lt_size
    rw [Array.getElem?_eq_none_iff] at hcell
    exact absurd hlt (Nat.not_lt.mpr hcell)

theorem work_start (roots : List Value) (cells : Array Cell) :
    (start roots cells).work = cells.size := by
  have hvisits : ∀ (vs : List Value) (m : Marking), (vs.foldl visit m).work = m.work := by
    intro vs
    induction vs with
    | nil => exact fun _ => rfl
    | cons v vs ih => exact fun m => (ih _).trans (work_visit m v)
  rw [start, hvisits, work, Array.countP_map]
  simp [Function.comp_def]

end Marking

namespace Arena

/-- Whether a value, if it is a pair, lies in one of the first `n` cells. -/
def Within (n : Nat) (v : Value) : Prop := ∀ id, v = .pair id → id.toNat < n

instance (n : Nat) : (v : Value) → Decidable (Within n v)
  | .pair id => decidable_of_iff (id.toNat < n) (by simp [Within])
  | .nil | .atom _ | .builtin _ => isTrue (by simp [Within])

/-- Whether every pair in the arena and among the roots has its cell.  Nothing is asked of the marks, the
free cells or the shape of the graph. -/
def Enclosed (a : Arena) (roots : List Value) : Prop :=
  (∀ cell ∈ a.cells, Within a.used cell.car ∧ Within a.used cell.cdr) ∧
    ∀ v ∈ roots, Within a.used v

instance (a : Arena) (roots : List Value) : Decidable (a.Enclosed roots) :=
  inferInstanceAs (Decidable (_ ∧ _))

variable {a : Arena} {roots : List Value} {x y : CellId}

namespace Enclosed

theorem lt_used_of_child (h : a.Enclosed roots) (hxy : a.graph.Child x y) : y.toNat < a.used := by
  have hlt : x.toNat < a.cells.size := lt_size_of_child hxy
  obtain ⟨hcar, hcdr⟩ := h.1 a.cells[x.toNat] (Array.getElem_mem hlt)
  have hslots : a.graph x = (a.cells[x.toNat].car, a.cells[x.toNat].cdr) :=
    graphOf_of_getElem? (Array.getElem?_eq_getElem hlt)
  rw [Graph.Child, hslots] at hxy
  rcases hxy with hxy | hxy
  · exact hcar y hxy
  · exact hcdr y hxy

theorem lt_used_of_reaches (h : a.Enclosed roots) (hx : a.graph.Reaches roots x) :
    x.toNat < a.used := by
  cases hx with
  | root hx => exact h.2 _ hx x rfl
  | child _ hxy => exact h.lt_used_of_child hxy

end Enclosed

theorem length_unmarked (cells : Array Cell) :
    (unmarked cells).length = cells.countP (!·.marked) := by
  have hcells : cells.toList.map some = (List.range cells.size).map (cells[·]?) := by
    apply List.ext_getElem?
    intro i
    simp
    grind
  have hlisted : (fun i => (if cells[i]?.any (!·.marked) then some (CellId.ofNat i) else none).isSome) =
      Option.any (!·.marked) ∘ (cells[·]?) := by
    funext i
    by_cases h : cells[i]?.any (!·.marked) <;> simp [h]
  rw [unmarked, List.length_filterMap_eq_countP, hlisted, ← List.countP_map, ← hcells,
    List.countP_map, ← Array.countP_toList]
  rfl

/-- The marking loop takes one turn for each cell that is reached, and looks at no others. -/
theorem turns_mark (h : a.Enclosed roots) :
    Marking.Turns (a.reachCount roots) (Marking.start roots a.cells) (mark roots a.cells) := by
  obtain ⟨hstart, hsize, -⟩ := Marking.sound_start roots a.cells
  obtain ⟨n, hturns, hwork⟩ :=
    hstart.turns (fun x y hx hxy => .child hx hxy) fun x y hxy => hsize ▸ h.lt_used_of_child hxy
  have hfree : (a.collect roots).freeCount = (mark roots a.cells).countP (!·.marked) :=
    length_unmarked _
  have hcount : a.reachCount roots = n := by
    rw [reachCount, liveCount, used_collect, hfree]
    rw [Marking.work_start] at hwork
    show a.cells.size - _ = n
    show _ - (Marking.start roots a.cells).finish.countP _ = n
    omega
  rw [hcount]
  exact hturns

theorem length_free_collect (hsize : a.used ≤ 2 ^ 32) :
    (a.collect roots).free.length = {x : CellId | x.toNat < a.used ∧ ¬ a.graph.Reaches roots x}.ncard := by
  have hset : {x : CellId | x.toNat < a.used ∧ ¬ a.graph.Reaches roots x} =
      ↑(a.collect roots).free.toFinset := by
    ext x
    rw [Set.mem_ofPred_eq, Finset.mem_coe, List.mem_toFinset, mem_free_collect hsize]
  have hnodup : (a.collect roots).free.Nodup :=
    (pairwise_free_collect hsize).imp fun hxy heq => Nat.ne_of_lt hxy (congrArg CellId.toNat heq)
  rw [hset, Set.ncard_coe_finset, List.toFinset_card_of_nodup hnodup]

end Arena

/-- A machine after a collection that spares the operands of an allocation. -/
def Machine.collected (m : Machine) (car cdr : Value) : Machine :=
  { m with arena := m.arena.collect (car :: cdr :: m.roots) }

/-- A collection of any arena in which every pair has its cell: the marking loop runs empty after a turn
for each cell that is reached, and from then on exactly the other cells are free, lowest first and
poisoned.  The cells that are reached, the root stack and the size of the arena stay as they were, and the
tally counts one more collection and all that it freed. -/
theorem collected_exact (m : Machine) (car cdr : Value) (hsize : m.arena.used ≤ 2 ^ 32)
    (h : m.arena.Enclosed (car :: cdr :: m.roots)) :
    Marking.Turns (m.arena.reachCount (car :: cdr :: m.roots))
        (Marking.start (car :: cdr :: m.roots) m.arena.cells)
        (Arena.mark (car :: cdr :: m.roots) m.arena.cells) ∧
      (∀ x, x ∈ (m.collected car cdr).arena.free ↔
        x.toNat < m.arena.used ∧ ¬ m.arena.graph.Reaches (car :: cdr :: m.roots) x) ∧
      (m.collected car cdr).arena.free.Pairwise (·.toNat < ·.toNat) ∧
      (∀ x ∈ (m.collected car cdr).arena.free,
        (m.collected car cdr).arena.graph x = (.poison, .poison)) ∧
      (∀ x, m.arena.graph.Reaches (car :: cdr :: m.roots) x →
        (m.collected car cdr).arena.graph x = m.arena.graph x) ∧
      (m.collected car cdr).roots = m.roots ∧
      (m.collected car cdr).arena.used = m.arena.used ∧
      (m.collected car cdr).arena.capacity = m.arena.capacity ∧
      (m.collected car cdr).arena.tally = ⟨m.arena.tally.collections + 1, m.arena.tally.reclaimed +
        {x : CellId | x.toNat < m.arena.used ∧
          ¬ m.arena.graph.Reaches (car :: cdr :: m.roots) x}.ncard⟩ := by
  have hfree : ∀ x, x ∈ (m.collected car cdr).arena.free ↔
      x.toNat < m.arena.used ∧ ¬ m.arena.graph.Reaches (car :: cdr :: m.roots) x :=
    fun x => Arena.mem_free_collect hsize
  refine ⟨Arena.turns_mark h, hfree, Arena.pairwise_free_collect hsize, fun x hx => ?_, fun x hx => ?_,
    rfl, Arena.used_collect, rfl, ?_⟩
  · exact Arena.graph_collect_of_not_reaches ((hfree x).mp hx).2
  · exact Arena.graph_collect_of_reaches hx (h.lt_used_of_reaches hx)
  · rw [← Arena.length_free_collect hsize]
    rfl

/-- A machine with two cells that hold each other, one that holds itself and them, and one that nothing
holds.  Some of them are marked from before. -/
def tangledMachine : Machine :=
  { Machine.new 4 none with
    arena := ⟨#[⟨.atom .t, .pair ⟨1⟩, false⟩, ⟨.pair ⟨0⟩, .nil, true⟩, ⟨.pair ⟨2⟩, .pair ⟨1⟩, true⟩,
      ⟨.nil, .nil, false⟩], [], 4, ⟨5, 7⟩⟩
    roots := [.nil, .pair ⟨1⟩] }

/-- The two cells that the root stack reaches stay, and the other two are freed. -/
theorem collected_exact_tangledMachine :
    Marking.Turns 2 (Marking.start [.nil, .nil, .nil, .pair ⟨1⟩] tangledMachine.arena.cells)
        (Arena.mark [.nil, .nil, .nil, .pair ⟨1⟩] tangledMachine.arena.cells) ∧
      (tangledMachine.collected .nil .nil).arena.free = [⟨2⟩, ⟨3⟩] ∧
      (tangledMachine.collected .nil .nil).arena.graph ⟨2⟩ = (.poison, .poison) ∧
      (tangledMachine.collected .nil .nil).arena.graph ⟨0⟩ = (.atom .t, .pair ⟨1⟩) ∧
      (tangledMachine.collected .nil .nil).arena.tally = ⟨6, 9⟩ := by
  obtain ⟨hturns, -, -, hpoison, hgraph, -⟩ :=
    collected_exact tangledMachine .nil .nil (by decide) (by decide)
  have hroot : tangledMachine.arena.graph.Reaches [.nil, .nil, .nil, .pair ⟨1⟩] ⟨1⟩ :=
    .root (by decide)
  have hcount : tangledMachine.arena.reachCount [.nil, .nil, .nil, .pair ⟨1⟩] = 2 := by decide +kernel
  rw [show .nil :: .nil :: tangledMachine.roots = [.nil, .nil, .nil, .pair ⟨1⟩] from rfl,
    hcount] at hturns
  exact ⟨hturns, by decide +kernel, hpoison _ (by decide +kernel), hgraph _ (hroot.car rfl),
    by decide +kernel⟩

end ArenaLisp
