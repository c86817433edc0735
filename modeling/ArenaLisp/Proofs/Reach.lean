import ArenaLisp.Program
import Mathlib.Algebra.Group.Nat.Defs
import Mathlib.Tactic.Common

/-!
# What cells reach

The cells of an arena are a graph: a cell leads to the pairs in its two slots.  `Graph.Reaches` is
reachability from a list of values, in graphs with cycles too.  A graph changes nothing for values
that keep the slots of all they reach (`reaches_congr`).
-/

namespace ArenaLisp

namespace CellId

theorem toNat_ofNat {n : Nat} (h : n < 2 ^ 32) : (ofNat n).toNat = n :=
  UInt32.toNat_ofNat_of_lt' h

@[simp] theorem ofNat_toNat (id : CellId) : ofNat id.toNat = id := by
  show (⟨UInt32.ofNat id.index.toNat⟩ : CellId) = id
  rw [UInt32.ofNat_toNat]

theorem toNat_injective {x y : CellId} (h : x.toNat = y.toNat) : x = y := by
  rw [← ofNat_toNat x, h, ofNat_toNat]

theorem toNat_lt (id : CellId) : id.toNat < 2 ^ 32 := id.index.toNat_lt

end CellId

/-- The two slots of every cell. -/
abbrev Graph := CellId → Value × Value

namespace Graph

/-- Whether a slot of `x` holds the pair in `y`. -/
def Child (g : Graph) (x y : CellId) : Prop := (g x).1 = .pair y ∨ (g x).2 = .pair y

/-- What can be come to from a list of values. -/
inductive Reaches (g : Graph) (vs : List Value) : CellId → Prop
  | root {x : CellId} (h : .pair x ∈ vs) : Reaches g vs x
  | child {x y : CellId} (h : Reaches g vs x) (hxy : g.Child x y) : Reaches g vs y

variable {g g' : Graph} {vs ws : List Value} {x y : CellId}

theorem Reaches.car (h : g.Reaches vs x) (hxy : (g x).1 = .pair y) : g.Reaches vs y :=
  .child h (.inl hxy)

theorem Reaches.cdr (h : g.Reaches vs x) (hxy : (g x).2 = .pair y) : g.Reaches vs y :=
  .child h (.inr hxy)

/-- More is reached from more values. -/
theorem Reaches.mono (h : g.Reaches vs x) (hvs : ∀ y, .pair y ∈ vs → g.Reaches ws y) :
    g.Reaches ws x := by
  induction h with
  | root h => exact hvs _ h
  | child _ hxy ih => exact .child ih hxy

theorem reaches_self (g : Graph) (x : CellId) : g.Reaches [.pair x] x :=
  .root (List.mem_singleton.mpr rfl)

/-- What a value leads to is reached from wherever the value itself is. -/
theorem Reaches.through {v : Value} (h : g.Reaches [v] x) (hv : ∀ y, v = .pair y → g.Reaches vs y) :
    g.Reaches vs x :=
  h.mono fun y hy => hv y (List.mem_singleton.mp hy).symm

/-- What a slot of a pair leads to, the pair leads to. -/
theorem Reaches.of_slot {v : Value} (h : g.Reaches [v] y) (hv : (g x).1 = v ∨ (g x).2 = v) :
    g.Reaches [.pair x] y := by
  refine h.through ?_
  rintro z rfl
  exact .child (g.reaches_self x) hv

theorem Reaches.of_subset (h : g.Reaches vs x) (hvs : vs ⊆ ws) : g.Reaches ws x :=
  h.mono fun _ hy => .root (hvs hy)

/-- What is reached stays reached where the slots of all of it are kept. -/
theorem Reaches.transfer (h : g.Reaches vs x) (hg : ∀ y, g.Reaches vs y → g' y = g y) :
    g'.Reaches vs x := by
  induction h with
  | root h => exact .root h
  | @child y z hy hyz ih =>
    refine .child ih ?_
    rw [Child, hg y hy]
    exact hyz

/-- A graph that keeps the slots of all that is reached has nothing else to reach. -/
theorem reaches_congr (hg : ∀ y, g.Reaches vs y → g' y = g y) :
    g'.Reaches vs x ↔ g.Reaches vs x := by
  constructor
  · intro h
    induction h with
    | root h => exact .root h
    | @child y z _ hyz ih =>
      rw [Child, hg y ih] at hyz
      exact .child ih hyz
  · exact fun h => h.transfer hg

theorem reaches_nil : ¬ g.Reaches [] x := by
  intro h
  induction h with
  | root h => simp at h
  | child _ _ ih => exact ih

/-- What is reached from a value in front of others is reached from it alone or from the others. -/
theorem reaches_cons {v : Value} : g.Reaches (v :: vs) x ↔ g.Reaches [v] x ∨ g.Reaches vs x := by
  constructor
  · intro h
    induction h with
    | root h =>
      rcases List.mem_cons.mp h with h | h
      · exact .inl (.root (by simp [h]))
      · exact .inr (.root h)
    | child _ hxy ih =>
      rcases ih with ih | ih
      · exact .inl (.child ih hxy)
      · exact .inr (.child ih hxy)
  · rintro (h | h)
    · exact h.of_subset (by simp)
    · exact h.of_subset (List.subset_cons_self _ _)

/-- A pair leads to itself and to what its slots lead to. -/
theorem Reaches.of_pair (h : g.Reaches [.pair x] y) :
    y = x ∨ g.Reaches [(g x).1] y ∨ g.Reaches [(g x).2] y := by
  induction h with
  | root h => exact .inl (Value.pair.inj (List.mem_singleton.mp h))
  | @child y z _ hyz ih =>
    rcases ih with rfl | hy | hy
    · rcases hyz with hyz | hyz
      · exact .inr (.inl (hyz ▸ g.reaches_self z))
      · exact .inr (.inr (hyz ▸ g.reaches_self z))
    · exact .inr (.inl (.child hy hyz))
    · exact .inr (.inr (.child hy hyz))

end Graph

/-- The graph of an array of cells; where there is no cell, it reads as a free one. -/
def graphOf (cells : Array Cell) : Graph := fun id =>
  match cells[id.toNat]? with
  | some cell => (cell.car, cell.cdr)
  | none => (.poison, .poison)

theorem graphOf_of_getElem? {cells : Array Cell} {id : CellId} {cell : Cell}
    (h : cells[id.toNat]? = some cell) : graphOf cells id = (cell.car, cell.cdr) := by
  simp [graphOf, h]

/-- No edge leaves the cells of an array from outside. -/
theorem lt_size_of_child {cells : Array Cell} {x y : CellId} (h : (graphOf cells).Child x y) :
    x.toNat < cells.size := by
  by_contra hx
  have hnone : cells[x.toNat]? = none := Array.getElem?_eq_none (by omega)
  simp [Graph.Child, graphOf, hnone, Value.poison] at h

namespace Arena

/-- The graph of an arena. -/
def graph (a : Arena) : Graph := graphOf a.cells

theorem car_eq (a : Arena) (id : CellId) :
    a.car id = if (a.graph id).1 = .poison then .error (.fault (.freeCell id))
      else .ok (a.graph id).1 := by
  unfold car slot graph graphOf
  cases a.cells[id.toNat]? <;> rfl

theorem cdr_eq (a : Arena) (id : CellId) :
    a.cdr id = if (a.graph id).2 = .poison then .error (.fault (.freeCell id))
      else .ok (a.graph id).2 := by
  unfold cdr slot graph graphOf
  cases a.cells[id.toNat]? <;> rfl

theorem graph_fst_of_car {a : Arena} {id : CellId} {v : Value} (h : a.car id = .ok v) :
    (a.graph id).1 = v := by
  rw [car_eq] at h
  split at h
  · cases h
  · exact Except.ok.inj h

theorem graph_snd_of_cdr {a : Arena} {id : CellId} {v : Value} (h : a.cdr id = .ok v) :
    (a.graph id).2 = v := by
  rw [cdr_eq] at h
  split at h
  · cases h
  · exact Except.ok.inj h

/-- Whether two arenas have the same slots in all that a value reaches. -/
def AgreeOn (a a₂ : Arena) (v : Value) : Prop :=
  ∀ id, a.graph.Reaches [v] id → a₂.graph id = a.graph id

namespace AgreeOn

variable {a a₂ : Arena} {v : Value} {id : CellId}

theorem symm (h : a.AgreeOn a₂ v) : a₂.AgreeOn a v :=
  fun y hy => (h y ((Graph.reaches_congr h).mp hy)).symm

theorem trans {a₃ : Arena} (h : a.AgreeOn a₂ v) (h' : a₂.AgreeOn a₃ v) : a.AgreeOn a₃ v :=
  fun y hy => (h' y ((Graph.reaches_congr h).mpr hy)).trans (h y hy)

theorem graph (h : a.AgreeOn a₂ (.pair id)) : a₂.graph id = a.graph id := h id (a.graph.reaches_self id)

theorem car (h : a.AgreeOn a₂ (.pair id)) : a.AgreeOn a₂ (a.graph id).1 :=
  fun y hy => h y (hy.of_slot (.inl rfl))

theorem cdr (h : a.AgreeOn a₂ (.pair id)) : a.AgreeOn a₂ (a.graph id).2 :=
  fun y hy => h y (hy.of_slot (.inr rfl))

end AgreeOn

end Arena

end ArenaLisp
