import ArenaLisp.Proofs.Keeps
import Mathlib.Data.Set.Card

/-!
# How much room there is

`a.reachCount vs` is the number of cells that the values `vs` reach; so many would be in use after a
collection.  An allocation that finds no room finds every cell of the arena reached from the two slots and
the roots (`capacity_le_reachCount`), whatever garbage there was and wherever it lay.  One that does find
room leaves what was reached before, along with one cell more (`reachCount_alloc`).
-/

namespace ArenaLisp

instance : Finite CellId :=
  Finite.of_injective (fun id => ⟨id.toNat, id.toNat_lt⟩ : CellId → Fin (2 ^ 32)) fun _ _ h =>
    CellId.toNat_injective (Fin.mk.inj h)

namespace CellId

/-- The cells below a position. -/
def below (n : Nat) : Finset CellId := (Finset.range n).image ofNat

variable {n : Nat} {id : CellId}

theorem mem_below (hn : n ≤ 2 ^ 32) : id ∈ below n ↔ id.toNat < n := by
  unfold below
  rw [Finset.mem_image]
  constructor
  · rintro ⟨i, hi, rfl⟩
    have hi := Finset.mem_range.mp hi
    rwa [toNat_ofNat (by omega)]
  · exact fun h => ⟨id.toNat, Finset.mem_range.mpr h, ofNat_toNat id⟩

theorem card_below (hn : n ≤ 2 ^ 32) : (below n).card = n := by
  unfold below
  rw [Finset.card_image_of_injOn, Finset.card_range]
  intro i hi j hj hij
  have hi := Finset.mem_range.mp hi
  have hj := Finset.mem_range.mp hj
  have h := congrArg toNat hij
  rwa [toNat_ofNat (by omega), toNat_ofNat (by omega)] at h

end CellId

namespace Arena

variable {a a' : Arena} {vs ws roots : List Value} {car cdr : Value} {id x : CellId}

/-- The number of cells in use is the number of cells handed out less that of the free ones. -/
theorem Coherent.liveCount_eq (h : a.Coherent) : a.liveCount = {x | a.Live x}.ncard := by
  have hused := h.used_le_two_pow
  have hlive : {x | a.Live x} = ↑(CellId.below a.used \ a.free.toFinset) := by
    ext x
    rw [Set.mem_ofPred_eq, Finset.mem_coe, Finset.mem_sdiff, CellId.mem_below hused,
      List.mem_toFinset, Live]
  have hsub : a.free.toFinset ⊆ CellId.below a.used := fun x hx =>
    (CellId.mem_below hused).mpr (h.free_lt x (List.mem_toFinset.mp hx))
  rw [hlive, Set.ncard_coe_finset, Finset.card_sdiff_of_subset hsub, CellId.card_below hused,
    List.toFinset_card_of_nodup h.free_nodup]
  rfl

/-- The number of cells that values reach. -/
def reachCount (a : Arena) (vs : List Value) : Nat := (a.collect vs).liveCount

theorem Coherent.reachCount_eq (h : a.Coherent) (hvs : ∀ v ∈ vs, ¬ a.Dangling v) :
    a.reachCount vs = {x | a.graph.Reaches vs x}.ncard := by
  rw [reachCount, (h.collect hvs).liveCount_eq]
  congr 1
  ext x
  rw [Set.mem_ofPred_eq, live_collect h]
  exact and_iff_right_of_imp fun hx => (h.live_of_reaches hvs hx).1

/-- Values that reach the same cells reach as many. -/
theorem Coherent.reachCount_congr (h : a.Coherent) (h' : a'.Coherent)
    (hvs : ∀ v ∈ vs, ¬ a.Dangling v) (hws : ∀ v ∈ ws, ¬ a'.Dangling v)
    (hreach : ∀ x, a'.graph.Reaches ws x ↔ a.graph.Reaches vs x) :
    a'.reachCount ws = a.reachCount vs := by
  rw [h.reachCount_eq hvs, h'.reachCount_eq hws]
  congr 1
  ext x
  exact hreach x

theorem reachCount_le_capacity (h : a.Coherent) : a.reachCount vs ≤ a.capacity.toNat := by
  refine Nat.le_trans (Nat.sub_le _ _) ?_
  rw [used_collect]
  exact h.used_le

section Alloc

variable (h : a.Coherent) (hvs : ∀ v ∈ car :: cdr :: roots, ¬ a.Dangling v)
include h hvs

/-- Where there is no room for a pair, its slots and the roots reach every cell. -/
theorem capacity_le_reachCount (hnone : (a.alloc roots car cdr).cell? = none) :
    a.capacity.toNat ≤ a.reachCount (car :: cdr :: roots) := by
  have hcapacity : a.capacity.toNat ≤ 2 ^ 32 := Nat.le_of_lt a.capacity.toNat_lt
  have hsub : ↑(CellId.below a.capacity.toNat) ⊆
      {x | a.graph.Reaches (car :: cdr :: roots) x} := by
    intro x hx
    have hlt := (CellId.mem_below hcapacity).mp hx
    rw [← CellId.ofNat_toNat x]
    exact reaches_of_alloc_eq_none h hnone hlt
  have hle := Set.ncard_le_ncard hsub
  rwa [Set.ncard_coe_finset, CellId.card_below hcapacity, ← h.reachCount_eq hvs] at hle

/-- A new pair and the roots reach the new cell and what its slots and the roots reached before. -/
theorem reaches_alloc_iff (hid : (a.alloc roots car cdr).cell? = some id) :
    (a.alloc roots car cdr).arena.graph.Reaches (.pair id :: roots) x ↔
      x = id ∨ a.graph.Reaches (car :: cdr :: roots) x := by
  obtain ⟨hkept, hplaced⟩ := alloc_spec h hvs
  have hslots := (hplaced id hid).graph
  constructor
  · intro hx
    induction hx with
    | root hx =>
      rcases List.mem_cons.mp hx with hx | hx
      · exact .inl (Value.pair.inj hx)
      · exact .inr (.root (by simp [hx]))
    | @child y z _ hyz ih =>
      rcases ih with rfl | hy
      · rw [Graph.Child, hslots] at hyz
        refine .inr (.root ?_)
        rcases hyz with hz | hz
        · simp [← hz]
        · simp [← hz]
      · rw [Graph.Child, hkept.graph y hy] at hyz
        exact .inr (.child hy hyz)
  · have hroot : (a.alloc roots car cdr).arena.graph.Reaches (.pair id :: roots) id :=
      .root List.mem_cons_self
    rintro (rfl | hx)
    · exact hroot
    · induction hx with
      | @root x hx =>
        rcases List.mem_cons.mp hx with hx | hx
        · exact hroot.car (by rw [hslots, hx])
        · rcases List.mem_cons.mp hx with hx | hx
          · exact hroot.cdr (by rw [hslots, hx])
          · exact .root (List.mem_cons_of_mem _ hx)
      | @child y z hy hyz ih =>
        rw [Graph.Child, ← hkept.graph y hy] at hyz
        exact .child ih hyz

/-- A new pair takes one cell more than its slots and the roots did. -/
theorem reachCount_alloc (hid : (a.alloc roots car cdr).cell? = some id) :
    (a.alloc roots car cdr).arena.reachCount (.pair id :: roots) =
      a.reachCount (car :: cdr :: roots) + 1 := by
  obtain ⟨hkept, hplaced⟩ := alloc_spec h hvs
  have hplaced := hplaced id hid
  have hnew : ∀ v ∈ .pair id :: roots, ¬ (a.alloc roots car cdr).arena.Dangling v := by
    intro v hv
    rcases List.mem_cons.mp hv with rfl | hv
    · exact not_dangling_pair.mpr hplaced.live
    · exact not_dangling_iff.mpr fun x hx => hkept.live x (.root (by simp [← hx, hv]))
  rw [hkept.coherent.reachCount_eq hnew, h.reachCount_eq hvs]
  have hset : {x | (a.alloc roots car cdr).arena.graph.Reaches (.pair id :: roots) x} =
      insert id {x | a.graph.Reaches (car :: cdr :: roots) x} := by
    ext x
    exact reaches_alloc_iff h hvs hid
  have hfresh : id ∉ {x | a.graph.Reaches (car :: cdr :: roots) x} := hplaced.fresh
  rw [hset, Set.ncard_insert_of_notMem hfresh]

end Alloc

end Arena

/-- The number of cells that the root stack reaches. -/
def Machine.pinnedCount (m : Machine) : Nat := m.arena.reachCount m.roots

end ArenaLisp
