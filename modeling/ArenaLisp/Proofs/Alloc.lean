import ArenaLisp.Proofs.Mark

/-!
# What an allocation keeps

In a coherent arena no cell in use leads to one that is free.  An allocation of values that are not
dangling keeps the arena coherent, takes a cell that neither they nor the roots reach, and leaves
all that they reach as it is (`alloc_spec`).  It fails only where every slot is reached
(`reaches_of_alloc_eq_none`).
-/

namespace ArenaLisp.Arena

/-- Whether a cell has been handed out and not freed since. -/
def Live (a : Arena) (id : CellId) : Prop := id.toNat < a.used ∧ id ∉ a.free

/-- Whether a value is a pair whose cell is free or was never handed out. -/
def Dangling (a : Arena) (v : Value) : Prop :=
  ∃ id, v = .pair id ∧ (id ∈ a.free ∨ a.used ≤ id.toNat)

/-- What every state of an arena has in common: the free cells are distinct, no cell lies beyond the
capacity, and no cell in use holds a dangling value. -/
structure Coherent (a : Arena) : Prop where
  free_nodup : a.free.Nodup
  free_lt : ∀ id ∈ a.free, id.toNat < a.used
  used_le : a.used ≤ a.capacity.toNat
  not_dangling : ∀ id, a.Live id → ¬ a.Dangling (a.graph id).1 ∧ ¬ a.Dangling (a.graph id).2

variable {a : Arena} {roots : List Value} {car cdr v : Value} {id x y : CellId}

theorem not_dangling_iff : ¬ a.Dangling v ↔ ∀ id, v = .pair id → a.Live id := by
  constructor
  · rintro h id rfl
    refine ⟨Nat.lt_of_not_le fun hle => h ⟨id, rfl, .inr hle⟩, fun hmem => h ⟨id, rfl, .inl hmem⟩⟩
  · rintro h ⟨id, rfl, hmem | hle⟩
    · exact (h id rfl).2 hmem
    · have := (h id rfl).1
      omega

theorem not_dangling_pair : ¬ a.Dangling (.pair id) ↔ a.Live id := by
  rw [not_dangling_iff]
  exact ⟨fun h => h id rfl, fun h _ hid => Value.pair.inj hid ▸ h⟩

instance (a : Arena) (id : CellId) : Decidable (a.Live id) := inferInstanceAs (Decidable (_ ∧ _))

instance (a : Arena) : (v : Value) → Decidable (a.Dangling v)
  | .pair id => decidable_of_iff (id ∈ a.free ∨ a.used ≤ id.toNat) (by simp [Dangling])
  | .nil | .atom _ | .builtin _ => isFalse (by simp [Dangling])

/-- What holds of all cells in use can be checked slot by slot. -/
theorem forall_live_iff {P : CellId → Prop} :
    (∀ id, a.Live id → P id) ↔ ∀ i < a.used, a.Live (.ofNat i) → P (.ofNat i) := by
  refine ⟨fun h i _ hlive => h _ hlive, fun h id hlive => ?_⟩
  have := h id.toNat hlive.1
  rw [CellId.ofNat_toNat] at this
  exact this hlive

instance (a : Arena) : Decidable a.Coherent :=
  decidable_of_iff
    (a.free.Nodup ∧ (∀ id ∈ a.free, id.toNat < a.used) ∧ a.used ≤ a.capacity.toNat ∧
      ∀ i < a.used, a.Live (.ofNat i) →
        ¬ a.Dangling (a.graph (.ofNat i)).1 ∧ ¬ a.Dangling (a.graph (.ofNat i)).2)
    ⟨fun ⟨h₁, h₂, h₃, h₄⟩ => ⟨h₁, h₂, h₃, forall_live_iff.mpr h₄⟩,
      fun h => ⟨h.free_nodup, h.free_lt, h.used_le, forall_live_iff.mp h.not_dangling⟩⟩

theorem coherent_empty (capacity : UInt32) : (Arena.empty capacity).Coherent where
  free_nodup := .nil
  free_lt := nofun
  used_le := Nat.zero_le _
  not_dangling _ h := absurd h.1 (Nat.not_lt_zero _)

namespace Coherent

theorem used_le_two_pow (h : a.Coherent) : a.used ≤ 2 ^ 32 := by
  have := h.used_le
  have := a.capacity.toNat_lt
  omega

theorem live_of_child (h : a.Coherent) (hx : a.Live x) (hxy : a.graph.Child x y) : a.Live y := by
  obtain ⟨hcar, hcdr⟩ := h.not_dangling x hx
  rcases hxy with hxy | hxy
  · exact not_dangling_pair.mp (hxy ▸ hcar)
  · exact not_dangling_pair.mp (hxy ▸ hcdr)

/-- What is reached from values that are not dangling is in use. -/
theorem live_of_reaches (h : a.Coherent) {vs : List Value} (hvs : ∀ v ∈ vs, ¬ a.Dangling v)
    (hx : a.graph.Reaches vs x) : a.Live x := by
  induction hx with
  | root hx => exact not_dangling_pair.mp (hvs _ hx)
  | child _ hxy ih => exact h.live_of_child ih hxy

/-- A coherent arena in terms of edges. -/
theorem of_child (h₁ : a.free.Nodup) (h₂ : ∀ id ∈ a.free, id.toNat < a.used)
    (h₃ : a.used ≤ a.capacity.toNat) (h₄ : ∀ x y, a.Live x → a.graph.Child x y → a.Live y) :
    a.Coherent where
  free_nodup := h₁
  free_lt := h₂
  used_le := h₃
  not_dangling x hx := ⟨not_dangling_iff.mpr fun y hy => h₄ x y hx (.inl hy),
    not_dangling_iff.mpr fun y hy => h₄ x y hx (.inr hy)⟩

end Coherent

/-! ### The routes of an allocation -/

section Fill

variable {free : List CellId}

theorem graph_fill (hid : id.toNat < a.used) (x : CellId) :
    (a.fill id free car cdr).graph x = if x = id then (car, cdr) else a.graph x := by
  show graphOf (a.cells.setIfInBounds id.toNat ⟨car, cdr, false⟩) x = _
  by_cases hx : x = id
  · subst hx
    have hlt : x.toNat < a.cells.size := hid
    have hcell : (a.cells.setIfInBounds x.toNat ⟨car, cdr, false⟩)[x.toNat]? =
        some ⟨car, cdr, false⟩ := by simp [hlt]
    rw [if_pos rfl]
    exact graphOf_of_getElem? hcell
  · have hne : id.toNat ≠ x.toNat := fun h => hx (CellId.toNat_injective h.symm)
    rw [if_neg hx]
    unfold graph graphOf
    rw [Array.getElem?_setIfInBounds_ne hne]

@[simp] theorem used_fill : (a.fill id free car cdr).used = a.used := by
  simp [fill, used]

/-- A free cell that is filled is in use, whatever the cells hold. -/
theorem live_fill_of_nodup (hnodup : a.free.Nodup) (hid : id.toNat < a.used)
    (hfree : a.free = id :: free) : (a.fill id free car cdr).Live x ↔ a.Live x ∨ x = id := by
  rw [hfree, List.nodup_cons] at hnodup
  rw [Live, Live, used_fill, hfree, List.mem_cons, not_or]
  show _ ∧ x ∉ free ↔ _
  constructor
  · rintro ⟨hlt, hx⟩
    by_cases hxid : x = id
    · exact .inr hxid
    · exact .inl ⟨hlt, hxid, hx⟩
  · rintro (⟨hlt, -, hx⟩ | rfl)
    · exact ⟨hlt, hx⟩
    · exact ⟨hid, hnodup.1⟩

theorem live_fill (h : a.Coherent) (hfree : a.free = id :: free) :
    (a.fill id free car cdr).Live x ↔ a.Live x ∨ x = id :=
  live_fill_of_nodup h.free_nodup (h.free_lt id (by simp [hfree])) hfree

theorem Coherent.fill (h : a.Coherent) (hfree : a.free = id :: free) (hcar : ¬ a.Dangling car)
    (hcdr : ¬ a.Dangling cdr) : (a.fill id free car cdr).Coherent := by
  have hnodup := h.free_nodup
  rw [hfree, List.nodup_cons] at hnodup
  refine .of_child hnodup.2 ?_ ?_ ?_
  · intro x hx
    rw [used_fill]
    exact h.free_lt x (by rw [hfree]; exact List.mem_cons_of_mem _ hx)
  · rw [used_fill]
    exact h.used_le
  · intro x y hx hxy
    rw [live_fill h hfree] at hx ⊢
    rw [Graph.Child, graph_fill (h.free_lt id (by simp [hfree]))] at hxy
    by_cases hxid : x = id
    · rw [if_pos hxid] at hxy
      rcases hxy with hxy | hxy
      · exact .inl (not_dangling_iff.mp hcar y hxy)
      · exact .inl (not_dangling_iff.mp hcdr y hxy)
    · rw [if_neg hxid] at hxy
      exact .inl (h.live_of_child (hx.resolve_right hxid) hxy)

end Fill

section Grow

theorem getElem?_grow (i : Nat) : (a.grow car cdr).cells[i]? =
    if i = a.used then some ⟨car, cdr, false⟩ else a.cells[i]? := by
  unfold grow used
  exact Array.getElem?_push

@[simp] theorem used_grow : (a.grow car cdr).used = a.used + 1 := by
  simp [grow, used]

theorem graph_grow (x : CellId) :
    (a.grow car cdr).graph x = if x.toNat = a.used then (car, cdr) else a.graph x := by
  unfold graph graphOf
  rw [getElem?_grow]
  by_cases hx : x.toNat = a.used
  · simp [hx]
  · simp [hx]

theorem live_grow_of_free_lt (hlt : ∀ id ∈ a.free, id.toNat < a.used) :
    (a.grow car cdr).Live x ↔ a.Live x ∨ x.toNat = a.used := by
  rw [Live, Live, used_grow]
  show _ ∧ x ∉ a.free ↔ _
  constructor
  · rintro ⟨hlt, hx⟩
    by_cases hxa : x.toNat = a.used
    · exact .inr hxa
    · exact .inl ⟨by omega, hx⟩
  · rintro (⟨hlt, hx⟩ | hx)
    · exact ⟨by omega, hx⟩
    · refine ⟨by omega, fun hmem => ?_⟩
      have := hlt x hmem
      omega

theorem live_grow (h : a.Coherent) :
    (a.grow car cdr).Live x ↔ a.Live x ∨ x.toNat = a.used := live_grow_of_free_lt h.free_lt

theorem Coherent.grow (h : a.Coherent) (hlt : a.used < a.capacity.toNat)
    (hcar : ¬ a.Dangling car) (hcdr : ¬ a.Dangling cdr) : (a.grow car cdr).Coherent := by
  refine .of_child h.free_nodup ?_ ?_ ?_
  · intro x hx
    have := h.free_lt x hx
    rw [used_grow]
    omega
  · rw [used_grow]
    exact hlt
  · intro x y hx hxy
    rw [live_grow h] at hx ⊢
    rw [Graph.Child, graph_grow] at hxy
    by_cases hxa : x.toNat = a.used
    · rw [if_pos hxa] at hxy
      rcases hxy with hxy | hxy
      · exact .inl (not_dangling_iff.mp hcar y hxy)
      · exact .inl (not_dangling_iff.mp hcdr y hxy)
    · rw [if_neg hxa] at hxy
      exact .inl (h.live_of_child (hx.resolve_right hxa) hxy)

end Grow

theorem live_collect (h : a.Coherent) :
    (a.collect roots).Live x ↔ x.toNat < a.used ∧ a.graph.Reaches roots x := by
  rw [Live, used_collect, mem_free_collect h.used_le_two_pow]
  constructor
  · rintro ⟨hlt, hx⟩
    exact ⟨hlt, by_contra fun hr => hx ⟨hlt, hr⟩⟩
  · rintro ⟨hlt, hx⟩
    exact ⟨hlt, fun hf => hf.2 hx⟩

theorem Coherent.collect (h : a.Coherent) (hroots : ∀ v ∈ roots, ¬ a.Dangling v) :
    (a.collect roots).Coherent := by
  refine .of_child ?_ ?_ ?_ ?_
  · exact (pairwise_free_collect h.used_le_two_pow).imp fun hxy heq => by
      rw [heq] at hxy
      exact Nat.lt_irrefl _ hxy
  · intro x hx
    rw [used_collect]
    exact ((mem_free_collect h.used_le_two_pow).mp hx).1
  · rw [used_collect]
    exact h.used_le
  · intro x y hx hxy
    rw [live_collect h] at hx ⊢
    rw [Graph.Child, graph_collect_of_reaches hx.2 hx.1] at hxy
    exact ⟨(h.live_of_child (h.live_of_reaches hroots hx.2) hxy).1, .child hx.2 hxy⟩

/-! ### The allocation as a whole -/

/-- How an allocation goes: into the first free cell, into one that was never used, into the first one
that a collection has freed, or nowhere. -/
inductive Route (a : Arena) (roots : List Value) (car cdr : Value) : Allocation → Prop
  | reuse {id : CellId} {free : List CellId} (hfree : a.free = id :: free) :
    Route a roots car cdr ⟨some id, a.fill id free car cdr, none⟩
  | grow (hfree : a.free = []) (hlt : a.used < a.capacity.toNat) :
    Route a roots car cdr ⟨some (.ofNat a.used), a.grow car cdr, none⟩
  | collect {id : CellId} {free : List CellId} (hfree : a.free = [])
    (hfull : a.capacity.toNat ≤ a.used)
    (hfreed : (a.collect (car :: cdr :: roots)).free = id :: free) :
    Route a roots car cdr
      ⟨some id, (a.collect (car :: cdr :: roots)).fill id free car cdr, some (free.length + 1)⟩
  | fail (hfree : a.free = []) (hfull : a.capacity.toNat ≤ a.used)
    (hfreed : (a.collect (car :: cdr :: roots)).free = []) :
    Route a roots car cdr ⟨none, a.collect (car :: cdr :: roots), some 0⟩

theorem route_alloc (a : Arena) (roots : List Value) (car cdr : Value) :
    a.Route roots car cdr (a.alloc roots car cdr) := by
  unfold alloc
  split
  · exact .reuse ‹_›
  · split
    · exact .grow ‹_› ‹_›
    · rename_i hfree hlt
      have hfull := Nat.le_of_not_lt hlt
      unfold allocFreed
      split
      · exact .collect hfree hfull ‹_›
      · exact .fail hfree hfull ‹_›

/-- What an allocation leaves behind, whether there was room or not. -/
structure Kept (a : Arena) (vs : List Value) (a₂ : Arena) : Prop where
  coherent : a₂.Coherent
  capacity : a₂.capacity = a.capacity
  live : ∀ x, a.graph.Reaches vs x → a₂.Live x
  graph : ∀ x, a.graph.Reaches vs x → a₂.graph x = a.graph x

/-- The values themselves are left without dangling. -/
theorem Kept.not_dangling {vs : List Value} {a₂ : Arena} (h : a.Kept vs a₂) :
    ∀ v ∈ vs, ¬ a₂.Dangling v :=
  fun _ hv => not_dangling_iff.mpr fun x hx => h.live x (.root (hx ▸ hv))

/-- The cell `id`, which nothing led to, holds a new pair. -/
structure Placed (a : Arena) (vs : List Value) (a₂ : Arena) (id : CellId) (car cdr : Value) :
    Prop where
  fresh : ¬ a.graph.Reaches vs id
  lt_capacity : id.toNat < a.capacity.toNat
  live : a₂.Live id
  graph : a₂.graph id = (car, cdr)

section

variable {vs : List Value} (h : a.Coherent) (hvs : ∀ v ∈ vs, ¬ a.Dangling v)
  (hcar : ¬ a.Dangling car) (hcdr : ¬ a.Dangling cdr)
include h hvs hcar hcdr

theorem kept_fill {free : List CellId} (hfree : a.free = id :: free) :
    a.Kept vs (a.fill id free car cdr) ∧ a.Placed vs (a.fill id free car cdr) id car cdr := by
  have hmem : id ∈ a.free := by simp [hfree]
  have hid := h.free_lt id hmem
  have hfresh : ¬ a.graph.Reaches vs id := fun hr => (h.live_of_reaches hvs hr).2 hmem
  refine ⟨⟨h.fill hfree hcar hcdr, rfl, ?_, ?_⟩, ⟨hfresh, ?_, ?_, ?_⟩⟩
  · intro x hx
    exact (live_fill h hfree).mpr (.inl (h.live_of_reaches hvs hx))
  · intro x hx
    rw [graph_fill hid, if_neg]
    rintro rfl
    exact hfresh hx
  · exact Nat.lt_of_lt_of_le hid h.used_le
  · exact (live_fill h hfree).mpr (.inr rfl)
  · rw [graph_fill hid, if_pos rfl]

theorem kept_grow (hlt : a.used < a.capacity.toNat) :
    a.Kept vs (a.grow car cdr) ∧ a.Placed vs (a.grow car cdr) (.ofNat a.used) car cdr := by
  have hid : (CellId.ofNat a.used).toNat = a.used :=
    CellId.toNat_ofNat (Nat.lt_trans hlt a.capacity.toNat_lt)
  refine ⟨⟨h.grow hlt hcar hcdr, rfl, ?_, ?_⟩, ⟨?_, ?_, ?_, ?_⟩⟩
  · intro x hx
    exact (live_grow h).mpr (.inl (h.live_of_reaches hvs hx))
  · intro x hx
    have := (h.live_of_reaches hvs hx).1
    rw [graph_grow, if_neg (by omega)]
  · intro hr
    have := (h.live_of_reaches hvs hr).1
    omega
  · omega
  · exact (live_grow h).mpr (.inr hid)
  · rw [graph_grow, if_pos hid]

end

theorem kept_collect (h : a.Coherent) (hroots : ∀ v ∈ roots, ¬ a.Dangling v) :
    a.Kept roots (a.collect roots) where
  coherent := h.collect hroots
  capacity := rfl
  live _ hx := (live_collect h).mpr ⟨(h.live_of_reaches hroots hx).1, hx⟩
  graph _ hx := graph_collect_of_reaches hx (h.live_of_reaches hroots hx).1

/-- An allocation keeps what the new pair and the roots reach.  Where it succeeds, the new pair lies
in a cell that they do not reach. -/
theorem alloc_spec (h : a.Coherent) (hvs : ∀ v ∈ car :: cdr :: roots, ¬ a.Dangling v) :
    a.Kept (car :: cdr :: roots) (a.alloc roots car cdr).arena ∧
      ∀ id, (a.alloc roots car cdr).cell? = some id →
        a.Placed (car :: cdr :: roots) (a.alloc roots car cdr).arena id car cdr := by
  have hcar := hvs car (by simp)
  have hcdr := hvs cdr (by simp)
  have hroute := a.route_alloc roots car cdr
  generalize a.alloc roots car cdr = al at hroute
  have hb := kept_collect h hvs
  have hreach : ∀ x, a.graph.Reaches (car :: cdr :: roots) x →
      (a.collect (car :: cdr :: roots)).graph.Reaches (car :: cdr :: roots) x :=
    fun x hx => hx.transfer hb.graph
  cases hroute with
  | reuse hfree =>
    obtain ⟨hkept, hplaced⟩ := kept_fill h hvs hcar hcdr hfree
    exact ⟨hkept, fun _ hid => Option.some.inj hid ▸ hplaced⟩
  | grow hfree hlt =>
    obtain ⟨hkept, hplaced⟩ := kept_grow h hvs hcar hcdr hlt
    exact ⟨hkept, fun _ hid => Option.some.inj hid ▸ hplaced⟩
  | collect hfree hfull hfreed =>
    obtain ⟨hkept, hplaced⟩ := kept_fill hb.coherent hb.not_dangling
      (hb.not_dangling car (by simp)) (hb.not_dangling cdr (by simp)) hfreed
    refine ⟨⟨hkept.coherent, hkept.capacity, fun x hx => hkept.live x (hreach x hx),
      fun x hx => (hkept.graph x (hreach x hx)).trans (hb.graph x hx)⟩, fun y hy => ?_⟩
    obtain rfl := Option.some.inj hy
    exact ⟨fun hr => hplaced.fresh (hreach _ hr), hplaced.lt_capacity, hplaced.live,
      hplaced.graph⟩
  | fail => exact ⟨hb, nofun⟩

/-- There is no room only where the new pair and the roots reach every slot. -/
theorem reaches_of_alloc_eq_none (h : a.Coherent)
    (hnone : (a.alloc roots car cdr).cell? = none) {n : Nat} (hn : n < a.capacity.toNat) :
    a.graph.Reaches (car :: cdr :: roots) (.ofNat n) := by
  have hroute := a.route_alloc roots car cdr
  generalize a.alloc roots car cdr = al at hroute hnone
  cases hroute with
  | reuse | grow | collect => cases hnone
  | fail hfree hfull hfreed =>
    by_contra hr
    have hid : (CellId.ofNat n).toNat = n :=
      CellId.toNat_ofNat (Nat.lt_trans hn a.capacity.toNat_lt)
    have hmem : CellId.ofNat n ∈ (a.collect (car :: cdr :: roots)).free :=
      (mem_free_collect h.used_le_two_pow).mpr ⟨by omega, hr⟩
    rw [hfreed] at hmem
    exact List.not_mem_nil hmem

end ArenaLisp.Arena
