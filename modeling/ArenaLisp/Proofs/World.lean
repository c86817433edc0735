import ArenaLisp.Proofs.Renaming

/-!
# Two machines in step

A world is a renaming between two machines.  It is in order if the machines are coherent and what
corresponds has slots that correspond.  An allocation on both sides leads to a world that is in order
again (`World.Ok.allocated`).  A mode says what else is asked of a world: in an ample one the root stacks
correspond and the right arena is not the smaller one, so that an allocation that succeeds on the left
succeeds on the right too.
-/

namespace ArenaLisp

/-- Two arenas that differ at most in what their free cells hold. -/
structure Arena.Agrees (a a' : Arena) : Prop where
  size : a'.cells.size = a.cells.size
  free : a'.free = a.free
  capacity : a'.capacity = a.capacity
  tally : a'.tally = a.tally
  cells : ∀ id, id ∉ a.free → a'.cells[id.toNat]? = a.cells[id.toNat]?

namespace Arena.Agrees

variable {a a' : Arena} {id : CellId} {free : List CellId} {roots : List Value}
  {car cdr : Value}

theorem refl (a : Arena) : a.Agrees a := ⟨rfl, rfl, rfl, rfl, fun _ _ => rfl⟩

theorem symm (h : a.Agrees a') : a'.Agrees a :=
  ⟨h.size.symm, h.free.symm, h.capacity.symm, h.tally.symm,
    fun id hid => (h.cells id (h.free ▸ hid)).symm⟩

/-- Writing into a free cell goes unnoticed. -/
theorem overwrite (hid : id ∈ a.free) (cell : Cell) :
    a.Agrees { a with cells := a.cells.setIfInBounds id.toNat cell } where
  size := Array.size_setIfInBounds
  free := rfl
  capacity := rfl
  tally := rfl
  cells x hx := by
    refine Array.getElem?_setIfInBounds_ne fun h => hx ?_
    rw [← CellId.toNat_injective h]
    exact hid

theorem live_iff (h : a.Agrees a') : a'.Live id ↔ a.Live id := by
  rw [Live, Live, h.free, used, used, h.size]

theorem graph_eq (h : a.Agrees a') (hid : id ∉ a.free) : a'.graph id = a.graph id := by
  unfold graph graphOf
  rw [h.cells id hid]

/-- Without free cells nothing is left to differ. -/
theorem eq_of_free_eq_nil (h : a.Agrees a') (ha : a.Coherent) (hfree : a.free = []) : a' = a := by
  have hcells : a'.cells = a.cells := by
    refine Array.ext h.size fun i hi hi' => ?_
    have hid : (CellId.ofNat i).toNat = i :=
      CellId.toNat_ofNat (Nat.lt_of_lt_of_le hi' ha.used_le_two_pow)
    have := h.cells (.ofNat i) (by simp [hfree])
    rw [hid, Array.getElem?_eq_getElem hi, Array.getElem?_eq_getElem hi'] at this
    exact Option.some.inj this
  cases a
  cases a'
  have := h.free
  have := h.capacity
  have := h.tally
  simp_all

theorem fill (h : a.Agrees a') (hfree : a.free = id :: free) :
    (a.fill id free car cdr).Agrees (a'.fill id free car cdr) where
  size := by
    show (a'.cells.setIfInBounds _ _).size = (a.cells.setIfInBounds _ _).size
    rw [Array.size_setIfInBounds, Array.size_setIfInBounds, h.size]
  free := rfl
  capacity := h.capacity
  tally := h.tally
  cells x hx := by
    show (a'.cells.setIfInBounds _ _)[x.toNat]? = (a.cells.setIfInBounds _ _)[x.toNat]?
    rw [Array.getElem?_setIfInBounds, Array.getElem?_setIfInBounds, h.size]
    by_cases hid : id.toNat = x.toNat
    · rw [if_pos hid, if_pos hid]
    · rw [if_neg hid, if_neg hid]
      refine h.cells x ?_
      rw [hfree, List.mem_cons, not_or]
      exact ⟨fun heq => hid (by rw [heq]), hx⟩

/-- Allocation does not look at what free cells hold. -/
theorem alloc (h : a.Agrees a') (ha : a.Coherent) :
    (a'.alloc roots car cdr).cell? = (a.alloc roots car cdr).cell? ∧
      (a.alloc roots car cdr).arena.Agrees (a'.alloc roots car cdr).arena := by
  cases hfree : a.free with
  | nil =>
    rw [h.eq_of_free_eq_nil ha hfree]
    exact ⟨rfl, refl _⟩
  | cons id free =>
    have hleft : a.alloc roots car cdr = ⟨some id, a.fill id free car cdr, none⟩ := by
      simp [Arena.alloc, hfree]
    have hright : a'.alloc roots car cdr = ⟨some id, a'.fill id free car cdr, none⟩ := by
      simp [Arena.alloc, h.free, hfree]
    rw [hleft, hright]
    exact ⟨rfl, h.fill hfree⟩

end Arena.Agrees

/-- What else is asked of a world. -/
structure Mode where
  /-- The machines differ at most in what free cells hold, and a value corresponds to itself. -/
  exact : Prop
  /-- Poison corresponds to nothing. -/
  clean : Prop
  /-- The root stacks correspond, and the right finds room wherever the left does. -/
  ample : Prop
  ample_of_exact : exact → ample

namespace Mode

/-- Machines that correspond. -/
def loose : Mode := ⟨False, False, True, nofun⟩

/-- Machines that correspond, without poison. -/
def proper : Mode := ⟨False, True, True, nofun⟩

/-- Machines that differ at most in what free cells hold, without poison. -/
def strict : Mode := ⟨True, True, True, fun _ => trivial⟩

/-- Machines that need not pin the same values nor have the same room, without poison. -/
def apart : Mode := ⟨False, True, False, nofun⟩

end Mode

/-- A renaming between two machines. -/
structure World where
  ren : Renaming
  left : Machine
  right : Machine

namespace World

/-- Values that correspond. -/
abbrev Rel (w : World) : Value → Value → Prop := w.ren.Rel

/-- Values that correspond and are reachable from the root stacks, so that no work ends them. -/
def Held (w : World) (v v' : Value) : Prop := w.Rel v v' ∧ w.left.Holds v ∧ w.right.Holds v'

/-- A world in order. -/
structure Ok (M : Mode) (w : World) : Prop where
  left : w.left.Coherent
  right : w.right.Coherent
  lawful : w.ren.Lawful
  cells : w.ren.Between w.left.arena w.right.arena
  roots : M.ample → List.Forall₂ w.ren.Rooted w.left.roots w.right.roots
  names : ∀ i i', w.ren.atom i i' → w.left.lexicon.name i = w.right.lexicon.name i'
  threshold : w.right.log.threshold = w.left.log.threshold
  capacity : M.ample → w.left.arena.capacity ≤ w.right.arena.capacity
  agrees : M.exact → w.left.arena.Agrees w.right.arena
  eq_of_rel : M.exact → ∀ v v', w.Rel v v' → v = v'
  clean : M.clean → ∀ i i', w.ren.atom i i' → Value.atom i ≠ .poison

/-- What work on both machines leaves as it was: the pinned cells, and the names of cells that are
pinned and of atoms. -/
structure Next (w w₂ : World) : Prop where
  left : w.left.Keeps w₂.left
  right : w.right.Keeps w₂.right
  cell : ∀ x x', w.left.Pinned x → w.right.Pinned x' → w.ren.cell x x' → w₂.ren.cell x x'
  atom : ∀ i i', w.ren.atom i i' → w₂.ren.atom i i'

/-- The world with one more value pinned on each side. -/
def pin (w : World) (v v' : Value) : World := ⟨w.ren, w.left.pin v, w.right.pin v'⟩

/-- The world with the innermost pinned values taken off. -/
def unpin (w : World) : World := ⟨w.ren, w.left.unpin, w.right.unpin⟩

variable {M : Mode} {w w₂ w₃ : World} {v v' : Value}

theorem pin_injective (h : w₂.pin v v' = w.pin v v') : w₂ = w := congrArg unpin h

theorem Ok.not_dangling_left (h : w.Ok M) (hv : w.Rel v v') : ¬ w.left.arena.Dangling v :=
  h.cells.not_dangling hv

theorem Ok.not_dangling_right (h : w.Ok M) (hv : w.Rel v v') : ¬ w.right.arena.Dangling v' :=
  h.cells.flip.not_dangling hv.flip

theorem Ok.pin (h : w.Ok M) (hv : w.Rel v v') : (w.pin v v').Ok M :=
  { h with
    left := h.left.pin (h.not_dangling_left hv)
    right := h.right.pin (h.not_dangling_right hv)
    roots := fun hM => .cons (.inl hv) (h.roots hM) }

theorem Ok.unpin (h : w.Ok M) : w.unpin.Ok M :=
  { h with
    left := h.left.unpin
    right := h.right.unpin
    roots := fun hM => by
      show List.Forall₂ w.ren.Rooted w.left.roots.tail w.right.roots.tail
      rw [← List.drop_one, ← List.drop_one]
      exact List.forall₂_drop 1 (h.roots hM) }

/-- Where the root stacks correspond, what is held on the left is held on the right. -/
theorem Ok.held (h : w.Ok M) (hM : M.ample) (hv : w.Rel v v') (hholds : w.left.Holds v) :
    w.Held v v' := by
  refine ⟨hv, hholds, ?_⟩
  rintro x' rfl
  obtain ⟨x, rfl, hx⟩ := hv.flip.pair_left
  exact h.cells.reaches_right (h.roots hM) hx (hholds x rfl)

theorem Next.refl (h : w.Ok M) : w.Next w :=
  ⟨.refl h.left, .refl h.right, fun _ _ _ _ hx => hx, fun _ _ hi => hi⟩

theorem Next.trans (h : w.Next w₂) (h' : w₂.Next w₃) : w.Next w₃ where
  left := h.left.trans h'.left
  right := h.right.trans h'.right
  cell x x' hp hp' hx := h'.cell x x' (h.left.pinned_iff.mpr hp) (h.right.pinned_iff.mpr hp')
    (h.cell x x' hp hp' hx)
  atom i i' hi := h'.atom i i' (h.atom i i' hi)

/-- Work inside a pin seen from outside. -/
theorem Next.unpin (h : (w.pin v v').Next w₂) : w.Next w₂.unpin where
  left := h.left.unpin
  right := h.right.unpin
  cell x x' hp hp' hx := h.cell x x' hp.pin hp'.pin hx
  atom := h.atom

/-- Held values stay held. -/
theorem Held.next (hv : w.Held v v') (h : w.Next w₂) : w₂.Held v v' := by
  obtain ⟨hrel, hleft, hright⟩ := hv
  refine ⟨?_, h.left.holds hleft, h.right.holds hright⟩
  exact hrel.mono (fun x x' hx hx' => h.cell x x' (hleft x hx) (hright x' hx')) h.atom

theorem Held.pin {u u' : Value} (hv : w.Held v v') : (w.pin u u').Held v v' :=
  ⟨hv.1, hv.2.1.pin, hv.2.2.pin⟩

/-- A pinned value is held. -/
theorem held_pin (hv : w.Rel v v') : (w.pin v v').Held v v' :=
  ⟨hv, Machine.holds_pin_self, Machine.holds_pin_self⟩

/-! ### Allocation -/

section Alloc

variable {x x' y y' : Value} {id : CellId}

/-- The renaming after an allocation: the names of what the new pairs and the roots reach on both sides,
and those of the new cells. -/
def allocRen (w : World) (x x' y y' : Value) (id id' : CellId) : Renaming where
  cell z z' := (w.ren.cell z z' ∧ w.left.arena.graph.Reaches (x :: y :: w.left.roots) z ∧
    w.right.arena.graph.Reaches (x' :: y' :: w.right.roots) z') ∨ z = id ∧ z' = id'
  atom := w.ren.atom

/-- The world after an allocation on both sides. -/
def allocated (w : World) (x x' y y' : Value) (id id' : CellId) : World :=
  ⟨w.allocRen x x' y y' id id', w.left.allocated x y, w.right.allocated x' y'⟩

variable (h : w.Ok M) (hx : w.Rel x x') (hy : w.Rel y y')
include h hx hy

theorem Ok.forall₂_operands (hM : M.ample) :
    List.Forall₂ w.ren.Rooted (x :: y :: w.left.roots) (x' :: y' :: w.right.roots) :=
  .cons (.inl hx) (.cons (.inl hy) (h.roots hM))

theorem Ok.left_alloc : w.left.arena.Kept (x :: y :: w.left.roots) (w.left.allocated x y).arena ∧
    ∀ id, (w.left.arena.alloc w.left.roots x y).cell? = some id →
      w.left.arena.Placed (x :: y :: w.left.roots) (w.left.allocated x y).arena id x y :=
  Arena.alloc_spec h.left.arena
    (h.left.not_dangling_operands (h.not_dangling_left hx) (h.not_dangling_left hy))

theorem Ok.right_alloc :
    w.right.arena.Kept (x' :: y' :: w.right.roots) (w.right.allocated x' y').arena ∧
      ∀ id, (w.right.arena.alloc w.right.roots x' y').cell? = some id →
        w.right.arena.Placed (x' :: y' :: w.right.roots) (w.right.allocated x' y').arena id x' y' :=
  Arena.alloc_spec h.right.arena
    (h.right.not_dangling_operands (h.not_dangling_right hx) (h.not_dangling_right hy))

/-- In an ample world, where the left has room for a pair, the right has too. -/
theorem Ok.room_right (hM : M.ample) (hid : (w.left.arena.alloc w.left.roots x y).cell? = some id) :
    ∃ id', (w.right.arena.alloc w.right.roots x' y').cell? = some id' := by
  rw [← Option.isSome_iff_exists, ← Option.ne_none_iff_isSome]
  intro hnone
  have hplaced := (h.left_alloc hx hy).2 id hid
  have hbelow : ∀ z, w.left.arena.graph.Reaches (x :: y :: w.left.roots) z →
      z.toNat < w.left.arena.capacity.toNat := by
    intro z hz
    have hused := (h.left.arena.live_of_reaches (h.left.not_dangling_operands
      (h.not_dangling_left hx) (h.not_dangling_left hy)) hz).1
    have := h.left.arena.used_le
    omega
  have hlt : w.right.arena.capacity.toNat < w.left.arena.capacity.toNat :=
    h.cells.card_lt (h.forall₂_operands hx hy hM) hbelow hplaced.lt_capacity hplaced.fresh
      w.right.arena.capacity.toNat_lt
      fun k hk => Arena.reaches_of_alloc_eq_none h.right.arena hnone hk
  have := UInt32.le_iff_toNat_le.mp (h.capacity hM)
  omega

omit h hx hy in
/-- Values that correspond go on doing so if the new pairs or the roots reach them on both sides. -/
theorem rel_allocRen {id' : CellId} (hv : w.Rel v v')
    (hr : ∀ z, v = .pair z → w.left.arena.graph.Reaches (x :: y :: w.left.roots) z)
    (hr' : ∀ z, v' = .pair z → w.right.arena.graph.Reaches (x' :: y' :: w.right.roots) z) :
    (w.allocRen x x' y y' id id').Rel v v' :=
  hv.mono (fun z z' hz hz' hcell => .inl ⟨hcell, hr z hz, hr' z' hz'⟩) fun _ _ hi => hi

variable {id' : CellId} (hid : (w.left.arena.alloc w.left.roots x y).cell? = some id)
  (hid' : (w.right.arena.alloc w.right.roots x' y').cell? = some id')
include hid hid'

theorem Ok.between_allocated : (w.allocRen x x' y y' id id').Between
    (w.left.allocated x y).arena (w.right.allocated x' y').arena := by
  obtain ⟨hkept, hplaced⟩ := h.left_alloc hx hy
  obtain ⟨hkept', hplaced'⟩ := h.right_alloc hx hy
  have hplaced := hplaced id hid
  have hplaced' := hplaced' id' hid'
  have hne : ∀ {z}, w.left.arena.graph.Reaches (x :: y :: w.left.roots) z → z ≠ id :=
    fun hr heq => hplaced.fresh (heq ▸ hr)
  have hne' : ∀ {z'}, w.right.arena.graph.Reaches (x' :: y' :: w.right.roots) z' → z' ≠ id' :=
    fun hr heq => hplaced'.fresh (heq ▸ hr)
  refine ⟨?_, ?_, ?_, ?_, ?_⟩
  · rintro z z' u u' (⟨hz, hzr, hzr'⟩ | ⟨rfl, rfl⟩) (⟨hu, hur, hur'⟩ | ⟨rfl, rfl⟩)
    · exact h.cells.cell_inj hz hu
    · exact iff_of_false (hne hzr) (hne' hzr')
    · exact iff_of_false (hne hur).symm (hne' hur').symm
    · exact iff_of_true rfl rfl
  · rintro z z' (⟨_, hzr, -⟩ | ⟨rfl, rfl⟩)
    · exact hkept.live z hzr
    · exact hplaced.live
  · rintro z z' (⟨_, -, hzr'⟩ | ⟨rfl, rfl⟩)
    · exact hkept'.live z' hzr'
    · exact hplaced'.live
  · rintro z z' (⟨hz, hzr, hzr'⟩ | ⟨rfl, rfl⟩)
    · rw [hkept.graph z hzr, hkept'.graph z' hzr']
      exact rel_allocRen (h.cells.car hz) (fun u hu => hzr.car hu) fun u hu => hzr'.car hu
    · rw [hplaced.graph, hplaced'.graph]
      exact rel_allocRen hx (fun u hu => .root (hu ▸ List.mem_cons_self))
        fun u hu => .root (hu ▸ List.mem_cons_self)
  · rintro z z' (⟨hz, hzr, hzr'⟩ | ⟨rfl, rfl⟩)
    · rw [hkept.graph z hzr, hkept'.graph z' hzr']
      exact rel_allocRen (h.cells.cdr hz) (fun u hu => hzr.cdr hu) fun u hu => hzr'.cdr hu
    · rw [hplaced.graph, hplaced'.graph]
      exact rel_allocRen hy
        (fun u hu => .root (hu ▸ List.mem_cons_of_mem _ List.mem_cons_self))
        fun u hu => .root (hu ▸ List.mem_cons_of_mem _ List.mem_cons_self)

/-- In an exact world both sides take the same cell. -/
theorem Ok.exactly_allocated (he : M.exact) : id = id' ∧
    (w.left.allocated x y).arena.Agrees (w.right.allocated x' y').arena := by
  have heq := h.eq_of_rel he
  have hroots : w.right.roots = w.left.roots := by
    have := (h.roots (M.ample_of_exact he)).imp fun v v' hv => hv.elim (heq v v') fun hv => hv.1.trans hv.2.symm
    rw [List.forall₂_eq_eq_eq] at this
    exact this.symm
  obtain ⟨hcell, hagrees⟩ : (w.right.arena.alloc w.left.roots x y).cell? =
      (w.left.arena.alloc w.left.roots x y).cell? ∧ Arena.Agrees _ _ :=
    (h.agrees he).alloc h.left.arena
  rw [← heq x x' hx, ← heq y y' hy, hroots] at hid'
  rw [hcell, hid] at hid'
  refine ⟨Option.some.inj hid', ?_⟩
  show Arena.Agrees (w.left.arena.alloc w.left.roots x y).arena
    (w.right.arena.alloc w.right.roots x' y').arena
  rw [← heq x x' hx, ← heq y y' hy, hroots]
  exact hagrees

/-- An allocation on both sides leads to a world in order. -/
theorem Ok.allocated : (w.allocated x x' y y' id id').Ok M where
  left := (Machine.keeps_allocated h.left (h.not_dangling_left hx)
    (h.not_dangling_left hy)).coherent
  right := (Machine.keeps_allocated h.right (h.not_dangling_right hx)
    (h.not_dangling_right hy)).coherent
  lawful := ⟨h.lawful.atom_inj, h.lawful.fixed, h.lawful.poison⟩
  cells := h.between_allocated hx hy hid hid'
  roots hM := by
    have hroots := h.roots hM
    have hreach : ∀ v ∈ w.left.roots, ∀ z, v = .pair z →
        w.left.arena.graph.Reaches (x :: y :: w.left.roots) z :=
      fun v hv z hz => .root (by simp [← hz, hv])
    have hreach' : ∀ v ∈ w.right.roots, ∀ z, v = .pair z →
        w.right.arena.graph.Reaches (x' :: y' :: w.right.roots) z :=
      fun v hv z hz => .root (by simp [← hz, hv])
    show List.Forall₂ (w.allocRen x x' y y' id id').Rooted w.left.roots w.right.roots
    rw [List.forall₂_iff_get] at hroots ⊢
    exact ⟨hroots.1, fun i hi hi' => (hroots.2 i hi hi').imp_left fun hv =>
      rel_allocRen hv (hreach _ (List.get_mem _ _)) (hreach' _ (List.get_mem _ _))⟩
  names := h.names
  threshold := (Log.threshold_foldl_add _ _).trans
    (h.threshold.trans (Log.threshold_foldl_add _ _).symm)
  capacity hM := by
    show (w.left.arena.alloc w.left.roots x y).arena.capacity ≤
      (w.right.arena.alloc w.right.roots x' y').arena.capacity
    rw [show (w.left.arena.alloc w.left.roots x y).arena.capacity = _ from
        (h.left_alloc hx hy).1.capacity,
      show (w.right.arena.alloc w.right.roots x' y').arena.capacity = _ from
        (h.right_alloc hx hy).1.capacity]
    exact h.capacity hM
  agrees he := (h.exactly_allocated hx hy hid hid' he).2
  eq_of_rel he v v' hv := by
    cases hv with
    | nil | builtin _ => rfl
    | atom hi => exact h.eq_of_rel he _ _ (.atom hi)
    | pair hz =>
      rcases hz with ⟨hz, -, -⟩ | ⟨rfl, rfl⟩
      · exact h.eq_of_rel he _ _ (.pair hz)
      · rw [(h.exactly_allocated hx hy hid hid' he).1]
  clean := h.clean

omit hid hid' in
theorem Ok.next_allocated (id id' : CellId) : w.Next (w.allocated x x' y y' id id') where
  left := Machine.keeps_allocated h.left (h.not_dangling_left hx) (h.not_dangling_left hy)
  right := Machine.keeps_allocated h.right (h.not_dangling_right hx) (h.not_dangling_right hy)
  cell _ _ hp hp' hz := by
    refine .inl ⟨hz, Graph.Reaches.of_subset hp ?_, Graph.Reaches.of_subset hp' ?_⟩
    · exact fun _ hv => List.mem_cons_of_mem _ (List.mem_cons_of_mem _ hv)
    · exact fun _ hv => List.mem_cons_of_mem _ (List.mem_cons_of_mem _ hv)
  atom _ _ hi := hi

end Alloc

end World

end ArenaLisp
