import ArenaLisp.Proofs.Keeps

/-!
# When an allocation fails

An allocation fails exactly if the new pair and the roots reach every slot that the arena may have,
and a failure has changed nothing but the count of the collections.  Success takes a slot that they did
not reach, and changes nothing else that they did; where no collection ran, it changes nothing else at all
(`run_cons_atomic`).
-/

namespace ArenaLisp

namespace Arena

variable {a : Arena} {roots : List Value} {car cdr : Value} {al : Allocation} {id x : CellId}

/-- A collection that frees nothing changes no slot. -/
theorem graph_collect_of_free_eq_nil (h : a.Coherent) (hfree : (a.collect roots).free = []) :
    (a.collect roots).graph = a.graph := by
  funext x
  by_cases hx : a.graph.Reaches roots x
  · by_cases hlt : x.toNat < a.used
    · exact graph_collect_of_reaches hx hlt
    · have hlt' : ¬ x.toNat < (a.collect roots).used := by rwa [used_collect]
      unfold graph graphOf
      rw [Array.getElem?_eq_none (Nat.le_of_not_lt hlt), Array.getElem?_eq_none (Nat.le_of_not_lt hlt')]
  · have hlt : ¬ x.toNat < a.used := fun hlt => by
      have hmem : x ∈ (a.collect roots).free := (mem_free_collect h.used_le_two_pow).mpr ⟨hlt, hx⟩
      exact List.not_mem_nil (hfree ▸ hmem)
    rw [graph_collect_of_not_reaches hx]
    unfold graph graphOf
    rw [Array.getElem?_eq_none (Nat.le_of_not_lt hlt)]

/-- What an allocation has done that put a pair into the cell `id`. -/
structure Allotted (a : Arena) (roots : List Value) (car cdr : Value) (id : CellId) (a₂ : Arena) :
    Prop where
  fresh : ¬ a.graph.Reaches (car :: cdr :: roots) id
  live : a₂.Live id
  slots : a₂.graph id = (car, cdr)
  /-- What the new pair and the roots reach stays as it was. -/
  reached : ∀ x, a.graph.Reaches (car :: cdr :: roots) x → a₂.Live x ∧ a₂.graph x = a.graph x
  /-- Without a collection, every other cell stays as it was, marks included. -/
  others : a₂.tally.collections = a.tally.collections → ∀ x ≠ id,
    (a.Live x → a₂.Live x) ∧ a₂.cells[x.toNat]? = a.cells[x.toNat]?

/-- What an allocation has done that found no room. -/
structure Exhausted (a a₂ : Arena) : Prop where
  used : a₂.used = a.used
  slots : a₂.graph = a.graph
  free : a₂.free = []
  tally : a₂.tally = ⟨a.tally.collections + 1, a.tally.reclaimed⟩

namespace Route

/-- The cells besides the new one, if no collection ran. -/
theorem others (hroute : a.Route roots car cdr al) (h : a.Coherent) (hid : al.cell? = some id)
    (hsame : al.arena.tally.collections = a.tally.collections) (hx : x ≠ id) :
    (a.Live x → al.arena.Live x) ∧ al.arena.cells[x.toNat]? = a.cells[x.toNat]? := by
  cases hroute with
  | @reuse first free hfree =>
    obtain rfl : first = id := Option.some.inj hid
    refine ⟨fun hlive => (live_fill h hfree).mpr (.inl hlive), ?_⟩
    exact Array.getElem?_setIfInBounds_ne fun heq => hx (CellId.toNat_injective heq.symm)
  | grow hfree hlt =>
    obtain rfl : CellId.ofNat a.used = id := Option.some.inj hid
    refine ⟨fun hlive => (live_grow h).mpr (.inl hlive), ?_⟩
    have hne : x.toNat ≠ a.used := fun heq => hx (by rw [← heq, CellId.ofNat_toNat])
    rw [getElem?_grow, if_neg hne]
  | collect =>
    have hcollected : a.tally.collections + 1 = a.tally.collections := hsame
    omega
  | fail => cases hid

theorem exhausted (hroute : a.Route roots car cdr al) (h : a.Coherent) (hnone : al.cell? = none) :
    a.Exhausted al.arena := by
  cases hroute with
  | reuse | grow | collect => cases hnone
  | fail hfree hfull hfreed =>
    refine ⟨used_collect, graph_collect_of_free_eq_nil h hfreed, hfreed, ?_⟩
    have hlength : (a.collect (car :: cdr :: roots)).tally.reclaimed =
        a.tally.reclaimed + (a.collect (car :: cdr :: roots)).free.length := rfl
    rw [hfreed] at hlength
    show Tally.mk _ (a.collect (car :: cdr :: roots)).tally.reclaimed = _
    rw [hlength]
    rfl

end Route

end Arena

/-- An allocation of values that do not dangle finds no room exactly if they and the roots reach every slot
within the capacity.  Whether it finds room or not, the root stack and the lexicon stay as they were. -/
theorem run_cons_atomic (m : Machine) (car cdr : Value) (h : m.Coherent)
    (hcar : ¬ m.arena.Dangling car) (hcdr : ¬ m.arena.Dangling cdr) :
    ((∃ m₂, (Action.cons car cdr).run m = .error (.failure .outOfMemory) m₂) ↔
      ∀ n < m.arena.capacity.toNat, m.arena.graph.Reaches (car :: cdr :: m.roots) (.ofNat n)) ∧
    match (Action.cons car cdr).run m with
    | .ok v m₂ => m₂.roots = m.roots ∧ m₂.lexicon = m.lexicon ∧
        ∃ id, v = .pair id ∧ m.arena.Allotted m.roots car cdr id m₂.arena
    | .error e m₂ => m₂.roots = m.roots ∧ m₂.lexicon = m.lexicon ∧
        e = .failure .outOfMemory ∧ m.arena.Exhausted m₂.arena := by
  have hroute := m.arena.route_alloc m.roots car cdr
  obtain ⟨hkept, hplaced⟩ := Arena.alloc_spec h.arena (h.not_dangling_operands hcar hcdr)
  rw [Action.run_cons]
  cases hid : (m.arena.alloc m.roots car cdr).cell? with
  | none =>
    refine ⟨⟨fun _ n hn => Arena.reaches_of_alloc_eq_none h.arena hid hn, fun _ => ⟨_, rfl⟩⟩, ?_⟩
    exact ⟨rfl, rfl, rfl, hroute.exhausted h.arena hid⟩
  | some id =>
    have hplaced := hplaced id hid
    refine ⟨⟨?_, fun hall => ?_⟩, rfl, rfl, id, rfl, ?_⟩
    · rintro ⟨_, hrun⟩
      cases hrun
    · -- the slot that was taken is one that is not reached
      have hreached := hall id.toNat hplaced.lt_capacity
      rw [CellId.ofNat_toNat] at hreached
      exact absurd hreached hplaced.fresh
    · exact ⟨hplaced.fresh, hplaced.live, hplaced.graph, fun x hx => ⟨hkept.live x hx, hkept.graph x hx⟩,
        fun hsame x hx => hroute.others h.arena hid hsame hx⟩

/-- A machine that has handed out both of its cells, of which nothing is pinned. -/
def fullMachine : Machine :=
  { Machine.new 2 none with
    arena := ⟨#[⟨.nil, .nil, false⟩, ⟨.pair ⟨0⟩, .atom .t, false⟩], [], 2, ⟨0, 0⟩⟩ }

/-- A pair that holds both cells finds no room, and one that holds the first takes the second. -/
theorem run_cons_atomic_fullMachine :
    (∃ m₂, (Action.cons (.pair ⟨1⟩) .nil).run fullMachine = .error (.failure .outOfMemory) m₂ ∧
      m₂.arena.graph = fullMachine.arena.graph ∧ m₂.arena.tally = ⟨1, 0⟩) ∧
    ∃ m₂, (Action.cons .nil (.pair ⟨0⟩)).run fullMachine = .ok (.pair ⟨1⟩) m₂ ∧
      m₂.arena.graph ⟨0⟩ = (.nil, .nil) ∧ m₂.arena.graph ⟨1⟩ = (.nil, .pair ⟨0⟩) := by
  constructor
  · obtain ⟨hfails, hafter⟩ :=
      run_cons_atomic fullMachine (.pair ⟨1⟩) .nil (by decide) (by decide) (by decide)
    have hreached : fullMachine.arena.graph.Reaches [.pair ⟨1⟩, .nil] ⟨1⟩ := .root List.mem_cons_self
    obtain ⟨m₂, hrun⟩ := hfails.mpr fun n hn => by
      have hn : n < 2 := hn
      obtain rfl | rfl : n = 0 ∨ n = 1 := by omega
      · exact hreached.car rfl
      · exact hreached
    rw [hrun] at hafter
    obtain ⟨-, -, -, hexhausted⟩ := hafter
    exact ⟨m₂, hrun, hexhausted.slots, hexhausted.tally⟩
  · obtain ⟨-, hafter⟩ :=
      run_cons_atomic fullMachine .nil (.pair ⟨0⟩) (by decide) (by decide) (by decide)
    have hid : (fullMachine.arena.alloc fullMachine.roots .nil (.pair ⟨0⟩)).cell? = some ⟨1⟩ := by
      decide +kernel
    rw [Action.run_cons, hid] at hafter ⊢
    obtain ⟨-, -, id, hv, hallotted⟩ := hafter
    obtain rfl := Value.pair.inj hv
    have hreached : fullMachine.arena.graph.Reaches [.nil, .pair ⟨0⟩] ⟨0⟩ := .root (by simp)
    exact ⟨_, rfl, (hallotted.reached _ hreached).2, hallotted.slots⟩

end ArenaLisp
