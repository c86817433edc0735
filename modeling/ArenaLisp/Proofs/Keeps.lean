import ArenaLisp.Machine
import ArenaLisp.Proofs.Alloc

/-!
# What a machine keeps

The root stack of a machine pins the cells that it reaches.  `m.Keeps m₂` says that work which began
in `m` and has led to `m₂` left the root stack and all pinned cells as they were.  An allocation of
values that are not dangling does (`keeps_allocated`), and so does work inside a pin
(`Keeps.unpin`).
-/

namespace ArenaLisp

theorem Log.threshold_add (log : Log) (r : Record) : (log.add r).threshold = log.threshold := by
  unfold add
  split <;> rfl

theorem Log.threshold_foldl_add (log : Log) (rs : List Record) :
    (rs.foldl add log).threshold = log.threshold := by
  induction rs generalizing log with
  | nil => rfl
  | cons r rs ih => rw [List.foldl_cons, ih, threshold_add]

namespace Machine

/-- Whether the root stack reaches a cell. -/
def Pinned (m : Machine) (id : CellId) : Prop := m.arena.graph.Reaches m.roots id

/-- Whether a value is an immediate or reachable from the root stack. -/
def Holds (m : Machine) (v : Value) : Prop := ∀ id, v = .pair id → m.Pinned id

/-- A machine without a dangling value: its arena is coherent and no root dangles. -/
structure Coherent (m : Machine) : Prop where
  arena : m.arena.Coherent
  roots : ∀ v ∈ m.roots, ¬ m.arena.Dangling v

/-- A well-formed machine: a coherent one in which no cell in use holds poison. -/
structure WellFormed (m : Machine) : Prop extends Coherent m where
  no_poison : ∀ id, m.arena.Live id →
    (m.arena.graph id).1 ≠ .poison ∧ (m.arena.graph id).2 ≠ .poison

instance (m : Machine) : Decidable m.Coherent :=
  decidable_of_iff (m.arena.Coherent ∧ ∀ v ∈ m.roots, ¬ m.arena.Dangling v)
    ⟨fun h => ⟨h.1, h.2⟩, fun h => ⟨h.arena, h.roots⟩⟩

instance (m : Machine) : Decidable m.WellFormed :=
  decidable_of_iff
    (m.Coherent ∧ ∀ i < m.arena.used, m.arena.Live (.ofNat i) →
      (m.arena.graph (.ofNat i)).1 ≠ .poison ∧ (m.arena.graph (.ofNat i)).2 ≠ .poison)
    ⟨fun h => ⟨h.1, Arena.forall_live_iff.mpr h.2⟩,
      fun h => ⟨h.toCoherent, Arena.forall_live_iff.mp h.no_poison⟩⟩

/-- What work between two states of a machine has left as it was. -/
structure Keeps (m m₂ : Machine) : Prop where
  coherent : m₂.Coherent
  roots : m₂.roots = m.roots
  capacity : m₂.arena.capacity = m.arena.capacity
  threshold : m₂.log.threshold = m.log.threshold
  graph : ∀ id, m.Pinned id → m₂.arena.graph id = m.arena.graph id

variable {m m₂ m₃ : Machine} {v w car cdr : Value} {id x y : CellId}

theorem coherent_new (capacity : UInt32) (threshold : Option Level) :
    (new capacity threshold).Coherent := ⟨Arena.coherent_empty capacity, nofun⟩

theorem Pinned.child (h : m.Pinned x) (hxy : m.arena.graph.Child x y) : m.Pinned y :=
  Graph.Reaches.child h hxy

theorem Coherent.live (h : m.Coherent) (hx : m.Pinned x) : m.arena.Live x :=
  h.arena.live_of_reaches h.roots hx

theorem Coherent.not_dangling (h : m.Coherent) (hv : m.Holds v) : ¬ m.arena.Dangling v :=
  Arena.not_dangling_iff.mpr fun id hid => h.live (hv id hid)

theorem Coherent.pin (h : m.Coherent) (hv : ¬ m.arena.Dangling v) : (m.pin v).Coherent where
  arena := h.arena
  roots w hw := by
    rcases List.mem_cons.mp hw with rfl | hw
    · exact hv
    · exact h.roots w hw

theorem Coherent.unpin (h : m.Coherent) : m.unpin.Coherent where
  arena := h.arena
  roots w hw := h.roots w (List.mem_of_mem_tail hw)

theorem Pinned.pin (h : m.Pinned x) : (m.pin v).Pinned x :=
  Graph.Reaches.of_subset h (List.subset_cons_self v m.roots)

theorem Holds.pin (h : m.Holds w) : (m.pin v).Holds w := fun id hid => (h id hid).pin

/-- What a value that is held leads to is pinned. -/
theorem Holds.pinned (h : m.Holds v) (hid : m.arena.graph.Reaches [v] id) : m.Pinned id := hid.through h

theorem holds_pin_self : (m.pin v).Holds v := fun _ hid => .root (by simp [Machine.pin, hid])

theorem holds_car (h : m.Holds (.pair id)) : m.Holds (m.arena.graph id).1 :=
  fun _ hy => (h id rfl).child (.inl hy)

theorem holds_cdr (h : m.Holds (.pair id)) : m.Holds (m.arena.graph id).2 :=
  fun _ hy => (h id rfl).child (.inr hy)

namespace Keeps

theorem refl (h : m.Coherent) : m.Keeps m := ⟨h, rfl, rfl, rfl, fun _ _ => rfl⟩

/-- The root stack goes on reaching the same cells. -/
theorem pinned_iff (h : m.Keeps m₂) : m₂.Pinned x ↔ m.Pinned x := by
  rw [Pinned, Pinned, h.roots]
  exact Graph.reaches_congr h.graph

theorem holds (h : m.Keeps m₂) (hv : m.Holds v) : m₂.Holds v :=
  fun id hid => h.pinned_iff.mpr (hv id hid)

/-- All that a value reaches that is held stays as it was. -/
theorem agreeOn (h : m.Keeps m₂) (hv : m.Holds v) : m.arena.AgreeOn m₂.arena v :=
  fun id hid => h.graph id (hv.pinned hid)

theorem trans (h : m.Keeps m₂) (h' : m₂.Keeps m₃) : m.Keeps m₃ where
  coherent := h'.coherent
  roots := h'.roots.trans h.roots
  capacity := h'.capacity.trans h.capacity
  threshold := h'.threshold.trans h.threshold
  graph id hid := (h'.graph id (h.pinned_iff.mpr hid)).trans (h.graph id hid)

/-- More records change nothing that is kept. -/
theorem with_log {log : Log} (h : m.Keeps m₂) (hlog : log.threshold = m₂.log.threshold) :
    m.Keeps { m₂ with log } :=
  { h with
    coherent := ⟨h.coherent.arena, h.coherent.roots⟩
    threshold := hlog.trans h.threshold }

/-- Work that keeps what is pinned together with one more value keeps what is pinned. -/
theorem unpin (h : (m.pin v).Keeps m₂) : m.Keeps m₂.unpin where
  coherent := h.coherent.unpin
  roots := by
    show m₂.roots.tail = m.roots
    rw [h.roots]
    rfl
  capacity := h.capacity
  threshold := h.threshold
  graph id hid := h.graph id hid.pin

/-- The pin is still the innermost root. -/
theorem pin_unpin (h : (m.pin v).Keeps m₂) : m₂.unpin.pin v = m₂ := by
  have hroots : m₂.roots = v :: m.roots := h.roots
  show { m₂ with roots := v :: m₂.roots.tail } = m₂
  rw [hroots, List.tail_cons, ← hroots]

end Keeps

theorem keeps_record (h : m.Coherent) (r : Record) : m.Keeps (m.record r) where
  coherent := ⟨h.arena, h.roots⟩
  roots := rfl
  capacity := rfl
  threshold := m.log.threshold_add r
  graph _ _ := rfl

/-- The operands of an allocation together with the roots do not dangle if they do not apart. -/
theorem Coherent.not_dangling_operands (h : m.Coherent) (hcar : ¬ m.arena.Dangling car)
    (hcdr : ¬ m.arena.Dangling cdr) : ∀ v ∈ car :: cdr :: m.roots, ¬ m.arena.Dangling v := by
  intro v hv
  rcases List.mem_cons.mp hv with rfl | hv
  · exact hcar
  · rcases List.mem_cons.mp hv with rfl | hv
    · exact hcdr
    · exact h.roots v hv

/-- An allocation keeps what is pinned, whether there was room or not. -/
theorem keeps_allocated (h : m.Coherent) (hcar : ¬ m.arena.Dangling car)
    (hcdr : ¬ m.arena.Dangling cdr) : m.Keeps (m.allocated car cdr) := by
  have hkept := (Arena.alloc_spec h.arena (h.not_dangling_operands hcar hcdr)).1
  have hreach : ∀ {x}, m.Pinned x → m.arena.graph.Reaches (car :: cdr :: m.roots) x :=
    fun hx => Graph.Reaches.of_subset hx fun _ hv =>
      List.mem_cons_of_mem _ (List.mem_cons_of_mem _ hv)
  refine ⟨⟨hkept.coherent, fun v hv => ?_⟩, rfl, hkept.capacity, ?_, fun id hid => ?_⟩
  · exact hkept.not_dangling v (List.mem_cons_of_mem _ (List.mem_cons_of_mem _ hv))
  · exact Log.threshold_foldl_add _ _
  · exact hkept.graph id (hreach hid)

end Machine

end ArenaLisp
