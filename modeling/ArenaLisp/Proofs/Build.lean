import ArenaLisp.Proofs.ReadInStep
import ArenaLisp.Proofs.Room
import ArenaLisp.Proofs.Spells

/-!
# What it takes to build an expression

`m.Built e n v` says that `v` spells the expression `e` in the machine `m`, where it and the root stack
reach `n` cells.  `Spends limit m act Q E` says that an arena of `limit` cells is enough for an action:
it gives a value as `Q` says or stops as `E` says, and where it finds no room the arena has fewer cells.
A pair takes one cell more than its slots (`Spends.cons`), whatever garbage lies about.
-/

namespace ArenaLisp

namespace Arena

variable {a : Arena} {v w : Value} {vs : List Value}

theorem not_dangling_of_isPair (h : v.isPair = false) : ¬ a.Dangling v := by
  rintro ⟨id, rfl, -⟩
  cases h

/-- An immediate reaches nothing. -/
theorem reachCount_cons_of_isPair (h : v.isPair = false) :
    a.reachCount (v :: vs) = a.reachCount vs := by
  cases v with
  | nil | atom _ | builtin _ => rfl
  | pair id => cases h

theorem Coherent.reachCount_swap (h : a.Coherent) (hvs : ∀ u ∈ v :: w :: vs, ¬ a.Dangling u) :
    a.reachCount (w :: v :: vs) = a.reachCount (v :: w :: vs) := by
  have hperm : (w :: v :: vs).Perm (v :: w :: vs) := .swap v w vs
  refine h.reachCount_congr h hvs (fun u hu => hvs u (hperm.mem_iff.mp hu)) fun x => ⟨?_, ?_⟩
  · exact fun hx => hx.of_subset hperm.subset
  · exact fun hx => hx.of_subset hperm.symm.subset

end Arena

namespace Machine

/-- A value that spells an expression; so many cells are reached from it and the root stack. -/
structure Built (m : Machine) (e : SExpr) (n : Nat) (v : Value) : Prop where
  not_dangling : ¬ m.arena.Dangling v
  spells : m.arena.Spells m.lexicon v e
  reachCount : m.arena.reachCount (v :: m.roots) = n

/-- Two values that spell two expressions; so many cells are reached from them and the root stack. -/
structure BuiltBoth (m : Machine) (e f : SExpr) (n : Nat) (v w : Value) : Prop where
  left_not_dangling : ¬ m.arena.Dangling v
  left_spells : m.arena.Spells m.lexicon v e
  right_not_dangling : ¬ m.arena.Dangling w
  right_spells : m.arena.Spells m.lexicon w f
  reachCount : m.arena.reachCount (v :: w :: m.roots) = n

variable {m m₂ : Machine} {e f : SExpr} {n k : Nat} {v w : Value} {s : String} {i : AtomId}

theorem Built.pinnedCount_pin (h : m.Built e n v) : (m.pin v).pinnedCount = n := h.reachCount

/-- What has been built fits into the arena. -/
theorem Built.le_capacity (h : m₂.Built e n v) (hkeeps : m.Keeps m₂) :
    n ≤ m.arena.capacity.toNat := by
  rw [← h.reachCount, ← hkeeps.capacity]
  exact Arena.reachCount_le_capacity hkeeps.coherent.arena

theorem built_nil (m : Machine) : m.Built .nil m.pinnedCount .nil :=
  ⟨Arena.not_dangling_of_isPair rfl, .nil, rfl⟩

/-- What a name is interned as takes no cell. -/
theorem built_intern (m : Machine) (s : String) :
    Built { m with lexicon := (m.lexicon.intern s).2 } (.ofName s) m.pinnedCount
      (m.lexicon.intern s).1 := by
  have himmediate : (m.lexicon.intern s).1.isPair = false := by
    rcases m.lexicon.intern_cases s with ⟨-, h⟩ | ⟨-, i, h⟩
    · rw [h]
      rfl
    · rw [h]
      rfl
  exact ⟨Arena.not_dangling_of_isPair himmediate, .intern _ _ s,
    Arena.reachCount_cons_of_isPair himmediate⟩

theorem Built.with_nil (h : m.Built e n v) : m.BuiltBoth e .nil n v .nil :=
  ⟨h.not_dangling, h.spells, Arena.not_dangling_of_isPair rfl, .nil, h.reachCount⟩

theorem Built.with_name (h : m.Built e n v) (hs : m.lexicon.lookup? s = some (.atom i)) :
    m.BuiltBoth (.name s) e n (.atom i) v :=
  ⟨Arena.not_dangling_of_isPair rfl, .name hs, h.not_dangling, h.spells, h.reachCount⟩

/-- What was pinned while a second value was built is there beside it. -/
theorem Built.with_pinned (hv : m.Built e n v) (hkeeps : (m.pin v).Keeps m₂)
    (hreads : (m.pin v).Reads m₂) (hw : m₂.Built f k w) : m₂.unpin.BuiltBoth e f k v w := by
  have hroots : m₂.roots = v :: m.roots := hkeeps.roots
  have hcells := hkeeps.agreeOn (holds_pin_self (v := v))
  have hdangling : ∀ u ∈ w :: v :: m.roots, ¬ m₂.arena.Dangling u := by
    intro u hu
    rcases List.mem_cons.mp hu with rfl | hu
    · exact hw.not_dangling
    · exact hkeeps.coherent.roots u (hroots ▸ hu)
  have hcount : m₂.arena.reachCount (v :: w :: m₂.roots.tail) = k := by
    rw [hroots, List.tail_cons, hkeeps.coherent.arena.reachCount_swap hdangling, ← hroots]
    exact hw.reachCount
  exact ⟨hdangling v (by simp), hv.spells.transfer hcells hreads, hw.not_dangling, hw.spells, hcount⟩

end Machine

/-- An action for which an arena of `limit` cells is enough. -/
def Spends {α : Type} (limit : Nat) (m : Machine) (act : Action α) (Q : Machine → α → Prop)
    (E : Stop → Prop) : Prop :=
  match act.run m with
  | .ok x m₂ => m.Keeps m₂ ∧ m.Reads m₂ ∧ Q m₂ x
  | .error e _ => E e ∨ e = .failure .outOfMemory ∧ m.arena.capacity.toNat < limit

namespace Spends

variable {α β : Type} {limit limit' n k : Nat} {m : Machine} {act : Action α}
  {Q : Machine → α → Prop} {Q' : Machine → β → Prop} {E : Stop → Prop} {v w : Value} {e f : SExpr}

theorem of_ok {x : α} {m₂ : Machine} (h : Spends limit m act Q E) (hrun : act.run m = .ok x m₂) :
    m.Keeps m₂ ∧ m.Reads m₂ ∧ Q m₂ x := by
  unfold Spends at h
  rwa [hrun] at h

theorem of_error {err : Stop} {m₂ : Machine} (h : Spends limit m act Q E)
    (hrun : act.run m = .error err m₂) :
    E err ∨ err = .failure .outOfMemory ∧ m.arena.capacity.toNat < limit := by
  unfold Spends at h
  rwa [hrun] at h

/-- Where there is room, an action that can stop for no other reason has a value. -/
theorem exists_ok (h : Spends limit m act Q fun _ => False) (hroom : limit ≤ m.arena.capacity.toNat) :
    ∃ x m₂, act.run m = .ok x m₂ ∧ m.Keeps m₂ ∧ m.Reads m₂ ∧ Q m₂ x := by
  cases hrun : act.run m with
  | ok x m₂ => exact ⟨x, m₂, rfl, h.of_ok hrun⟩
  | error err m₂ =>
    have hlt := ((h.of_error hrun).resolve_left id).2
    omega

/-- An action that can have no value stops. -/
theorem exists_error (h : Spends limit m act (fun _ _ => False) E) :
    ∃ err m₂, act.run m = .error err m₂ ∧
      (E err ∨ err = .failure .outOfMemory ∧ m.arena.capacity.toNat < limit) := by
  cases hrun : act.run m with
  | ok x m₂ => exact (h.of_ok hrun).2.2.elim
  | error err m₂ => exact ⟨err, m₂, rfl, h.of_error hrun⟩

protected theorem pure {x : α} (hm : m.Coherent) (h : Q m x) : Spends limit m (pure x) Q E :=
  ⟨.refl hm, .refl, h⟩

protected theorem throw {err : Stop} (h : E err) : Spends limit m (throw err : Action α) Q E := .inl h

theorem mono {Q₂ : Machine → α → Prop} (h : Spends limit m act Q E) (hlimit : limit ≤ limit')
    (hQ : ∀ m₂ x, m.Keeps m₂ → m.Reads m₂ → Q m₂ x → Q₂ m₂ x) : Spends limit' m act Q₂ E := by
  unfold Spends at h ⊢
  split
  · rename_i x m₂ hrun
    rw [hrun] at h
    obtain ⟨hkeeps, hreads, hx⟩ := h
    exact ⟨hkeeps, hreads, hQ m₂ x hkeeps hreads hx⟩
  · rename_i err m₂ hrun
    rw [hrun] at h
    exact h.imp_right fun h => ⟨h.1, by omega⟩

theorem mono_stop {E₂ : Stop → Prop} (h : Spends limit m act Q E) (hE : ∀ err, E err → E₂ err) :
    Spends limit m act Q E₂ := by
  unfold Spends at h ⊢
  split
  · rename_i x m₂ hrun
    rw [hrun] at h
    exact h
  · rename_i err m₂ hrun
    rw [hrun] at h
    exact h.imp_left (hE err)

theorem bind {act' : α → Action β} (h : Spends limit m act Q E) (hlimit : limit ≤ limit')
    (hrest : ∀ m₂ x, m.Keeps m₂ → m.Reads m₂ → Q m₂ x → Spends limit' m₂ (act' x) Q' E) :
    Spends limit' m (act >>= act') Q' E := by
  unfold Spends at h
  rw [Spends, Action.run_bind]
  cases hrun : act.run m with
  | ok x m₂ =>
    rw [hrun] at h
    obtain ⟨hkeeps, hreads, hx⟩ := h
    have hrest := hrest m₂ x hkeeps hreads hx
    unfold Spends at hrest
    rw [hkeeps.capacity] at hrest
    dsimp only
    cases hrun₂ : (act' x).run m₂ with
    | ok y m₃ =>
      rw [hrun₂] at hrest
      obtain ⟨hkeeps₂, hreads₂, hy⟩ := hrest
      exact ⟨hkeeps.trans hkeeps₂, hreads.trans hreads₂, hy⟩
    | error err m₃ =>
      rw [hrun₂] at hrest
      exact hrest
  | error err m₂ =>
    rw [hrun] at h
    exact h.imp_right fun h => ⟨h.1, by omega⟩

/-- What follows an action that gives no value is not begun. -/
theorem bind_stop {act' : α → Action β} (h : Spends limit m act (fun _ _ => False) E) :
    Spends limit m (act >>= act') Q' E :=
  h.bind (Nat.le_refl limit) fun _ _ _ _ hx => hx.elim

theorem pinned {Q₂ : Machine → α → Prop} (h : Spends limit (m.pin v) act Q E)
    (hQ : ∀ m₂ x, (m.pin v).Keeps m₂ → (m.pin v).Reads m₂ → Q m₂ x → Q₂ m₂.unpin x) :
    Spends limit m (Action.pinned v act) Q₂ E := by
  unfold Spends at h
  rw [Spends, Action.run_pinned]
  cases hrun : act.run (m.pin v) with
  | ok x m₂ =>
    rw [hrun] at h
    obtain ⟨hkeeps, hreads, hx⟩ := h
    exact ⟨hkeeps.unpin, hreads, hQ m₂ x hkeeps hreads hx⟩
  | error err m₂ =>
    rw [hrun] at h
    exact h

theorem intern (hm : m.Coherent) (s : String) :
    Spends limit m (Action.intern s) (fun m₂ v => m₂.Built (.ofName s) m.pinnedCount v) E :=
  ⟨⟨⟨hm.arena, hm.roots⟩, rfl, rfl, rfl, fun _ _ => rfl⟩, m.reads_intern s, m.built_intern s⟩

/-- A pair of what has been built. -/
theorem cons (hm : m.Coherent) (h : m.BuiltBoth e f n v w) (hlimit : n < limit) :
    Spends limit m (Action.cons v w) (fun m₂ u => m₂.Built (.pair e f) (n + 1) u) E := by
  have hvs := hm.not_dangling_operands h.left_not_dangling h.right_not_dangling
  obtain ⟨hkept, hplaced⟩ := Arena.alloc_spec hm.arena hvs
  rw [Spends, Action.run_cons]
  cases hid : (m.arena.alloc m.roots v w).cell? with
  | none =>
    have hfull := Arena.capacity_le_reachCount hm.arena hvs hid
    have hcount := h.reachCount
    exact .inr ⟨rfl, by omega⟩
  | some id =>
    have hplaced := hplaced id hid
    have hkeeps := Machine.keeps_allocated hm h.left_not_dangling h.right_not_dangling
    have hreads : m.Reads (m.allocated v w) := .refl
    have hcount : (m.allocated v w).arena.reachCount (.pair id :: m.roots) = n + 1 := by
      rw [← h.reachCount]
      exact Arena.reachCount_alloc hm.arena hvs hid
    refine ⟨hkeeps, hreads, Arena.not_dangling_pair.mpr hplaced.live, ?_, hcount⟩
    refine .pair hplaced.graph (h.left_spells.transfer (fun z hz => hkept.graph z ?_) hreads)
      (h.right_spells.transfer (fun z hz => hkept.graph z ?_) hreads)
    · exact hz.of_subset (by simp)
    · exact hz.of_subset (by simp)

/-- A quoted expression takes two cells more than the expression. -/
theorem quote (hm : m.Coherent) (hquote : m.lexicon.lookup? "quote" = some (.atom .quote))
    (hv : m.Built e n v) (hlimit : n + 2 ≤ limit) :
    Spends limit m (ReadAction.quote v) (fun m₂ u => m₂.Built e.quote (n + 2) u) E := by
  refine (cons hm hv.with_nil (by omega)).bind (Nat.le_refl limit) ?_
  intro m₂ operand hkeeps hreads hoperand
  exact cons hkeeps.coherent (hoperand.with_name (hreads.lookup? hquote)) (by omega)

/-- An element of a list is pinned while what stands behind it is read. -/
theorem element {rest : Action (Value × Cursor)} {P : Cursor → Prop} (hv : m.Built e n v)
    (hrest : Spends limit (m.pin v) rest (fun m₂ q => m₂.Built f k q.1 ∧ P q.2) E)
    (hlimit : k < limit) :
    Spends limit m (do
        let q ← Action.pinned v rest
        let u ← Action.cons v q.1
        return (u, q.2))
      (fun m₂ q => m₂.Built (.pair e f) (k + 1) q.1 ∧ P q.2) E := by
  have hboth : Spends limit m (Action.pinned v rest)
      (fun m₂ q => m₂.BuiltBoth e f k v q.1 ∧ P q.2) E :=
    hrest.pinned fun m₂ q hkeeps hreads hq => ⟨hv.with_pinned hkeeps hreads hq.1, hq.2⟩
  refine hboth.bind (Nat.le_refl limit) fun m₂ q hkeeps _ hq => ?_
  refine (cons hkeeps.coherent hq.1 hlimit).bind (Nat.le_refl limit) fun m₃ u hkeeps₂ _ hu => ?_
  exact .pure hkeeps₂.coherent ⟨hu, hq.2⟩

end Spends

end ArenaLisp
