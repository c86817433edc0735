import ArenaLisp.Proofs.TreeViews

/-!
# Actions that compute trees

`Computes m act r Q` says that an action on a machine has the answer that `r` gives for trees: where
it has a value, `r` has one that `Q` relates to it, and where it stops, `r` stops alike, unless there
was no room or the action was cut off.  What is read from the arena has no counterpart on the side of
the trees (`Computes.asking_bind`).
-/

namespace ArenaLisp

/-- An action with the answer that `r` gives. -/
def Computes {α β : Type} (m : Machine) (act : Action α) (r : Except Stop β)
    (Q : Machine → α → β → Prop) : Prop :=
  match act.run m with
  | .ok x m₂ => m.Keeps m₂ ∧ m₂.lexicon = m.lexicon ∧ ∃ y, r = .ok y ∧ Q m₂ x y
  | .error e _ => e = .unfinished ∨ e = .failure .outOfMemory ∨ r = .error e

namespace Computes

variable {m : Machine} {α β γ δ : Type} {act : Action α} {r : Except Stop β}
  {Q : Machine → α → β → Prop} {Q' : Machine → γ → δ → Prop} {v u x y : Value} {s t : Tree}

protected theorem pure {x : α} {y : β} (hm : m.Coherent) (h : Q m x y) :
    Computes m (pure x) (.ok y) Q := ⟨.refl hm, rfl, y, rfl, h⟩

protected theorem throw (e : Stop) :
    Computes m (throw e : Action α) (.error e : Except Stop β) Q := .inr (.inr rfl)

theorem mono {Q₂ : Machine → α → β → Prop} (h : Computes m act r Q)
    (hQ : ∀ m₂ x y, m.Keeps m₂ → Q m₂ x y → Q₂ m₂ x y) : Computes m act r Q₂ := by
  unfold Computes at h ⊢
  split
  · rename_i x m₂ hrun
    rw [hrun] at h
    obtain ⟨hkeeps, hlexicon, y, hr, hxy⟩ := h
    exact ⟨hkeeps, hlexicon, y, hr, hQ _ _ _ hkeeps hxy⟩
  · rename_i e m₂ hrun
    rw [hrun] at h
    exact h

/-- Work that keeps what is pinned, and an action that has the same run from its end on. -/
theorem of_run {m₂ : Machine} {act₂ : Action α} (h : Computes m₂ act₂ r Q) (hkeeps : m.Keeps m₂)
    (hlexicon : m₂.lexicon = m.lexicon) (hrun : act.run m = act₂.run m₂) : Computes m act r Q := by
  unfold Computes at h
  rw [Computes, hrun]
  cases hrun₂ : act₂.run m₂ with
  | ok x m₃ =>
    rw [hrun₂] at h
    exact ⟨hkeeps.trans h.1, h.2.1.trans hlexicon, h.2.2⟩
  | error e m₃ =>
    rw [hrun₂] at h
    exact h

theorem bind {f : α → Action γ} {g : β → Except Stop δ} (h : Computes m act r Q)
    (hf : ∀ m₂ x y, m.Keeps m₂ → m₂.lexicon = m.lexicon → Q m₂ x y → Computes m₂ (f x) (g y) Q') :
    Computes m (act >>= f) (r >>= g) Q' := by
  unfold Computes at h
  cases hrun : act.run m with
  | ok x m₂ =>
    rw [hrun] at h
    obtain ⟨hkeeps, hlexicon, y, rfl, hxy⟩ := h
    refine (hf m₂ x y hkeeps hlexicon hxy).of_run hkeeps hlexicon ?_
    rw [Action.run_bind, hrun]
  | error e m₂ =>
    rw [hrun] at h
    rw [Computes, Action.run_bind, hrun]
    rcases h with h | h | rfl
    · exact .inl h
    · exact .inr (.inl h)
    · exact .inr (.inr rfl)

/-- What is asked of the machine. -/
theorem asking {f : Machine → Except Stop α} {P : α → β → Prop} (hm : m.Coherent)
    (h : Mode.proper.Answers P (f m) r) :
    Computes m (Action.asking f) r fun m₂ x y => m₂ = m ∧ P x y := by
  rw [Computes, Action.run_asking]
  cases hf : f m with
  | ok x =>
    rw [hf] at h
    obtain ⟨y, hr, hxy⟩ := h
    exact ⟨.refl hm, rfl, y, hr, rfl, hxy⟩
  | error e =>
    rw [hf] at h
    exact .inr (h.imp (Mode.Excuses.of_clean trivial) And.right)

theorem asking_ok {f : Machine → Except Stop α} {x : α} {y : β} (hm : m.Coherent)
    (hf : f m = .ok x) (h : Q m x y) : Computes m (Action.asking f) (.ok y) Q := by
  rw [Computes, Action.run_asking, hf]
  exact ⟨.refl hm, rfl, y, rfl, h⟩

/-- What is read and known already. -/
theorem asking_bind {f : Machine → Except Stop α} {k : α → Action γ} {r : Except Stop δ} {x : α}
    (hf : f m = .ok x) (h : Computes m (k x) r Q') : Computes m (Action.asking f >>= k) r Q' := by
  rw [Computes, Action.run_bind, Action.run_asking, hf]
  exact h

/-- What is read, and has a counterpart that takes no work. -/
theorem asking_rel_bind {f : Machine → Except Stop α} {k : α → Action γ} {r : Except Stop δ}
    {P : α → β → Prop} {y : β} (h : Mode.proper.Answers P (f m) (.ok y))
    (hk : ∀ x, P x y → Computes m (k x) r Q') : Computes m (Action.asking f >>= k) r Q' := by
  cases hf : f m with
  | ok x =>
    rw [hf] at h
    obtain ⟨_, hy, hxy⟩ := h
    cases hy
    exact asking_bind hf (hk x hxy)
  | error e =>
    rw [hf] at h
    rcases h with h | ⟨-, hy⟩
    · rw [Computes, Action.run_bind, Action.run_asking, hf]
      exact .inr (.inl (h.of_clean trivial))
    · cases hy

theorem get {f : Machine → Action α} (h : Computes m (f m) r Q) :
    Computes m (MonadState.get >>= f) r Q := h

/-- A pin for the length of an action. -/
theorem pinned {Q₂ : Machine → α → β → Prop} (h : Computes (m.pin v) act r Q)
    (hQ : ∀ m₂ x y, Q m₂ x y → Q₂ m₂.unpin x y) : Computes m (Action.pinned v act) r Q₂ := by
  unfold Computes at h
  rw [Computes, Action.run_pinned]
  cases hrun : act.run (m.pin v) with
  | ok x m₂ =>
    rw [hrun] at h
    obtain ⟨hkeeps, hlexicon, y, hr, hxy⟩ := h
    exact ⟨hkeeps.unpin, hlexicon, y, hr, hQ _ _ _ hxy⟩
  | error e m₂ =>
    rw [hrun] at h
    exact h

/-- Inside a pin, the rest of the work can be looked at from outside again. -/
theorem pinned_bind {f : α → Action γ} {g : β → Except Stop δ} (h : Computes (m.pin v) act r Q)
    (hf : ∀ m₂ x y, m.Keeps m₂ → (m.pin v).Keeps (m₂.pin v) → m₂.lexicon = m.lexicon →
      Q (m₂.pin v) x y → Computes m₂ (Action.pinned v (f x)) (g y) Q') :
    Computes m (Action.pinned v (act >>= f)) (r >>= g) Q' := by
  unfold Computes at h
  cases hrun : act.run (m.pin v) with
  | ok x m₂ =>
    rw [hrun] at h
    obtain ⟨hkeeps, hlexicon, y, rfl, hxy⟩ := h
    -- the pin is still the innermost root
    have hpin : m₂.unpin.pin v = m₂ := hkeeps.pin_unpin
    exact (hf m₂.unpin x y hkeeps.unpin (hpin.symm ▸ hkeeps) hlexicon (hpin.symm ▸ hxy)).of_run
      hkeeps.unpin hlexicon (Action.run_pinned_bind hrun hpin)
  | error e m₂ =>
    rw [hrun] at h
    rw [Computes, Action.run_pinned_bind_of_error hrun]
    rcases h with h | h | rfl
    · exact .inl h
    · exact .inr (.inl h)
    · exact .inr (.inr rfl)

/-- What is read inside a pin and known already. -/
theorem pinned_asking_bind {f : Machine → Except Stop α} {k : α → Action γ} {r : Except Stop δ}
    {x : α} (hf : f (m.pin v) = .ok x) (h : Computes m (Action.pinned v (k x)) r Q') :
    Computes m (Action.pinned v (Action.asking f >>= k)) r Q' := by
  rw [Computes, Action.run_pinned] at h ⊢
  rw [Action.run_bind, Action.run_asking, hf]
  exact h

/-- An allocation builds the pair of two trees. -/
theorem cons (hm : m.Coherent) (hx : m.Shows x s) (hy : m.Shows y t) :
    Computes m (Action.cons x y) (.ok (.pair s t)) fun m₂ v t => m₂.Shows v t := by
  rw [Computes, Action.run_cons]
  obtain ⟨hkept, hplaced⟩ := Arena.alloc_spec hm.arena (hm.not_dangling_operands hx.1 hy.1)
  cases hid : (m.arena.alloc m.roots x y).cell? with
  | none => exact .inr (.inl rfl)
  | some id =>
    have hplaced := hplaced id hid
    refine ⟨Machine.keeps_allocated hm hx.1 hy.1, rfl, _, rfl, ?_, ?_⟩
    · exact Arena.not_dangling_pair.mpr hplaced.live
    · refine .pair (Arena.pair?_eq_some_iff.mpr ⟨hplaced.graph, hx.2.ne_poison, hy.2.ne_poison⟩)
        (hx.2.transfer fun z hz => hkept.graph z ?_) (hy.2.transfer fun z hz => hkept.graph z ?_)
      · exact hz.of_subset (by simp)
      · exact hz.of_subset (by simp)

/-- A binding in front of a scope. -/
theorem extend {scope : Scope} {e : Tree} (hm : m.Coherent) (hu : m.Shows u s)
    (hv : m.Shows v t) (hscope : m.Secures scope.value e) :
    Computes m (scope.extend u v) (.ok (e.extend s t)) fun m₂ sc t => m₂.Shows sc.value t := by
  refine (cons hm hu hv).bind (g := fun entry => .ok (Tree.pair entry e)) ?_
  intro m₂ entry entry' hkeeps _ hentry
  refine (cons hkeeps.coherent hentry ((hscope.keeps hkeeps).shows hkeeps.coherent)).bind
    (g := fun t => .ok t) ?_
  intro m₃ link t hkeeps₂ _ hlink
  exact .pure hkeeps₂.coherent hlink

end Computes

end ArenaLisp
