import ArenaLisp.Proofs.World

/-!
# Actions in step

`InStep M w act act' Q` says that two actions, run on the two machines of a world, do the same up to
renaming: where the left has a value, so has the right, in a world that follows and in which `Q`
relates the values; where the left stops, the right stops alike, unless the left has an excuse, which
is a lack of room.  In a world that is not ample, the right may want for room as well.  The rules follow
the way actions are put together.  For a loop that replaces its innermost root there are
`InStep.pinned_bind` and `pinned_repin`: both look at the machine as it is without that root.
-/

namespace ArenaLisp

/-- Whether work stopped otherwise than at the reading of a free cell. -/
def Stop.Regular (e : Stop) : Prop := ∀ id, e ≠ .fault (.freeCell id)

/-- How the left may stop when the right does not: for want of room, or at poison. -/
def Mode.Excuses (M : Mode) (e : Stop) : Prop :=
  e = .failure .outOfMemory ∨ ¬ M.clean ∧ ∃ id, e = .fault (.freeCell id)

/-- Without poison, only a lack of room is an excuse. -/
theorem Mode.Excuses.of_clean {M : Mode} {e : Stop} (hM : M.clean) (h : M.Excuses e) :
    e = .failure .outOfMemory := h.resolve_right fun h => h.1 hM

/-- Answers that correspond: values related by `P`, or the same stop. -/
def Mode.Answers {α β : Type} (M : Mode) (P : α → β → Prop) :
    Except Stop α → Except Stop β → Prop
  | .ok x, r => ∃ y, r = .ok y ∧ P x y
  | .error e, r => M.Excuses e ∨ e.Regular ∧ r = .error e

namespace Mode.Answers

variable {M : Mode} {α β γ δ : Type} {P : α → β → Prop} {P' : γ → δ → Prop}
  {r : Except Stop α} {r' : Except Stop β}

theorem pure {x : α} {y : β} (h : P x y) : M.Answers P (.ok x) (.ok y) := ⟨y, rfl, h⟩

theorem error {e : Stop} (he : e.Regular) : M.Answers P (.error e) (.error e) :=
  .inr ⟨he, rfl⟩

theorem bind {f : α → Except Stop γ} {g : β → Except Stop δ} (h : M.Answers P r r')
    (hf : ∀ x y, P x y → M.Answers P' (f x) (g y)) : M.Answers P' (r >>= f) (r' >>= g) := by
  cases r with
  | ok x =>
    obtain ⟨y, rfl, hxy⟩ := h
    exact hf x y hxy
  | error e =>
    rcases h with h | ⟨he, rfl⟩
    · exact .inl h
    · exact .error he

theorem mono {Q : α → β → Prop} (h : M.Answers P r r') (hPQ : ∀ x y, P x y → Q x y) :
    M.Answers Q r r' := by
  cases r with
  | ok x =>
    obtain ⟨y, rfl, hxy⟩ := h
    exact ⟨y, rfl, hPQ x y hxy⟩
  | error e => exact h

end Mode.Answers

/-- Whether an action may be out of room on the right. -/
def Mode.Lacks {α : Type} (M : Mode) (act : Action α) (m : Machine) : Prop :=
  ¬ M.ample ∧ ∃ m₂, act.run m = .error (.failure .outOfMemory) m₂

/-- Two actions that do the same in a world, up to renaming. -/
def InStep {α β : Type} (M : Mode) (w : World) (act : Action α) (act' : Action β)
    (Q : World → α → β → Prop) : Prop :=
  M.Lacks act' w.right ∨
  match act.run w.left with
  | .ok x m => ∃ x' m' ρ, act'.run w.right = .ok x' m' ∧ w.Next ⟨ρ, m, m'⟩ ∧
      World.Ok M ⟨ρ, m, m'⟩ ∧ Q ⟨ρ, m, m'⟩ x x'
  | .error e m => w.left.Keeps m ∧
      (M.Excuses e ∨ e.Regular ∧ ∃ m', act'.run w.right = .error e m' ∧ w.right.Keeps m')

/-- A bind of actions, run. -/
theorem Action.run_bind {α β : Type} (act : Action α) (f : α → Action β) (m : Machine) :
    (act >>= f).run m =
      match act.run m with
      | .ok x m₂ => (f x).run m₂
      | .error e m₂ => .error e m₂ := by
  show EStateM.bind act f m = _
  unfold EStateM.bind EStateM.run
  cases act m <;> rfl

section PinnedBind

variable {α β : Type} {act : Action α} {f : α → Action β} {m m₂ : Machine} {v : Value}

/-- What follows inside a pin, run without it in front. -/
theorem Action.run_pinned_bind {x : α} (hrun : act.run (m.pin v) = .ok x m₂)
    (hpin : m₂.unpin.pin v = m₂) :
    (Action.pinned v (act >>= f)).run m = (Action.pinned v (f x)).run m₂.unpin := by
  rw [Action.run_pinned, Action.run_bind, hrun, Action.run_pinned, hpin]

theorem Action.run_pinned_bind_of_error {e : Stop} (hrun : act.run (m.pin v) = .error e m₂) :
    (Action.pinned v (act >>= f)).run m = .error e m₂.unpin := by
  rw [Action.run_pinned, Action.run_bind, hrun]
  rfl

end PinnedBind

/-- Replacing a pin at once is pinning the other value instead. -/
theorem Action.pinned_repin {α : Type} (v u : Value) (act : Unit → Action α) :
    Action.pinned v (Action.repin u >>= act) = Action.pinned u (act ()) := rfl

/-! ### Want of room on the right -/

namespace Mode.Lacks

variable {M : Mode} {α β : Type} {act : Action α} {f : α → Action β} {m m₂ : Machine} {v : Value}

theorem bind (h : M.Lacks act m) : M.Lacks (act >>= f) m := by
  obtain ⟨hM, m₂, hrun⟩ := h
  exact ⟨hM, m₂, by rw [Action.run_bind, hrun]⟩

theorem pinned (h : M.Lacks act (m.pin v)) : M.Lacks (Action.pinned v act) m := by
  obtain ⟨hM, m₂, hrun⟩ := h
  exact ⟨hM, m₂.unpin, by rw [Action.run_pinned, hrun]; rfl⟩

end Mode.Lacks

namespace InStep

variable {M : Mode} {w : World} {α β γ δ : Type} {act : Action α} {act' : Action β}
  {Q : World → α → β → Prop} {Q' : World → γ → δ → Prop} {v v' : Value}

protected theorem pure {x : α} {x' : β} (hw : w.Ok M) (h : Q w x x') :
    InStep M w (pure x) (pure x') Q :=
  .inr ⟨x', w.right, w.ren, rfl, .refl hw, hw, h⟩

protected theorem throw {e : Stop} (hw : w.Ok M) (he : e.Regular) :
    InStep M w (throw e : Action α) (throw e : Action β) Q :=
  .inr ⟨.refl hw.left, .inr ⟨he, w.right, rfl, .refl hw.right⟩⟩

/-- In an ample world, the right does not want for room. -/
theorem of_ample (h : InStep M w act act' Q) (hM : M.ample) :
    match act.run w.left with
    | .ok x m => ∃ x' m' ρ, act'.run w.right = .ok x' m' ∧ w.Next ⟨ρ, m, m'⟩ ∧
        World.Ok M ⟨ρ, m, m'⟩ ∧ Q ⟨ρ, m, m'⟩ x x'
    | .error e m => w.left.Keeps m ∧
        (M.Excuses e ∨ e.Regular ∧ ∃ m', act'.run w.right = .error e m' ∧ w.right.Keeps m') :=
  h.resolve_left fun hlacks => hlacks.1 hM

theorem mono {Q₂ : World → α → β → Prop} (h : InStep M w act act' Q)
    (hQ : ∀ w₂ x x', w.Next w₂ → w₂.Ok M → Q w₂ x x' → Q₂ w₂ x x') : InStep M w act act' Q₂ := by
  refine h.imp_right fun h => ?_
  split
  · rename_i x m hrun
    rw [hrun] at h
    obtain ⟨x', m', ρ, hrun', hnext, hok, hx⟩ := h
    exact ⟨x', m', ρ, hrun', hnext, hok, hQ _ _ _ hnext hok hx⟩
  · rename_i e m hrun
    rw [hrun] at h
    exact h

/-- Actions in step in a world that follows, and others that have the same runs from here on. -/
theorem of_runs {w₂ : World} {act₂ : Action α} {act₂' : Action β} (h : InStep M w₂ act₂ act₂' Q)
    (hnext : w.Next w₂) (hleft : act.run w.left = act₂.run w₂.left)
    (hright : act'.run w.right = act₂'.run w₂.right) : InStep M w act act' Q := by
  rw [InStep, Mode.Lacks, hleft, hright]
  refine h.imp_right fun h => ?_
  cases hrun : act₂.run w₂.left with
  | ok x m =>
    rw [hrun] at h
    obtain ⟨x', m', ρ, hrun', hnext₂, hok, hx⟩ := h
    exact ⟨x', m', ρ, hrun', hnext.trans hnext₂, hok, hx⟩
  | error e m =>
    rw [hrun] at h
    refine ⟨hnext.left.trans h.1, h.2.imp_right ?_⟩
    rintro ⟨he, m', hrun', hkeeps⟩
    exact ⟨he, m', hrun', hnext.right.trans hkeeps⟩

/-- A bind, where the rest may take into account how it was led to. -/
theorem bind_run {f : α → Action γ} {f' : β → Action δ} (h : InStep M w act act' Q)
    (hf : ∀ w₂ x x', act.run w.left = .ok x w₂.left → act'.run w.right = .ok x' w₂.right →
      w.Next w₂ → w₂.Ok M → Q w₂ x x' → InStep M w₂ (f x) (f' x') Q') :
    InStep M w (act >>= f) (act' >>= f') Q' := by
  rcases h with hlacks | h
  · exact .inl hlacks.bind
  cases hrun : act.run w.left with
  | ok x m =>
    rw [hrun] at h
    obtain ⟨x', m', ρ, hrun', hnext, hok, hx⟩ := h
    refine (hf ⟨ρ, m, m'⟩ x x' hrun hrun' hnext hok hx).of_runs hnext ?_ ?_
    · rw [Action.run_bind, hrun]
    · rw [Action.run_bind, hrun']
  | error e m =>
    rw [hrun] at h
    refine .inr ?_
    rw [Action.run_bind, hrun]
    refine ⟨h.1, h.2.imp_right ?_⟩
    rintro ⟨he, m', hrun', hkeeps⟩
    exact ⟨he, m', by rw [Action.run_bind, hrun'], hkeeps⟩

theorem bind {f : α → Action γ} {f' : β → Action δ} (h : InStep M w act act' Q)
    (hf : ∀ w₂ x x', w.Next w₂ → w₂.Ok M → Q w₂ x x' → InStep M w₂ (f x) (f' x') Q') :
    InStep M w (act >>= f) (act' >>= f') Q' :=
  h.bind_run fun w₂ x x' _ _ => hf w₂ x x'

/-- What is asked of a machine without a change to it. -/
theorem asking {f : Machine → Except Stop α} {f' : Machine → Except Stop β} (hw : w.Ok M)
    {P : α → β → Prop} (h : M.Answers P (f w.left) (f' w.right)) :
    InStep M w (Action.asking f) (Action.asking f') fun w₂ x x' => w₂ = w ∧ P x x' := by
  refine .inr ?_
  rw [Action.run_asking, Action.run_asking]
  cases hf : f w.left with
  | ok x =>
    rw [hf] at h
    obtain ⟨x', hf', hx⟩ := h
    exact ⟨x', w.right, w.ren, by rw [hf'], .refl hw, hw, rfl, hx⟩
  | error e =>
    rw [hf] at h
    refine ⟨.refl hw.left, h.imp_right ?_⟩
    rintro ⟨he, hf'⟩
    exact ⟨he, w.right, by rw [hf'], .refl hw.right⟩

theorem get {f : Machine → Action α} {f' : Machine → Action β}
    (h : InStep M w (f w.left) (f' w.right) Q) :
    InStep M w (MonadState.get >>= f) (MonadState.get >>= f') Q := h

/-- Pins that correspond, for the length of two actions. -/
theorem pinned {Q₂ : World → α → β → Prop}
    (h : InStep M (w.pin v v') act act' Q)
    (hQ : ∀ w₂ x x', Q w₂ x x' → Q₂ w₂.unpin x x') :
    InStep M w (Action.pinned v act) (Action.pinned v' act') Q₂ := by
  rcases h with hlacks | h
  · exact .inl hlacks.pinned
  refine .inr ?_
  rw [Action.run_pinned, Action.run_pinned]
  cases hrun : act.run (w.left.pin v) with
  | ok x m =>
    rw [show act.run (w.pin v v').left = _ from hrun] at h
    obtain ⟨x', m', ρ, hrun', hnext, hok, hx⟩ := h
    rw [show act'.run (w.right.pin v') = _ from hrun']
    exact ⟨x', m'.unpin, ρ, rfl, hnext.unpin, hok.unpin, hQ _ _ _ hx⟩
  | error e m =>
    rw [show act.run (w.pin v v').left = _ from hrun] at h
    refine ⟨h.1.unpin, h.2.imp_right ?_⟩
    rintro ⟨he, m', hrun', hkeeps⟩
    exact ⟨he, m'.unpin, by rw [show act'.run (w.right.pin v') = _ from hrun']; rfl, hkeeps.unpin⟩

/-- Inside pins, the rest of the work can be looked at from outside again. -/
theorem pinned_bind {f : α → Action γ} {f' : β → Action δ}
    (h : InStep M (w.pin v v') act act' Q)
    (hf : ∀ w₂ x x', w.Next w₂ → (w.pin v v').Next (w₂.pin v v') → w₂.Ok M → (w₂.pin v v').Ok M →
      Q (w₂.pin v v') x x' →
      InStep M w₂ (Action.pinned v (f x)) (Action.pinned v' (f' x')) Q') :
    InStep M w (Action.pinned v (act >>= f)) (Action.pinned v' (act' >>= f')) Q' := by
  rcases h with hlacks | h
  · exact .inl hlacks.bind.pinned
  cases hrun : act.run (w.left.pin v) with
  | ok x m =>
    rw [show act.run (w.pin v v').left = _ from hrun] at h
    obtain ⟨x', m', ρ, hrun', hnext, hok, hx⟩ := h
    -- the pins are still the innermost roots
    have hleft : m.unpin.pin v = m := hnext.left.pin_unpin
    have hright : m'.unpin.pin v' = m' := hnext.right.pin_unpin
    have hworld : (⟨ρ, m.unpin, m'.unpin⟩ : World).pin v v' = ⟨ρ, m, m'⟩ := by
      rw [World.pin, hleft, hright]
    refine (hf ⟨ρ, m.unpin, m'.unpin⟩ x x' hnext.unpin (hworld ▸ hnext) hok.unpin (hworld ▸ hok)
      (hworld ▸ hx)).of_runs hnext.unpin ?_ ?_
    · exact Action.run_pinned_bind hrun hleft
    · exact Action.run_pinned_bind hrun' hright
  | error e m =>
    rw [show act.run (w.pin v v').left = _ from hrun] at h
    refine .inr ?_
    rw [Action.run_pinned_bind_of_error hrun]
    refine ⟨h.1.unpin, h.2.imp_right ?_⟩
    rintro ⟨he, m', hrun', hkeeps⟩
    exact ⟨he, m'.unpin, Action.run_pinned_bind_of_error hrun', hkeeps.unpin⟩

/-- An allocation on both sides. -/
theorem cons_allocated {x x' y y' : Value} (hw : w.Ok M) (hx : w.Rel x x') (hy : w.Rel y y') :
    InStep M w (Action.cons x y) (Action.cons x' y') fun w₂ v v' =>
      ∃ id id', v = .pair id ∧ v' = .pair id' ∧ w₂ = w.allocated x x' y y' id id' := by
  rw [InStep, Mode.Lacks, Action.run_cons, Action.run_cons]
  cases hid : (w.left.arena.alloc w.left.roots x y).cell? with
  | some id =>
    cases hid' : (w.right.arena.alloc w.right.roots x' y').cell? with
    | some id' =>
      exact .inr ⟨.pair id', w.right.allocated x' y', w.allocRen x x' y y' id id', rfl,
        hw.next_allocated hx hy id id', hw.allocated hx hy hid hid', id, id', rfl, rfl, rfl⟩
    | none =>
      refine .inl ⟨fun hM => ?_, _, rfl⟩
      obtain ⟨id', hsome⟩ := hw.room_right hx hy hM hid
      rw [hid'] at hsome
      cases hsome
  | none =>
    exact .inr ⟨Machine.keeps_allocated hw.left (hw.not_dangling_left hx) (hw.not_dangling_left hy),
      .inl (.inl rfl)⟩

theorem cons {x x' y y' : Value} (hw : w.Ok M) (hx : w.Rel x x') (hy : w.Rel y y') :
    InStep M w (Action.cons x y) (Action.cons x' y') fun w₂ v v' => w₂.Rel v v' := by
  refine (cons_allocated hw hx hy).mono ?_
  rintro _ _ _ - - ⟨id, id', rfl, rfl, rfl⟩
  exact .pair (.inr ⟨rfl, rfl⟩)

end InStep

end ArenaLisp
