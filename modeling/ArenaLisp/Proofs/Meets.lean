import ArenaLisp.Proofs.InStep

/-!
# What a run comes to

`Meets m act Q E` says that the run of an action from `m` ends with a value and a machine that satisfy `Q`,
or with a stop and a machine that satisfy `E`.  There is a rule for each way of putting actions together.
What is known of an action may also be used to tell that two continuations have the same run behind it
(`Meets.run_bind_congr`).
-/

namespace ArenaLisp

/-- What the run of an action from a machine ends with. -/
def Meets {α : Type} (m : Machine) (act : Action α) (Q : α → Machine → Prop)
    (E : Stop → Machine → Prop) : Prop :=
  match act.run m with
  | .ok x m₂ => Q x m₂
  | .error e m₂ => E e m₂

variable {α β : Type} {m m₂ : Machine} {act : Action α} {Q Q₂ : α → Machine → Prop}
  {Q' : β → Machine → Prop} {E E₂ : Stop → Machine → Prop} {v : Value}

/-- Two actions that have the same run, each in front of a continuation that has the same run wherever they
lead. -/
theorem Action.run_bind_congr {act act' : Action α} {f f' : α → Action β}
    (hact : act'.run m = act.run m)
    (hf : ∀ x m₂, act.run m = .ok x m₂ → (f' x).run m₂ = (f x).run m₂) :
    (act' >>= f').run m = (act >>= f).run m := by
  rw [Action.run_bind, hact, Action.run_bind]
  cases hrun : act.run m with
  | ok x m₂ => exact hf x m₂ hrun
  | error e m₂ => rfl

namespace Meets

theorem of_ok {x : α} (h : Meets m act Q E) (hrun : act.run m = .ok x m₂) : Q x m₂ := by
  unfold Meets at h
  rwa [hrun] at h

theorem of_error {e : Stop} (h : Meets m act Q E) (hrun : act.run m = .error e m₂) : E e m₂ := by
  unfold Meets at h
  rwa [hrun] at h

/-- It is enough to look at the two ways in which a run can end. -/
theorem intro (hok : ∀ x m₂, act.run m = .ok x m₂ → Q x m₂)
    (herror : ∀ e m₂, act.run m = .error e m₂ → E e m₂) : Meets m act Q E := by
  unfold Meets
  cases hrun : act.run m with
  | ok x m₂ => exact hok x m₂ hrun
  | error e m₂ => exact herror e m₂ hrun

theorem mono (h : Meets m act Q E) (hQ : ∀ x m₂, Q x m₂ → Q₂ x m₂)
    (hE : ∀ e m₂, E e m₂ → E₂ e m₂) : Meets m act Q₂ E₂ :=
  .intro (fun _ _ hrun => hQ _ _ (h.of_ok hrun)) fun _ _ hrun => hE _ _ (h.of_error hrun)

protected theorem pure {x : α} (h : Q x m) : Meets m (pure x) Q E := h

protected theorem throw {e : Stop} (h : E e m) : Meets m (throw e) Q E := h

/-- Two actions in a row. -/
theorem bind {f : α → Action β} (h : Meets m act Q E)
    (hf : ∀ x m₂, Q x m₂ → Meets m₂ (f x) Q' E₂) (hE : ∀ e m₂, E e m₂ → E₂ e m₂) :
    Meets m (act >>= f) Q' E₂ := by
  unfold Meets
  rw [Action.run_bind]
  cases hrun : act.run m with
  | ok x m₂ => exact hf x m₂ (h.of_ok hrun)
  | error e m₂ => exact hE e m₂ (h.of_error hrun)

/-- What is asked of the machine. -/
theorem asking {f : Machine → Except Stop α} (hok : ∀ x, f m = .ok x → Q x m)
    (herror : ∀ e, f m = .error e → E e m) : Meets m (Action.asking f) Q E := by
  unfold Meets
  rw [Action.run_asking]
  cases hask : f m with
  | ok x => exact hok x hask
  | error e => exact herror e hask

/-- Another value for the innermost pin. -/
theorem repin_bind {f : Unit → Action β} (h : Meets (m.repin v) (f ()) Q' E) :
    Meets m (Action.repin v >>= f) Q' E := h

/-- A pin for the length of an action. -/
theorem pinned (h : Meets (m.pin v) act (fun x m₂ => Q x m₂.unpin) fun e m₂ => E e m₂.unpin) :
    Meets m (Action.pinned v act) Q E := by
  unfold Meets
  rw [Action.run_pinned]
  cases hrun : act.run (m.pin v) with
  | ok x m₂ => exact h.of_ok hrun
  | error e m₂ => exact h.of_error hrun

/-- Continuations that have the same run behind what an action may end with. -/
theorem run_bind_congr {f g : α → Action β} (h : Meets m act Q E)
    (hfg : ∀ x m₂, Q x m₂ → (f x).run m₂ = (g x).run m₂) :
    (act >>= f).run m = (act >>= g).run m :=
  Action.run_bind_congr rfl fun x m₂ hrun => hfg x m₂ (h.of_ok hrun)

end Meets

/-! ### Readings and stops in front of other work -/

theorem Action.run_reading_bind {f : Arena → Except Stop α} {g : α → Action β} {x : α}
    (h : f m.arena = .ok x) : (Action.reading f >>= g).run m = (g x).run m := by
  rw [Action.run_bind, Action.run_reading, h]

/-- Continuations that have the same run for what is read. -/
theorem Action.run_reading_congr {f : Arena → Except Stop α} {g g' : α → Action β}
    (h : ∀ x, f m.arena = .ok x → (g' x).run m = (g x).run m) :
    (Action.reading f >>= g').run m = (Action.reading f >>= g).run m := by
  refine Action.run_bind_congr rfl fun x m₂ hrun => ?_
  rw [Action.run_reading] at hrun
  split at hrun
  · rename_i hread
    cases hrun
    exact h x hread
  · cases hrun

theorem Action.run_bind_of_ok {g : α → Action β} {x : α} (h : act.run m = .ok x m₂) :
    (act >>= g).run m = (g x).run m₂ := by
  rw [Action.run_bind, h]

theorem Action.run_bind_of_error {g : α → Action β} {e : Stop} (h : act.run m = .error e m₂) :
    (act >>= g).run m = .error e m₂ := by
  rw [Action.run_bind, h]

end ArenaLisp
