import ArenaLisp.Proofs.Clean

/-!
# Runs of actions along a trail

A trail relates machines before and after work: it may carry an invariant, or say by which steps the one
became the other.  `Runs T m act act' Q` says that two actions have the same run from `m`, that the run
goes along the trail, is not cut off unless the trail allows it, and ends with a value that satisfies
`Q` in the machine that is left, what was pinned being as it was.  There is a rule for each way of
putting actions together.
-/

namespace ArenaLisp

/-- A relation that holds along what actions do without an allocation. -/
structure Trail where
  Along : Machine → Machine → Prop
  /-- What holds of all machines along the trail. -/
  Sound : Machine → Prop
  /-- Whether work may be cut off. -/
  Cut : Prop
  coherent : ∀ {m}, Sound m → m.Coherent
  sound : ∀ {m m₂}, Along m m₂ → m₂.Coherent → Sound m → Sound m₂
  refl : ∀ m, Along m m
  trans : ∀ {m m₂ m₃}, Along m m₂ → Along m₂ m₃ → Along m m₃
  pin : ∀ m v, Along m (m.pin v)
  unpin : ∀ m, Along m m.unpin
  record : ∀ m r, Along m (m.record r)

/-- Work that keeps what is pinned and goes along a trail. -/
structure Machine.Goes (T : Trail) (m m₂ : Machine) : Prop where
  keeps : m.Keeps m₂
  reads : m.Reads m₂
  along : T.Along m m₂

/-- Two actions with the same run, along a trail and to a value with `Q`. -/
def Runs {α : Type} (T : Trail) (m : Machine) (act act' : Action α) (Q : Machine → α → Prop) :
    Prop :=
  act'.run m = act.run m ∧
    match act.run m with
    | .ok x m₂ => m.Goes T m₂ ∧ Q m₂ x
    | .error e m₂ => T.Along m m₂ ∧ (e = .unfinished → T.Cut)

variable {A : Alphabet} {T : Trail} {α β : Type} {m m₂ m₃ : Machine} {act act' : Action α}
  {Q : Machine → α → Prop} {Q' : Machine → β → Prop} {v x y : Value}

namespace Machine.Goes

theorem refl (hm : m.Coherent) : m.Goes T m := ⟨.refl hm, .refl, T.refl m⟩

theorem trans (h : m.Goes T m₂) (h' : m₂.Goes T m₃) : m.Goes T m₃ :=
  ⟨h.keeps.trans h'.keeps, h.reads.trans h'.reads, T.trans h.along h'.along⟩

/-- Work inside a pin seen from outside. -/
theorem unpin (h : (m.pin v).Goes T m₂) : m.Goes T m₂.unpin :=
  ⟨h.keeps.unpin, h.reads, T.trans (T.pin m v) (T.trans h.along (T.unpin m₂))⟩

theorem coherent (h : m.Goes T m₂) : m₂.Coherent := h.keeps.coherent

theorem sound (h : m.Goes T m₂) (hm : T.Sound m) : T.Sound m₂ := T.sound h.along h.coherent hm

end Machine.Goes

theorem Trail.sound_pin (hm : T.Sound m) (hv : ¬ m.arena.Dangling v) : T.Sound (m.pin v) :=
  T.sound (T.pin m v) ((T.coherent hm).pin hv) hm

theorem Machine.Guards.goes (hv : m.Guards A v) (h : m.Goes T m₂) : m₂.Guards A v :=
  hv.keeps h.keeps h.reads

namespace Runs

/-- A run goes along the trail however it ends. -/
theorem ending (h : Runs T m act act' Q) : T.Along m (ArenaLisp.ending (act.run m)) := by
  obtain ⟨-, h⟩ := h
  cases hrun : act.run m with
  | ok x m₂ =>
    rw [hrun] at h
    exact h.1.along
  | error e m₂ =>
    rw [hrun] at h
    exact h.1

theorem mono {Q₂ : Machine → α → Prop} (h : Runs T m act act' Q)
    (hQ : ∀ m₂ x, m.Goes T m₂ → Q m₂ x → Q₂ m₂ x) : Runs T m act act' Q₂ := by
  refine ⟨h.1, ?_⟩
  obtain ⟨-, h⟩ := h
  cases hrun : act.run m with
  | ok x m₂ =>
    rw [hrun] at h
    exact ⟨h.1, hQ m₂ x h.1 h.2⟩
  | error e m₂ =>
    rw [hrun] at h
    exact h

protected theorem pure {x : α} (hm : m.Coherent) (h : Q m x) : Runs T m (pure x) (pure x) Q :=
  ⟨rfl, .refl hm, h⟩

protected theorem throw {e : Stop} (he : e = .unfinished → T.Cut) :
    Runs T m (throw e : Action α) (throw e) Q := ⟨rfl, T.refl m, he⟩

/-- A run along the trail, and actions that have the same runs from its end on. -/
theorem of_runs {act₂ act₂' : Action α} (h : Runs T m₂ act₂ act₂' Q) (hgoes : m.Goes T m₂)
    (hrun : act.run m = act₂.run m₂) (hrun' : act'.run m = act₂'.run m₂) : Runs T m act act' Q := by
  rw [Runs, hrun, hrun']
  refine ⟨h.1, ?_⟩
  obtain ⟨-, h⟩ := h
  cases hrun₂ : act₂.run m₂ with
  | ok x m₃ =>
    rw [hrun₂] at h
    exact ⟨hgoes.trans h.1, h.2⟩
  | error e m₃ =>
    rw [hrun₂] at h
    exact ⟨T.trans hgoes.along h.1, h.2⟩

theorem bind {f f' : α → Action β} (h : Runs T m act act' Q)
    (hf : ∀ m₂ x, m.Goes T m₂ → Q m₂ x → Runs T m₂ (f x) (f' x) Q') :
    Runs T m (act >>= f) (act' >>= f') Q' := by
  obtain ⟨hsame, h⟩ := h
  cases hrun : act.run m with
  | ok x m₂ =>
    rw [hrun] at h hsame
    refine (hf m₂ x h.1 h.2).of_runs h.1 ?_ ?_
    · rw [Action.run_bind, hrun]
    · rw [Action.run_bind, hsame]
  | error e m₂ =>
    rw [hrun] at h hsame
    rw [Runs, Action.run_bind, Action.run_bind, hrun, hsame]
    exact ⟨rfl, h⟩

/-- What is asked of the machine. -/
theorem asking {f : Machine → Except Stop α} (hm : m.Coherent) (hf : Completes (f m)) :
    Runs T m (Action.asking f) (Action.asking f) fun m₂ x => m₂ = m ∧ f m = .ok x := by
  rw [Runs, Action.run_asking]
  cases hrun : f m with
  | ok x => exact ⟨rfl, .refl hm, rfl, rfl⟩
  | error e => exact ⟨rfl, T.refl m, fun he => absurd (he ▸ hrun) hf⟩

/-- What is asked of the machine before other work. -/
theorem asking_bind {f : Machine → Except Stop α} {k k' : α → Action β}
    (hf : T.Cut ∨ Completes (f m)) (h : ∀ x, f m = .ok x → Runs T m (k x) (k' x) Q') :
    Runs T m (Action.asking f >>= k) (Action.asking f >>= k') Q' := by
  rw [Runs, Action.run_bind, Action.run_bind, Action.run_asking]
  cases hrun : f m with
  | ok x => exact h x hrun
  | error e => exact ⟨rfl, T.refl m, fun he => hf.resolve_right fun hf => hf (he ▸ hrun)⟩

/-- What is seen of the machine itself. -/
theorem get {f f' : Machine → Action α} (h : Runs T m (f m) (f' m) Q) :
    Runs T m (MonadState.get >>= f) (MonadState.get >>= f') Q := h

/-- A pin for the length of an action. -/
theorem pinned {Q₂ : Machine → α → Prop} (h : Runs T (m.pin v) act act' Q)
    (hQ : ∀ m₂ x, Q m₂ x → Q₂ m₂.unpin x) :
    Runs T m (Action.pinned v act) (Action.pinned v act') Q₂ := by
  obtain ⟨hsame, h⟩ := h
  rw [Runs, Action.run_pinned, Action.run_pinned, hsame]
  refine ⟨rfl, ?_⟩
  cases hrun : act.run (m.pin v) with
  | ok x m₂ =>
    rw [hrun] at h
    exact ⟨h.1.unpin, hQ m₂ x h.2⟩
  | error e m₂ =>
    rw [hrun] at h
    exact ⟨T.trans (T.pin m v) (T.trans h.1 (T.unpin m₂)), h.2⟩

/-- Inside a pin, the rest of the work can be looked at from outside again. -/
theorem pinned_bind {f f' : α → Action β} (h : Runs T (m.pin v) act act' Q)
    (hf : ∀ m₂ x, m.Goes T m₂ → (m.pin v).Goes T (m₂.pin v) → Q (m₂.pin v) x →
      Runs T m₂ (Action.pinned v (f x)) (Action.pinned v (f' x)) Q') :
    Runs T m (Action.pinned v (act >>= f)) (Action.pinned v (act' >>= f')) Q' := by
  obtain ⟨hsame, h⟩ := h
  cases hrun : act.run (m.pin v) with
  | ok x m₂ =>
    rw [hrun] at h hsame
    obtain ⟨hgoes, hx⟩ := h
    -- the pin is still the innermost root
    have hpin : m₂.unpin.pin v = m₂ := hgoes.keeps.pin_unpin
    have hout := hgoes.unpin
    exact (hf m₂.unpin x hout (hpin.symm ▸ hgoes) (hpin.symm ▸ hx)).of_runs hout
      (Action.run_pinned_bind hrun hpin) (Action.run_pinned_bind hsame hpin)
  | error e m₂ =>
    rw [hrun] at h hsame
    rw [Runs, Action.run_pinned_bind_of_error hrun, Action.run_pinned_bind_of_error hsame]
    exact ⟨rfl, T.trans (T.pin m v) (T.trans h.1 (T.unpin m₂)), h.2⟩

/-- What is asked of the machine inside a pin before other work. -/
theorem pinned_asking_bind {f : Machine → Except Stop α} {k k' : α → Action β}
    (hf : Completes (f (m.pin v)))
    (h : ∀ x, f (m.pin v) = .ok x →
      Runs T m (Action.pinned v (k x)) (Action.pinned v (k' x)) Q') :
    Runs T m (Action.pinned v (Action.asking f >>= k)) (Action.pinned v (Action.asking f >>= k'))
      Q' := by
  rw [Runs, Action.run_pinned, Action.run_pinned, Action.run_bind, Action.run_bind,
    Action.run_asking]
  cases hrun : f (m.pin v) with
  | ok x => exact h x hrun
  | error e => exact ⟨rfl, T.trans (T.pin m v) (T.unpin _), fun he => absurd (he ▸ hrun) hf⟩

/-- A run along another trail. -/
theorem along {T' : Trail} (h : Runs T m act act' Q) (hcut : ¬ T.Cut)
    (halong : T'.Along m (ArenaLisp.ending (act.run m))) : Runs T' m act act' Q := by
  refine ⟨h.1, ?_⟩
  obtain ⟨-, h⟩ := h
  cases hrun : act.run m with
  | ok x m₂ =>
    rw [hrun] at h halong
    exact ⟨⟨h.1.keeps, h.1.reads, halong⟩, h.2⟩
  | error e m₂ =>
    rw [hrun] at h halong
    exact ⟨halong, fun he => absurd (h.2 he) hcut⟩

end Runs

/-! ### Allocations -/

/-- Whether a trail goes on along the allocation of a clean pair. -/
def Trail.Builds (T : Trail) (A : Alphabet) : Prop :=
  ∀ {m x y}, m.Coherent → m.Clean A x → m.Clean A y → T.Along m (m.allocated x y)

/-- Whether a trail goes on along a binding in front of a scope. -/
def Trail.Binds (T : Trail) (A : Alphabet) : Prop :=
  ∀ {m : Machine} {ident v : Value} {scope : Scope}, m.Coherent → ident.isAtom → m.Clean A ident →
    m.Clean A v → m.Guards A scope.value →
    T.Along m (ending ((scope.extend ident v).run m))

namespace Runs

variable {ident : Value} {scope : Scope}

/-- An allocation builds a clean pair. -/
theorem cons (hbuilds : T.Builds A) (hm : m.Coherent) (hx : m.Clean A x) (hy : m.Clean A y) :
    Runs T m (Action.cons x y) (Action.cons x y) fun m₂ v => m₂.Clean A v := by
  have hgoes : m.Goes T (m.allocated x y) :=
    ⟨Machine.keeps_allocated hm hx.not_dangling hy.not_dangling, .refl, hbuilds hm hx hy⟩
  rw [Runs, Action.run_cons]
  cases hid : (m.arena.alloc m.roots x y).cell? with
  | none => exact ⟨rfl, hgoes.along, nofun⟩
  | some id => exact ⟨rfl, hgoes, hx.allocated hm hy hid⟩

/-- A binding in front of a scope takes two allocations. -/
theorem extend_of_builds (hbuilds : T.Builds A) (hm : m.Coherent) (hident : m.Clean A ident)
    (hv : m.Clean A v) (hscope : m.Guards A scope.value) :
    Runs T m (scope.extend ident v) (scope.extend ident v) fun m₂ s => m₂.Clean A s.value := by
  refine (cons hbuilds hm hident hv).bind fun m₂ entry hgoes hentry => ?_
  refine (cons hbuilds hgoes.coherent hentry (hscope.goes hgoes).2).bind fun m₃ link hgoes₃ hlink => ?_
  exact .pure hgoes₃.coherent hlink

end Runs

/-- What goes on along allocations goes on along bindings. -/
theorem Trail.Builds.binds (h : T.Builds A) : T.Binds A :=
  fun hm _ hident hv hscope => (Runs.extend_of_builds h hm hident hv hscope).ending

/-- The trail that everything is on. -/
def Trail.free (cut : Prop) : Trail where
  Along _ _ := True
  Sound := Machine.Coherent
  Cut := cut
  coherent h := h
  sound _ h _ := h
  refl _ := trivial
  trans _ _ := trivial
  pin _ _ := trivial
  unpin _ := trivial
  record _ _ := trivial

/-- The trail along which an invariant of the arena and the lexicon is kept. -/
def Trail.invariant (I : Arena → Lexicon → Prop) (cut : Prop) : Trail where
  Along m m₂ := I m.arena m.lexicon → I m₂.arena m₂.lexicon
  Sound m := m.Coherent ∧ I m.arena m.lexicon
  Cut := cut
  coherent h := h.1
  sound h hm hm' := ⟨hm, h hm'.2⟩
  refl _ h := h
  trans h h' := h' ∘ h
  pin _ _ h := h
  unpin _ h := h
  record _ _ h := h

/-- A binding in front of a scope that is guarded. -/
theorem Runs.extend {ident : Value} {scope : Scope} (hbinds : T.Binds A) (hm : m.Coherent)
    (hatom : ident.isAtom) (hident : m.Clean A ident) (hv : m.Clean A v)
    (hscope : m.Guards A scope.value) :
    Runs T m (scope.extend ident v) (scope.extend ident v) fun m₂ s => m₂.Clean A s.value :=
  (extend_of_builds (T := .free False) (fun _ _ _ => trivial) hm hident hv hscope).along id
    (hbinds hm hatom hident hv hscope)

end ArenaLisp
