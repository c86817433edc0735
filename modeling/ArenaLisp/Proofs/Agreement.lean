import ArenaLisp.Proofs.Clear
import ArenaLisp.Proofs.Cut
import ArenaLisp.Proofs.PinDiscipline

/-!
# Expressions that come to the same

Two different expressions can take different ways to the same end, and pin different values and allocate
different pairs on their way.  In worlds that need not be ample, the two sides may therefore pin values that
do not correspond, and the right may do something that the left does not: pin one value more
(`InStep.pinned_right`), or work that keeps what is pinned (`InStep.right_first`).  If two evaluations are
in step within every bound, up to where they are cut off, they agree: they diverge both, fail alike, or have
values that correspond, unless one of them runs out of room (`World.Agree.of_inStep`).
-/

namespace ArenaLisp

/-! ### Work on one side -/

namespace World

variable {M : Mode} {w : World} {v v' u : Value} {m : Machine}

/-- Where the roots need not correspond, any values that do not dangle may be pinned side by side. -/
theorem Ok.pin_apart (h : w.Ok .apart) (hv : ¬ w.left.arena.Dangling v)
    (hv' : ¬ w.right.arena.Dangling v') : (w.pin v v').Ok .apart :=
  { h with left := h.left.pin hv, right := h.right.pin hv', roots := False.elim }

/-- The world with one more value pinned on the right. -/
def pinRight (w : World) (v : Value) : World := ⟨w.ren, w.left, w.right.pin v⟩

theorem Held.pinRight (h : w.Held v v') : (w.pinRight u).Held v v' := ⟨h.1, h.2.1, h.2.2.pin⟩

theorem Ok.pinRight (h : w.Ok .apart) (hv : ¬ w.right.arena.Dangling v) : (w.pinRight v).Ok .apart :=
  { h with right := h.right.pin hv, roots := False.elim }

/-- The renaming of what the right holds. -/
def heldRen (w : World) : Renaming where
  cell x x' := w.ren.cell x x' ∧ w.right.Pinned x'
  atom := w.ren.atom

/-- Work on the right that keeps what is pinned there leads to a world in which what the right holds goes on
corresponding. -/
theorem Ok.right_kept (h : w.Ok .apart) (hkeeps : w.right.Keeps m)
    (hlexicon : m.lexicon = w.right.lexicon) :
    World.Ok .apart ⟨w.heldRen, w.left, m⟩ ∧ w.Next ⟨w.heldRen, w.left, m⟩ := by
  have hrel : ∀ {v v'}, w.Rel v v' → w.right.Holds v' → w.heldRen.Rel v v' :=
    fun hv hholds => hv.mono (fun x x' _ hx' hx => ⟨hx, hholds x' hx'⟩) fun _ _ hi => hi
  constructor
  · exact
      { left := h.left
        right := hkeeps.coherent
        lawful := ⟨h.lawful.atom_inj, h.lawful.fixed, h.lawful.poison⟩
        cells := by
          refine ⟨fun hx hy => h.cells.cell_inj hx.1 hy.1, fun hx => h.cells.live_left hx.1, ?_, ?_, ?_⟩
          · exact fun hx => hkeeps.coherent.live (hkeeps.pinned_iff.mpr hx.2)
          · intro x x' hx
            rw [hkeeps.graph x' hx.2]
            exact hrel (h.cells.car hx.1) fun y hy => hx.2.child (.inl hy)
          · intro x x' hx
            rw [hkeeps.graph x' hx.2]
            exact hrel (h.cells.cdr hx.1) fun y hy => hx.2.child (.inr hy)
        roots := False.elim
        names := fun i i' hi => (h.names i i' hi).trans (congrArg (Lexicon.name · i') hlexicon.symm)
        threshold := hkeeps.threshold.trans h.threshold
        capacity := False.elim
        agrees := False.elim
        eq_of_rel := False.elim
        clean := h.clean }
  · exact ⟨.refl h.left, hkeeps, fun _ _ _ hp' hx => ⟨hx, hp'⟩, fun _ _ hi => hi⟩

/-- A well-formed machine beside itself. -/
def self (m : Machine) : World := twin .apart m m.arena

theorem ok_self (hm : m.WellFormed) : (self m).Ok .apart :=
  ok_twin hm.toCoherent (fun _ => hm) (.refl m.arena)

theorem rel_self (hv : ¬ m.arena.Dangling v) (hreal : v ≠ .poison) : (self m).Rel v v :=
  rel_twin hv fun _ => hreal

/-- Without poison, values that correspond can be read. -/
theorem Ok.clear (h : w.Ok M) (hM : M.clean) (hv : w.Rel v v') : w.left.arena.Clear v := by
  have hreal : ∀ {u u'}, w.Rel u u' → u ≠ .poison := by
    rintro u u' hu rfl
    cases hu with
    | atom hi => exact h.clean hM _ _ hi rfl
  intro x hx
  obtain ⟨x', hcell, -⟩ := h.cells.reaches (.cons (.inl hv) .nil) hx
  exact ⟨hreal (h.cells.car hcell), hreal (h.cells.cdr hcell)⟩

end World

namespace InStep

variable {w : World} {v : Value} {act act' : Action Value} {m : Machine}

/-- A pin on the right, for the length of an action. -/
theorem pinned_right (h : InStep .apart (w.pinRight v) act act' fun w₂ x x' => w₂.Rel x x') :
    InStep .apart w act (Action.pinned v act') fun w₂ x x' => w₂.Rel x x' := by
  rcases h with hlacks | h
  · exact .inl hlacks.pinned
  refine .inr ?_
  cases hrun : act.run w.left with
  | ok x m =>
    rw [show act.run (w.pinRight v).left = _ from hrun] at h
    obtain ⟨x', m', ρ, hrun', hnext, hok, hx⟩ := h
    refine ⟨x', m'.unpin, ρ, ?_, ⟨hnext.left, hnext.right.unpin, ?_, hnext.atom⟩, ?_, hx⟩
    · rw [Action.run_pinned, show act'.run (w.right.pin v) = _ from hrun']
      rfl
    · exact fun z z' hz hz' hcell => hnext.cell z z' hz hz'.pin hcell
    · exact { hok with right := hok.right.unpin, roots := False.elim }
  | error e m =>
    rw [show act.run (w.pinRight v).left = _ from hrun] at h
    refine ⟨h.1, h.2.imp_right ?_⟩
    rintro ⟨he, m', hrun', hkeeps⟩
    refine ⟨he, m'.unpin, ?_, hkeeps.unpin⟩
    rw [Action.run_pinned, show act'.run (w.right.pin v) = _ from hrun']
    rfl

/-- Work on the right, before the left begins. -/
theorem right_first {Q : World → Value → Value → Prop} {act₂ : Action Value} (hw : w.Ok .apart)
    (hkeeps : w.right.Keeps m) (hlexicon : m.lexicon = w.right.lexicon)
    (hrun : act'.run w.right = act₂.run m)
    (h : ∀ ρ, w.Next ⟨ρ, w.left, m⟩ → World.Ok .apart ⟨ρ, w.left, m⟩ →
      InStep .apart ⟨ρ, w.left, m⟩ act act₂ Q) : InStep .apart w act act' Q := by
  obtain ⟨hok, hnext⟩ := hw.right_kept hkeeps hlexicon
  exact (h w.heldRen hnext hok).of_runs hnext rfl hrun

variable {Q : World → Value → Value → Prop} {m' : Machine}

/-- Where the right is cut off, so is the left, or else it has run out of room. -/
theorem of_unfinished (h : InStep .apart w act act' Q)
    (hrun' : act'.run w.right = .error .unfinished m') :
    ∃ m, act.run w.left = .error .unfinished m ∨
      act.run w.left = .error (.failure .outOfMemory) m := by
  rw [InStep, Mode.Lacks, hrun'] at h
  obtain ⟨-, m₂, hroom⟩ | h := h
  · cases hroom
  cases hrun : act.run w.left with
  | ok x m =>
    rw [hrun] at h
    obtain ⟨_, _, _, habsurd, -⟩ := h
    cases habsurd
  | error e m =>
    rw [hrun] at h
    rcases h.2 with he | ⟨-, m₂, he, -⟩
    · exact ⟨m, .inr (by rw [he.of_clean trivial])⟩
    · cases he
      exact ⟨m, .inl rfl⟩

/-- Where the left is cut off, so is the right, or else it has run out of room. -/
theorem of_unfinished_left (h : InStep .apart w act act' Q)
    (hrun : act.run w.left = .error .unfinished m) :
    ∃ m', act'.run w.right = .error .unfinished m' ∨
      act'.run w.right = .error (.failure .outOfMemory) m' := by
  rw [InStep, hrun] at h
  rcases h with ⟨-, m', hroom⟩ | ⟨-, he | ⟨-, m', hrun', -⟩⟩
  · exact ⟨m', .inr hroom⟩
  · cases he.of_clean trivial
  · exact ⟨m', .inl hrun'⟩

end InStep

/-! ### What evaluations come to -/

namespace Machine

variable {m m₂ : Machine} {expr v : Value} {scope : Scope} {why : Failure}

/-- Whether no bound lets an evaluation end. -/
def Diverges (m : Machine) (expr : Value) (scope : Scope) : Prop :=
  ∀ fuel, ∃ m₂, (evalIn fuel expr scope).run m = .error .unfinished m₂

/-- Whether an evaluation ends with a value, within a bound. -/
def Gives (m : Machine) (expr : Value) (scope : Scope) (v : Value) (m₂ : Machine) : Prop :=
  ∃ fuel, (evalIn fuel expr scope).run m = .ok v m₂

/-- Whether an evaluation ends with a failure, within a bound. -/
def Fails (m : Machine) (expr : Value) (scope : Scope) (why : Failure) : Prop :=
  ∃ fuel m₂, (evalIn fuel expr scope).run m = .error (.failure why) m₂

end Machine

/-- Whether two evaluations come to the same: they diverge both; or one of them runs out of room; or they
fail alike; or they have values that correspond, print the same, and are told alike from all other values
that correspond. -/
def World.Agree (w : World) (expr : Value) (scope : Scope) (expr' : Value) (scope' : Scope) : Prop :=
  w.left.Diverges expr scope ∧ w.right.Diverges expr' scope' ∨
  w.left.Fails expr scope .outOfMemory ∨ w.right.Fails expr' scope' .outOfMemory ∨
  (∃ why, w.left.Fails expr scope why ∧ w.right.Fails expr' scope' why) ∨
  ∃ v v' w₂, w.left.Gives expr scope v w₂.left ∧ w.right.Gives expr' scope' v' w₂.right ∧
    w.Next w₂ ∧ w₂.Ok .apart ∧ w₂.Rel v v' ∧
    (∃ text, w₂.left.render v = .ok text ∧ w₂.right.render v' = .ok text) ∧
    ∀ u u', w₂.Rel u u' → (v = u ↔ v' = u')

/-- The same run from a machine, unless the first is cut off. -/
def CutAt {α : Type} (m : Machine) (act act' : Action α) : Prop :=
  act.run m = act'.run m ∨ ∃ m', act.run m = .error .unfinished m'

theorem CutAt.trans {α : Type} {m : Machine} {act act' act₂ : Action α} (h : CutAt m act act')
    (h' : CutAt m act' act₂) : CutAt m act act₂ := by
  rcases h with h | h
  · rw [CutAt, h]
    exact h'
  · exact .inr h

theorem Stop.Regular.failure_or_unfinished {e : Stop} (he : e.Regular) :
    (∃ why, e = .failure why) ∨ e = .unfinished := by
  rcases e with why | id | -
  · exact .inl ⟨why, rfl⟩
  · exact absurd rfl (he id)
  · exact .inr rfl

namespace World.Agree

variable {w : World} {expr expr' : Value} {scope scope' : Scope}

/-- Evaluations in step agree if the left is not cut off. -/
theorem of_run {fuel fuel' : Nat}
    (h : InStep .apart w (evalIn fuel expr scope) (evalIn fuel' expr' scope') fun w₂ v v' => w₂.Rel v v')
    (hends : ∀ m, (evalIn fuel expr scope).run w.left ≠ .error .unfinished m) :
    w.Agree expr scope expr' scope' := by
  rcases h with ⟨-, m', hrun'⟩ | h
  · exact .inr (.inr (.inl ⟨fuel', m', hrun'⟩))
  cases hrun : (evalIn fuel expr scope).run w.left with
  | ok v m =>
    rw [hrun] at h
    obtain ⟨v', m', ρ, hrun', hnext, hok, hv⟩ := h
    refine .inr (.inr (.inr (.inr
      ⟨v, v', ⟨ρ, m, m'⟩, ⟨fuel, hrun⟩, ⟨fuel', hrun'⟩, hnext, hok, hv, ?_, fun u u' hu => ?_⟩)))
    · obtain ⟨text, htext⟩ := Machine.exists_render (hok.clear trivial hv)
      have hrender := hok.render hv
      rw [htext] at hrender
      obtain ⟨_, htext', rfl⟩ := hrender
      exact ⟨text, htext, htext'⟩
    · exact hok.lawful.eq_iff hok.cells hv hu
  | error e m =>
    rw [hrun] at h
    rcases h.2 with he | ⟨he, m', hrun', -⟩
    · obtain rfl := he.of_clean trivial
      exact .inr (.inl ⟨fuel, m, hrun⟩)
    · rcases he.failure_or_unfinished with ⟨why, rfl⟩ | rfl
      · exact .inr (.inr (.inr (.inl ⟨why, ⟨fuel, m, hrun⟩, fuel', m', hrun'⟩)))
      · exact absurd hrun (hends m)

/-- Evaluations agree if the left is in step, within every bound, with something that is cut off by the
evaluation on the right and cuts it off. -/
theorem of_inStep (k : Nat) (act : Nat → Action Value) (hw : w.Ok .apart)
    (h : ∀ n, InStep .apart w (evalIn (n + k) expr scope) (act n) fun w₂ v v' => w₂.Rel v v')
    (hover : ∀ n, ∃ fuel, CutAt w.right (act n) (evalIn fuel expr' scope'))
    (hunder : ∀ fuel, ∃ n, CutAt w.right (evalIn fuel expr' scope') (act n)) :
    w.Agree expr scope expr' scope' := by
  by_cases hleft : ∃ n, ∀ m, (evalIn (n + k) expr scope).run w.left ≠ .error .unfinished m
  · obtain ⟨n, hends⟩ := hleft
    obtain ⟨fuel, hrun | ⟨m', hrun⟩⟩ := hover n
    · exact .of_run ((h n).of_runs (.refl hw) rfl hrun.symm) hends
    · obtain ⟨m, hcut | hroom⟩ := (h n).of_unfinished hrun
      · exact absurd hcut (hends m)
      · exact .inr (.inl ⟨n + k, m, hroom⟩)
  push Not at hleft
  by_cases hright : ∃ n, ∀ m, (act n).run w.right ≠ .error .unfinished m
  · -- the right can only have run out of room
    obtain ⟨n, hends⟩ := hright
    obtain ⟨m, hcut⟩ := hleft n
    obtain ⟨fuel, hrun | ⟨m', hrun⟩⟩ := hover n
    · rcases (h n).of_unfinished_left hcut with ⟨m', hrun' | hrun'⟩
      · exact absurd hrun' (hends m')
      · exact .inr (.inr (.inl ⟨fuel, m', hrun.symm.trans hrun'⟩))
    · exact absurd hrun (hends m')
  push Not at hright
  refine .inl ⟨fun fuel => ?_, fun fuel => ?_⟩
  · rcases evalIn_cuts (Nat.le_add_right fuel k) expr scope w.left with hrun | hcut
    · rw [hrun]
      exact hleft fuel
    · exact hcut
  · obtain ⟨n, hrun | hcut⟩ := hunder fuel
    · rw [hrun]
      exact hright n
    · exact hcut

end World.Agree

end ArenaLisp
