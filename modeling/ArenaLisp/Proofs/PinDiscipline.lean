import ArenaLisp.Proofs.EvalInStep

/-!
# The pin discipline

A machine keeps step with itself, whatever its free cells hold.  From this it follows that evaluation
leaves what is pinned as it was (`evalIn_keeps`), and that on a well-formed machine it reads no cell
but those in use, wherever collections fall (`evalIn_reads_live`).
-/

namespace ArenaLisp

namespace Arena.Agrees

variable {a a' : Arena} {v : Value}

theorem dangling_iff (h : a.Agrees a') : a'.Dangling v ↔ a.Dangling v := by
  rw [Dangling, Dangling, h.free, used, used, h.size]

theorem coherent (h : a.Agrees a') (ha : a.Coherent) : a'.Coherent where
  free_nodup := h.free ▸ ha.free_nodup
  free_lt id hid := by
    rw [used, h.size]
    exact ha.free_lt id (h.free ▸ hid)
  used_le := by
    rw [used, h.size, h.capacity]
    exact ha.used_le
  not_dangling id hid := by
    have hlive := h.live_iff.mp hid
    rw [h.graph_eq hlive.2, h.dangling_iff, h.dangling_iff]
    exact ha.not_dangling id hlive

theorem wellFormed {m : Machine} (h : m.arena.Agrees a') (hm : m.WellFormed) :
    ({ m with arena := a' } : Machine).WellFormed where
  arena := h.coherent hm.arena
  roots v hv := h.dangling_iff.not.mpr (hm.roots v hv)
  no_poison id hid := by
    have hlive := h.live_iff.mp hid
    rw [h.graph_eq hlive.2]
    exact hm.no_poison id hlive

end Arena.Agrees

/-- Two actions that do the same in either direction answer alike, a lack of room included. -/
theorem InStep.both {M : Mode} {w w' : World} {α β : Type} {act : Action α} {act' : Action β}
    {Q : World → α → β → Prop} {Q' : World → β → α → Prop} (hM : M.clean) (hample : M.ample)
    (h : InStep M w act act' Q) (h' : InStep M w' act' act Q') (hleft : w'.left = w.right)
    (hright : w'.right = w.left) :
    match act.run w.left with
    | .ok x m => ∃ x' m' ρ, act'.run w.right = .ok x' m' ∧ World.Ok M ⟨ρ, m, m'⟩ ∧ Q ⟨ρ, m, m'⟩ x x'
    | .error e _ => e.Regular ∧ ∃ m', act'.run w.right = .error e m' := by
  have h := h.of_ample hample
  have h' := h'.of_ample hample
  rw [hleft, hright] at h'
  cases hrun : act.run w.left with
  | ok x m =>
    rw [hrun] at h
    obtain ⟨x', m', ρ, hrun', -, hok, hx⟩ := h
    exact ⟨x', m', ρ, hrun', hok, hx⟩
  | error e m =>
    rw [hrun] at h
    rcases h.2 with he | ⟨he, m', hrun', -⟩
    · obtain rfl := he.of_clean hM
      refine ⟨nofun, ?_⟩
      -- the left has no room, and so the right may not end otherwise
      cases hrun' : act'.run w.right with
      | ok x' m' =>
        rw [hrun', hrun] at h'
        obtain ⟨_, _, _, habsurd, -⟩ := h'
        cases habsurd
      | error e' m' =>
        rw [hrun', hrun] at h'
        rcases h'.2 with he' | ⟨-, _, hsame, -⟩
        · exact ⟨m', by rw [he'.of_clean hM]⟩
        · cases hsame
          exact ⟨m', rfl⟩
    · exact ⟨he, m', hrun'⟩

/-! ### A machine and itself -/

namespace World

/-- A machine beside itself, with another content in the free cells. -/
def twin (M : Mode) (m : Machine) (a' : Arena) : World where
  ren :=
    { cell := fun x x' => x = x' ∧ m.arena.Live x
      atom := fun i i' => i = i' ∧ (M.clean → Value.atom i ≠ .poison) }
  left := m
  right := { m with arena := a' }

variable {M : Mode} {m : Machine} {a' : Arena} {v v' : Value}

@[simp] theorem twin_left : (twin M m a').left = m := rfl

@[simp] theorem twin_right : (twin M m a').right = { m with arena := a' } := rfl

theorem rel_twin (hv : ¬ m.arena.Dangling v) (hp : M.clean → v ≠ .poison) :
    (twin M m a').Rel v v := by
  cases v with
  | nil => exact .nil
  | atom i => exact .atom ⟨rfl, hp⟩
  | pair x => exact .pair ⟨rfl, Arena.not_dangling_pair.mp hv⟩
  | builtin b => exact .builtin b

theorem eq_of_rel_twin (h : (twin M m a').Rel v v') : v = v' := by
  cases h with
  | nil | builtin _ => rfl
  | atom h => rw [h.1]
  | pair h => rw [h.1]

theorem ok_twin (hm : m.Coherent) (hclean : M.clean → m.WellFormed)
    (hagrees : m.arena.Agrees a') : (twin M m a').Ok M where
  left := hm
  right := ⟨hagrees.coherent hm.arena, fun v hv => hagrees.dangling_iff.not.mpr (hm.roots v hv)⟩
  lawful := by
    refine ⟨?_, fun hi => ⟨rfl, fun _ hp => ?_⟩, ?_⟩
    · rintro i i' j j' ⟨rfl, -⟩ ⟨rfl, -⟩
      rfl
    · cases hp
      exact absurd hi (by decide)
    · rintro i i' ⟨rfl, -⟩
      rfl
  cells := by
    have hslots : ∀ {x x'}, x = x' ∧ m.arena.Live x →
        (twin M m a').Rel (m.arena.graph x).1 (a'.graph x').1 ∧
          (twin M m a').Rel (m.arena.graph x).2 (a'.graph x').2 := by
      rintro x _ ⟨rfl, hlive⟩
      rw [hagrees.graph_eq hlive.2]
      obtain ⟨hcar, hcdr⟩ := hm.arena.not_dangling x hlive
      exact ⟨rel_twin hcar fun h => ((hclean h).no_poison x hlive).1,
        rel_twin hcdr fun h => ((hclean h).no_poison x hlive).2⟩
    refine ⟨?_, fun hx => hx.2, ?_, fun hx => (hslots hx).1, fun hx => (hslots hx).2⟩
    · rintro x x' y y' ⟨rfl, -⟩ ⟨rfl, -⟩
      rfl
    · rintro x _ ⟨rfl, hlive⟩
      exact hagrees.live_iff.mpr hlive
  roots _ := by
    refine List.forall₂_same.mpr fun v hv => ?_
    by_cases hp : v = .poison
    · exact .inr ⟨hp, hp⟩
    · exact .inl (rel_twin (hm.roots v hv) fun _ => hp)
  names := by
    rintro i _ ⟨rfl, -⟩
    rfl
  threshold := rfl
  capacity _ := UInt32.le_of_eq hagrees.capacity.symm
  agrees _ := hagrees
  eq_of_rel _ _ _ := eq_of_rel_twin
  clean hc := by
    rintro i _ ⟨-, hp⟩
    exact hp hc

end World

/-! ### Evaluation -/

variable {m : Machine} {expr : Value} {scope : Scope}

/-- Evaluation leaves the root stack and what it reaches as they were, however it ends, and its value
does not dangle. -/
theorem evalIn_keeps (fuel : Nat) (hm : m.Coherent) (hexpr : ¬ m.arena.Dangling expr)
    (hscope : m.Holds scope.value) :
    match (evalIn fuel expr scope).run m with
    | .ok v m₂ => m.Keeps m₂ ∧ ¬ m₂.arena.Dangling v
    | .error _ m₂ => m.Keeps m₂ := by
  have hok := World.ok_twin (M := .loose) hm False.elim (.refl m.arena)
  have hheld := hok.held trivial (World.rel_twin (hm.not_dangling hscope) False.elim) hscope
  have hstep := (evalIn_inStep .loose fuel hok (World.rel_twin hexpr False.elim) hheld).of_ample trivial
  rw [World.twin_left, World.twin_right] at hstep
  cases hrun : (evalIn fuel expr scope).run m with
  | ok v m₂ =>
    rw [hrun] at hstep
    obtain ⟨v', m₂', ρ, -, hnext, hok, hv⟩ := hstep
    exact ⟨hnext.left, hok.not_dangling_left hv⟩
  | error e m₂ =>
    rw [hrun] at hstep
    exact hstep.1

/-- A well-formed machine keeps step with itself when the free cells hold something else. -/
theorem evalIn_inStep_twin {a' : Arena} (fuel : Nat) (hm : m.WellFormed)
    (hexpr : ¬ m.arena.Dangling expr) (hscope : m.Holds scope.value) (hreal : scope.value ≠ .poison)
    (hagrees : m.arena.Agrees a') :
    InStep .strict (World.twin .strict m a') (evalIn fuel expr scope)
      (evalIn fuel expr scope) fun w₂ v v' => w₂.Rel v v' := by
  have hok := World.ok_twin (M := .strict) hm.toCoherent (fun _ => hm) hagrees
  have hscope' : (World.twin .strict m a').Rel scope.value scope.value :=
    World.rel_twin (hm.not_dangling hscope) fun _ => hreal
  by_cases hp : expr = .poison
  · subst hp
    cases fuel with
    | zero => exact .throw hok nofun
    | succ fuel =>
      -- poison corresponds to nothing here, but as a name it is told apart from all others alike
      show InStep _ _ (Eval.evalAtom ⟨0xCCCCCCCC⟩ scope) (Eval.evalAtom ⟨0xCCCCCCCC⟩ scope) _
      refine InStep.evalAtom hok ?_ rfl hscope'
      rintro j _ ⟨rfl, -⟩
      rfl
  · exact evalIn_inStep _ fuel hok (World.rel_twin hexpr fun _ => hp) (hok.held trivial hscope' hscope)

/-- Evaluation reads no cell but those in use: it never stops at the reading of a free cell, its value
does not dangle, and it does not depend on what free cells hold. -/
theorem evalIn_reads_live {a' : Arena} (fuel : Nat) (hm : m.WellFormed)
    (hexpr : ¬ m.arena.Dangling expr) (hscope : m.Holds scope.value) (hreal : scope.value ≠ .poison)
    (hagrees : m.arena.Agrees a') :
    match (evalIn fuel expr scope).run m with
    | .ok v m₂ => ¬ m₂.arena.Dangling v ∧
        ∃ m₂', (evalIn fuel expr scope).run { m with arena := a' } = .ok v m₂' ∧
          m₂.arena.Agrees m₂'.arena
    | .error e _ => e.Regular ∧
        ∃ m₂', (evalIn fuel expr scope).run { m with arena := a' } = .error e m₂' := by
  have hm' := hagrees.wellFormed hm
  have hscope' : ({ m with arena := a' } : Machine).Holds scope.value := fun id hid =>
    (Graph.reaches_congr fun x hx => hagrees.graph_eq (hm.live hx).2).mpr (hscope id hid)
  have hboth := InStep.both trivial trivial (evalIn_inStep_twin fuel hm hexpr hscope hreal hagrees)
    (evalIn_inStep_twin fuel hm' (hagrees.dangling_iff.not.mpr hexpr) hscope' hreal hagrees.symm)
    rfl rfl
  rw [World.twin_left, World.twin_right] at hboth
  cases hrun : (evalIn fuel expr scope).run m with
  | ok v m₂ =>
    rw [hrun] at hboth
    obtain ⟨v', m₂', ρ, hrun', hok, hv⟩ := hboth
    obtain rfl := hok.eq_of_rel trivial _ _ hv
    exact ⟨hok.not_dangling_left hv, m₂', hrun', hok.agrees trivial⟩
  | error e m₂ =>
    rw [hrun] at hboth
    exact hboth

/-- A machine that holds `(cons t t)` in three cells, and has a fourth cell that is free and still holds
what it held. -/
def staleMachine : Machine :=
  { Machine.new 4 none with
    arena := ⟨#[⟨.atom (Builtin.atom .cons), .pair ⟨1⟩, false⟩, ⟨.atom .t, .pair ⟨2⟩, false⟩,
      ⟨.atom .t, .nil, false⟩, ⟨.pair ⟨0⟩, .nil, false⟩], [⟨3⟩], 4, ⟨0, 0⟩⟩ }

/-- The pair is built in the free cell, whatever that held. -/
theorem evalIn_reads_live_staleMachine : ∃ m m' : Machine,
    (evalIn 2 (.pair ⟨0⟩) .top).run staleMachine = .ok (.pair ⟨3⟩) m ∧
      ¬ m.arena.Dangling (.pair ⟨3⟩) ∧
      (evalIn 2 (.pair ⟨0⟩) .top).run
        { staleMachine with
          arena := { staleMachine.arena with
            cells := staleMachine.arena.cells.setIfInBounds 3 .free } } = .ok (.pair ⟨3⟩) m' ∧
      m.arena.Agrees m'.arena := by
  have hwell : staleMachine.WellFormed := by decide
  have hexpr : ¬ staleMachine.arena.Dangling (.pair ⟨0⟩) := by decide
  have hscope : staleMachine.Holds Scope.top.value := nofun
  have hfree : (⟨3⟩ : CellId) ∈ staleMachine.arena.free := List.mem_singleton.mpr rfl
  have hlive := evalIn_reads_live 2 hwell hexpr hscope (by decide)
    (Arena.Agrees.overwrite hfree .free)
  obtain ⟨hdangling, m', hrun, hagrees⟩ := hlive
  exact ⟨_, m', rfl, hdangling, hrun, hagrees⟩

end ArenaLisp
