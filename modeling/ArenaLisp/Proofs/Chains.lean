import ArenaLisp.Proofs.Acyclic
import ArenaLisp.Proofs.Bindings
import ArenaLisp.Proofs.Clear

/-!
# Scopes as chains

Any value can be taken for a scope, as it is when a closure is built by hand.  Where there are no cycles, a
value begins with bindings and comes to an end behind them: `nil`, the top-level marker or something that
is no chain (`Acyclic.exists_chain`).  A lookup finds the first of the bindings with the name, and asks the
end only if there is none; a new binding changes the lookups of its own name and nothing else
(`lookup_chain`).
-/

namespace ArenaLisp

/-- What there is to find at the end of a chain: nothing behind `nil`, the builtins behind the top-level
marker.  Anything else is no end of a chain. -/
def Scope.lookupAtEnd (i : AtomId) : Value → Except Stop (Option Value)
  | .nil => .ok none
  | .atom j =>
    if j = .topLevel then .ok ((Builtin.ofAtom? i).map .builtin) else .error (.illFormed .scope)
  | .pair _ | .builtin _ => .error (.illFormed .scope)

/-- Behind a chain, the search fails exactly if the end is neither `nil` nor the marker. -/
theorem Scope.lookupAtEnd_eq_error {i : AtomId} {s : Value} :
    lookupAtEnd i s = .error (.illFormed .scope) ↔ s ≠ .nil ∧ s ≠ .atom .topLevel := by
  cases s with
  | nil | pair _ | builtin _ => simp [lookupAtEnd]
  | atom j =>
    by_cases hj : j = .topLevel
    · simp [lookupAtEnd, hj]
    · simp [lookupAtEnd, hj]

namespace Arena

variable {a : Arena} {v s : Value} {bs : List (Value × Value)} {i : AtomId}

/-- Whether a chain ends at a value: it is no pair, or no entry stands in its first slot. -/
def EndsChain (a : Arena) (v : Value) : Prop := ∀ link, v = .pair link → (a.graph link).1.isPair = false

/-- A cell in use without poison shows its slots. -/
theorem Clear.pair?_eq_some {id : CellId} (h : a.Clear (.pair id)) : a.pair? id = some (a.graph id) :=
  pair?_eq_some_iff.mpr ⟨rfl, h id (a.graph.reaches_self id)⟩

theorem Binds.clear (h : a.Binds v bs s) (hv : a.Clear v) : a.Clear s := by
  induction h with
  | bare => exact hv
  | link hlink _ _ ih =>
    have hnext := hv.snd
    rw [(pair?_eq_some_iff.mp hlink).1] at hnext
    exact ih hnext

/-- Without cycles, a value begins with bindings and comes to an end behind them. -/
theorem Acyclic.exists_chain (h : a.Acyclic) (ha : a.Coherent) (hclear : a.Clear v)
    (hv : ¬ a.Dangling v) : ∃ bs s, a.Binds v bs s ∧ a.EndsChain s := by
  -- each link reaches fewer cells than the one before it
  induction hn : a.reachCount [v] using Nat.strong_induction_on generalizing v with
  | _ n ih =>
    subst hn
    cases v with
    | nil | atom _ | builtin _ => exact ⟨[], _, .bare _, nofun⟩
    | pair link =>
      cases hentry : (a.graph link).1 with
      | nil | atom _ | builtin _ =>
        refine ⟨[], _, .bare _, fun link' hlink' => ?_⟩
        rw [← Value.pair.inj hlink', hentry]
        rfl
      | pair entry =>
        have hlive := not_dangling_pair.mp hv
        obtain ⟨hnext, hlt⟩ := h.reachCount_slot_lt ha hlive (.inr rfl)
        obtain ⟨bs, s, hbinds, hends⟩ := ih _ hlt hclear.snd hnext rfl
        have hlink : a.pair? link = some (.pair entry, (a.graph link).2) := by
          rw [hclear.pair?_eq_some, ← hentry]
        exact ⟨_, s, .link hlink (hentry ▸ hclear.fst).pair?_eq_some hbinds, hends⟩

/-- A search that begins at the end of a chain. -/
theorem EndsChain.lookup (h : a.EndsChain s) (hclear : a.Clear s) (i : AtomId) :
    (⟨s⟩ : Scope).lookup a i = Scope.lookupAtEnd i s := by
  unfold Scope.lookup
  cases s with
  | nil | atom _ | builtin _ => rfl
  | pair link =>
    have hentry := h link rfl
    rw [Scope.lookupWithin_pair, hclear.car, ok_bind]
    cases hfst : (a.graph link).1 with
    | nil | atom _ | builtin _ => rfl
    | pair entry =>
      rw [hfst] at hentry
      cases hentry

/-- A search in a chain comes to the first binding of the name, or to what the end says. -/
theorem Binds.lookup_of_ends (h : a.Binds v bs s) (hends : a.EndsChain s) (hclear : a.Clear v)
    (i : AtomId) :
    (⟨v⟩ : Scope).lookup a i =
      match bs.find? (·.1 = .atom i) with
      | some b => .ok (some b.2)
      | none => Scope.lookupAtEnd i s := by
  refine (h.lookup i).trans ?_
  cases bs.find? (·.1 = .atom i) with
  | some b => rfl
  | none => exact hends.lookup (h.clear hclear) i

/-- A search in a chain fails exactly if it comes to an end that is none before it finds the name. -/
theorem Binds.lookup_eq_error (h : a.Binds v bs s) (hends : a.EndsChain s) (hclear : a.Clear v)
    (i : AtomId) :
    (⟨v⟩ : Scope).lookup a i = .error (.illFormed .scope) ↔
      (∀ b ∈ bs, b.1 ≠ .atom i) ∧ s ≠ .nil ∧ s ≠ .atom .topLevel := by
  rw [h.lookup_of_ends hends hclear i, ← Scope.lookupAtEnd_eq_error (i := i)]
  cases hfind : bs.find? (·.1 = .atom i) with
  | some b =>
    have hb : b.1 = .atom i := by simpa using List.find?_some hfind
    exact ⟨nofun, fun hnone => absurd hb (hnone.1 b (List.mem_of_find?_eq_some hfind))⟩
  | none =>
    have hnone : ∀ b ∈ bs, b.1 ≠ .atom i := by simpa using List.find?_eq_none.mp hfind
    exact ⟨fun hends => ⟨hnone, hends⟩, fun hends => hends.2⟩

end Arena

variable {m : Machine} {ident v : Value} {scope : Scope}

/-- A new binding in front of a scope that is pinned is found under its own name.  All other names are
looked up as before, and so are all names in the old scope, whether there was room for the binding or
not. -/
theorem meets_extend_lookup (hm : m.Coherent) (hident : ident.isAtom) (hv : ¬ m.arena.Dangling v)
    (hscope : m.Holds scope.value) (hreal : ident ≠ .poison ∧ v ≠ .poison ∧ scope.value ≠ .poison) :
    Meets m (scope.extend ident v)
      (fun s m₂ => ∀ i, scope.lookup m₂.arena i = scope.lookup m.arena i ∧
        s.lookup m₂.arena i = if ident = .atom i then .ok (some v) else scope.lookup m.arena i)
      (fun e m₂ => e = .failure .outOfMemory ∧
        ∀ i, scope.lookup m₂.arena i = scope.lookup m.arena i) := by
  refine (meets_extend hm hident hv hscope hreal).mono ?_ ?_
  · rintro s m₂ ⟨hkeeps, -, hbinds⟩ i
    have hold := (hkeeps.agreeOn hscope).lookup i
    refine ⟨hold, (hbinds.lookup i).trans ?_⟩
    rw [List.find?_singleton, hold]
    by_cases hi : ident = .atom i
    · rw [if_pos hi, if_pos (decide_eq_true hi)]
    · rw [if_neg hi, if_neg (by simpa using hi)]
  · rintro e m₂ ⟨hkeeps, he⟩
    exact ⟨he, fun i => (hkeeps.agreeOn hscope).lookup i⟩

/-- Scopes are association lists.  Where there are no cycles, every scope begins with bindings and comes to
an end behind them.  A lookup gives the first binding of the name, or what the end says if there is none:
`nil` binds nothing, the top-level marker the builtins, and at anything else the search fails; it fails for
no other reason.  A new binding in front of a scope that is pinned is found under its name, and leaves all
other lookups, in the new scope and in the old one, as they were; where there is no room for it, the old
scope is as it was. -/
theorem lookup_chain (hm : m.WellFormed) :
    (∀ scope : Scope, ¬ m.arena.Dangling scope.value →
      (m.arena.Acyclic → ∃ bs s, m.arena.Binds scope.value bs s ∧ m.arena.EndsChain s) ∧
      ∀ bs s, m.arena.Binds scope.value bs s → m.arena.EndsChain s → ∀ i,
        scope.lookup m.arena i =
          (match bs.find? (·.1 = .atom i) with
          | some b => .ok (some b.2)
          | none => Scope.lookupAtEnd i s) ∧
        (scope.lookup m.arena i = .error (.illFormed .scope) ↔
          (∀ b ∈ bs, b.1 ≠ .atom i) ∧ s ≠ .nil ∧ s ≠ .atom .topLevel)) ∧
    ∀ (scope : Scope) (ident v : Value), m.Holds scope.value → ident.isAtom →
      ¬ m.arena.Dangling v → ident ≠ .poison ∧ v ≠ .poison ∧ scope.value ≠ .poison →
      Meets m (scope.extend ident v)
        (fun s m₂ => ∀ i, scope.lookup m₂.arena i = scope.lookup m.arena i ∧
          s.lookup m₂.arena i = if ident = .atom i then .ok (some v) else scope.lookup m.arena i)
        (fun e m₂ => e = .failure .outOfMemory ∧
          ∀ i, scope.lookup m₂.arena i = scope.lookup m.arena i) := by
  refine ⟨fun scope hscope => ?_, fun scope ident v hscope hident hv hreal =>
    meets_extend_lookup hm.toCoherent hident hv hscope hreal⟩
  have hclear := hm.clear_of_not_dangling hscope
  refine ⟨fun hacyclic => hacyclic.exists_chain hm.arena hclear hscope, fun bs s hbinds hends i => ?_⟩
  exact ⟨hbinds.lookup_of_ends hends hclear i, hbinds.lookup_eq_error hends hclear i⟩

/-- A machine whose five cells are in use.  The first three are a scope that was built by hand: it binds the
atom 11 to `t`, and behind that is a link without an entry.  The other two are garbage. -/
def crookedMachine : Machine :=
  { Machine.new 5 none with
    arena := ((((Arena.empty 5).grow .nil .nil |>.grow (.atom ⟨11⟩) (.atom .t)).grow
      (.pair ⟨1⟩) (.pair ⟨0⟩)).grow .nil .nil).grow .nil .nil
    roots := [.pair ⟨2⟩] }

theorem acyclic_crookedMachine : crookedMachine.arena.Acyclic := by
  unfold crookedMachine
  refine .grow (by decide) ?_ nofun nofun
  refine .grow (by decide) ?_ nofun nofun
  refine .grow (by decide) ?_ (by decide) (by decide)
  refine .grow (by decide) ?_ nofun nofun
  exact (Arena.acyclic_empty 5).grow (by decide) nofun nofun

/-- The binding is found, and the search for another name fails.  A binding of this name takes the cells of
the garbage. -/
theorem lookup_chain_crookedMachine :
    let scope : Scope := ⟨.pair ⟨2⟩⟩
    (∃ bs s, crookedMachine.arena.Binds scope.value bs s ∧ crookedMachine.arena.EndsChain s) ∧
      scope.lookup crookedMachine.arena ⟨11⟩ = .ok (some (.atom .t)) ∧
      scope.lookup crookedMachine.arena ⟨12⟩ = .error (.illFormed .scope) ∧
      ∃ s m₂, (scope.extend (.atom ⟨12⟩) .nil).run crookedMachine = .ok s m₂ ∧
        m₂.arena.tally.collections = 1 ∧ s.lookup m₂.arena ⟨12⟩ = .ok (some .nil) ∧
        s.lookup m₂.arena ⟨11⟩ = .ok (some (.atom .t)) := by
  intro scope
  have hdangling : ¬ crookedMachine.arena.Dangling scope.value := by decide
  have hheld : crookedMachine.Holds scope.value := fun _ hid => .root (by simp [crookedMachine, ← hid, scope])
  have hbinds : crookedMachine.arena.Binds scope.value [(.atom ⟨11⟩, .atom .t)] (.pair ⟨0⟩) :=
    .link rfl rfl (.bare _)
  have hends : crookedMachine.arena.EndsChain (.pair ⟨0⟩) := fun _ hlink => by cases hlink; rfl
  obtain ⟨hchains, hextend⟩ := lookup_chain (m := crookedMachine) (by decide)
  obtain ⟨hexists, hlookup⟩ := hchains scope hdangling
  have hbound := (hlookup _ _ hbinds hends ⟨11⟩).1
  have hunbound := (hlookup _ _ hbinds hends ⟨12⟩).2.mpr ⟨by decide, by decide, by decide⟩
  have hmeets := hextend scope (.atom ⟨12⟩) .nil hheld rfl nofun (by decide)
  have hcollected : (match (scope.extend (.atom ⟨12⟩) .nil).run crookedMachine with
      | .ok _ m₂ => m₂.arena.tally.collections
      | .error _ _ => 0) = 1 := by
    decide +kernel
  cases hrun : (scope.extend (.atom ⟨12⟩) .nil).run crookedMachine with
  | ok s m₂ =>
    rw [hrun] at hcollected
    have hnew := hmeets.of_ok hrun
    refine ⟨hexists acyclic_crookedMachine, hbound, hunbound, s, m₂, rfl, hcollected, (hnew ⟨12⟩).2, ?_⟩
    exact (hnew ⟨11⟩).2.trans hbound
  | error e m₂ =>
    rw [hrun] at hcollected
    cases hcollected

end ArenaLisp
