import ArenaLisp.Proofs.EvalInStep
import ArenaLisp.Proofs.ReadInStep

/-!
# The capacity cannot be told from a program

A program that is worked through with room enough gives the same with more room
(`run_outcomes_of_le_capacity`), although the arenas are collected at different times and the pairs lie
in different cells.  Nothing is pinned between two expressions, so that a new renaming can begin with
each.
-/

namespace ArenaLisp

variable {M : Mode} {w : World} {fuel : Nat}

/-- Evaluation leaves the lexicon as it is. -/
theorem lexicon_frame : Frame fun m m₂ => m₂.lexicon = m.lexicon where
  refl _ := rfl
  trans h h' := h'.trans h
  allocated _ _ _ := rfl
  record _ _ := rfl
  unpin h := h

theorem Leaves.evalRender {T : Machine → Machine → Prop} (hT : Frame T) (fuel : Nat) (expr : Value) :
    Leaves T (Program.evalRender fuel expr) :=
  .bind hT (evalIn_leaves hT _ _ _) fun _ => .asking hT _

/-- Expressions that correspond have values that print the same. -/
theorem InStep.evalRender {expr expr' : Value} (fuel : Nat) (hw : w.Ok M)
    (hexpr : w.Rel expr expr') :
    InStep M w (Program.evalRender fuel expr) (Program.evalRender fuel expr')
      fun _ text text' => text = text' := by
  refine (InStep.eval fuel hw hexpr).bind fun w₂ v v' _ hw₂ hv => ?_
  exact (InStep.render hw₂ hv).mono fun _ _ _ _ _ h => h.2

/-- Whether an expression was worked through, and did not want for room. -/
def Outcome.Settled : Outcome → Prop
  | value _ => True
  | failed why | unread why => why ≠ .outOfMemory
  | broken _ => False

instance : DecidablePred Outcome.Settled
  | .value _ => isTrue trivial
  | .failed why | .unread why => inferInstanceAs (Decidable (why ≠ .outOfMemory))
  | .broken _ => isFalse id

/-- Two machines between two expressions of a text, of which the second has no less room. -/
structure Aligned (s s' : Reading) : Prop where
  left : s.machine.Coherent
  right : s'.machine.Coherent
  roots : s.machine.roots = [] ∧ s'.machine.roots = []
  lexicon : s'.machine.lexicon = s.machine.lexicon
  threshold : s'.machine.log.threshold = s.machine.log.threshold
  capacity : s.machine.arena.capacity ≤ s'.machine.arena.capacity
  cursor : s'.cursor = s.cursor

namespace Aligned

variable {s s' : Reading} {m m' : Machine}

theorem takeRecords (h : Aligned s s') :
    Aligned ⟨s.machine.takeRecords.2, s.cursor⟩ ⟨s'.machine.takeRecords.2, s'.cursor⟩ :=
  { h with
    left := ⟨h.left.arena, h.left.roots⟩
    right := ⟨h.right.arena, h.right.roots⟩ }

theorem new {c c' : UInt32} (hc : c ≤ c') (threshold : Option Level) (cursor : Cursor) :
    Aligned ⟨.new c threshold, cursor⟩ ⟨.new c' threshold, cursor⟩ where
  left := Machine.coherent_new c threshold
  right := Machine.coherent_new c' threshold
  roots := ⟨rfl, rfl⟩
  lexicon := rfl
  threshold := rfl
  capacity := hc
  cursor := rfl

/-- What keeps the root stacks and the lexicons alike leaves machines that can go on. -/
theorem keeps (h : Aligned s s') (hkeeps : s.machine.Keeps m) (hkeeps' : s'.machine.Keeps m')
    (hlexicon : m'.lexicon = m.lexicon) (c : Cursor) : Aligned ⟨m, c⟩ ⟨m', c⟩ where
  left := hkeeps.coherent
  right := hkeeps'.coherent
  roots := ⟨hkeeps.roots.trans h.roots.1, hkeeps'.roots.trans h.roots.2⟩
  lexicon := hlexicon
  threshold := hkeeps'.threshold.trans (h.threshold.trans hkeeps.threshold.symm)
  capacity := by
    show m.arena.capacity ≤ m'.arena.capacity
    rw [hkeeps.capacity, hkeeps'.capacity]
    exact h.capacity
  cursor := rfl

/-- Expressions that correspond come to the same, and leave machines that can go on. -/
theorem evalRender (fuel : Nat) {c : Cursor} (h : Aligned ⟨w.left, c⟩ ⟨w.right, c⟩) (hw : w.Ok .loose)
    {expr expr' : Value} (hexpr : w.Rel expr expr') :
    match (Program.evalRender fuel expr).run w.left with
    | .ok text m => ∃ m', (Program.evalRender fuel expr').run w.right = .ok text m' ∧
        Aligned ⟨m, c⟩ ⟨m', c⟩
    | .error (.failure why) m => why ≠ .outOfMemory →
        ∃ m', (Program.evalRender fuel expr').run w.right = .error (.failure why) m' ∧
          Aligned ⟨m, c⟩ ⟨m', c⟩
    | .error (.fault _) _ => True := by
  have hstep := (InStep.evalRender fuel hw hexpr).of_ample trivial
  have hleft := Leaves.evalRender lexicon_frame fuel expr w.left
  have hright := Leaves.evalRender lexicon_frame fuel expr' w.right
  have hlexicon : w.right.lexicon = w.left.lexicon := h.lexicon
  cases hrun : (Program.evalRender fuel expr).run w.left with
  | ok text m =>
    rw [hrun] at hstep hleft
    obtain ⟨_, m', ρ, hrun', hnext, -, rfl⟩ := hstep
    rw [hrun'] at hright
    exact ⟨m', hrun', h.keeps hnext.left hnext.right
      (hright.trans (hlexicon.trans hleft.symm)) c⟩
  | error e m =>
    rw [hrun] at hstep hleft
    cases e with
    | fault fault => trivial
    | failure why =>
      rintro hroom
      rcases hstep.2 with (he | ⟨-, _, he⟩) | ⟨-, m', hrun', hkeeps'⟩
      · cases he
        exact absurd rfl hroom
      · cases he
      · rw [hrun'] at hright
        exact ⟨m', hrun', h.keeps hstep.1 hkeeps' (hright.trans (hlexicon.trans hleft.symm)) c⟩

/-- The next expression comes to the same, and leaves machines that can go on. -/
theorem next (h : Aligned s s') {o : Option Outcome} {s₂ : Reading}
    (hnext : Program.next fuel s = (o, s₂)) (hsettled : ∀ outcome ∈ o, outcome.Settled) :
    ∃ s₂', Program.next fuel s' = (o, s₂') ∧ ∀ outcome ∈ o, outcome.goesOn → Aligned s₂ s₂' := by
  obtain ⟨m, c⟩ := s
  obtain ⟨m', c'⟩ := s'
  obtain rfl : c' = c := h.cursor
  let P : Pairing .loose := .same id
  have hn : (World.bare P m m').Named P := World.named_bare h.lexicon.symm
  have hw : (World.bare P m m').Ok .loose := World.ok_bare id h.left h.right h.roots.1
    h.roots.2 h.lexicon.symm h.threshold h.capacity
  have hread := (Pairing.read id c' hw hn trivial trivial).of_ample trivial
  rw [World.bare_left, World.bare_right] at hread
  unfold Program.next at hnext ⊢
  cases hrun : (ReadAction.read.fromPlace c').run m with
  | error e m₂ =>
    rw [hrun] at hread
    obtain ⟨d, hrun⟩ := ReadAction.run_eq_error c' hrun
    rw [hrun] at hnext
    cases e with
    | fault fault =>
      cases hnext
      exact (hsettled _ rfl).elim
    | failure why =>
      cases hnext
      rcases hread.2 with (he | ⟨-, _, he⟩) | ⟨-, m₂', hrun', -⟩
      · cases he
        exact absurd rfl (hsettled _ rfl)
      · cases he
      · obtain ⟨d', hrun'⟩ := ReadAction.run_eq_error c' hrun'
        rw [hrun']
        exact ⟨_, rfl, fun _ ho hon => by cases ho; cases hon⟩
  | ok p m₂ =>
    obtain ⟨o₁, d⟩ := p
    rw [hrun] at hread
    obtain ⟨⟨o₁', _⟩, m₂', ρ, hrun', hkeeps, hw₂, rfl, hn₂, ho⟩ := hread
    rw [ReadAction.run_eq_ok c' hrun] at hnext
    rw [ReadAction.run_eq_ok c' hrun']
    cases ho with
    | none =>
      cases hnext
      exact ⟨_, rfl, fun _ ho => by cases ho⟩
    | @some expr expr' hexpr =>
      have heval := Aligned.evalRender fuel (w := ⟨ρ, m₂, m₂'⟩)
        (h.keeps hkeeps.left hkeeps.right hn₂.1.symm d) hw₂ hexpr
      dsimp only at heval hnext ⊢
      split at hnext <;> rename_i hrun₂ <;> rw [hrun₂] at heval <;> cases hnext
      · obtain ⟨m₃', hrun₂', haligned⟩ := heval
        exact ⟨_, by rw [hrun₂'], fun _ _ _ => haligned⟩
      · obtain ⟨m₃', hrun₂', haligned⟩ := heval (hsettled _ rfl)
        exact ⟨_, by rw [hrun₂'], fun _ _ _ => haligned⟩
      · exact (hsettled _ rfl).elim

/-- So do the next few. -/
theorem runFirst (h : Aligned s s') (count : Nat)
    (hend : ∀ r ∈ (Program.runFirst fuel count s).1, r.outcome.Settled) :
    (Program.runFirst fuel count s').1.map Report.outcome =
      (Program.runFirst fuel count s).1.map Report.outcome := by
  induction count generalizing s s' with
  | zero => rfl
  | succ count ih =>
    unfold Program.runFirst at hend ⊢
    cases hnext : Program.next fuel s with
    | mk o s₂ =>
      rw [hnext] at hend
      cases o with
      | none =>
        obtain ⟨s₂', hnext', -⟩ := h.next hnext nofun
        rw [hnext']
      | some outcome =>
        have hsettled : outcome.Settled := by
          dsimp only at hend
          split at hend
          · exact hend _ List.mem_cons_self
          · exact hend _ List.mem_cons_self
        obtain ⟨s₂', hnext', haligned⟩ := h.next hnext (by rintro _ ⟨⟩; exact hsettled)
        rw [hnext']
        dsimp only at hend ⊢
        by_cases hon : outcome.goesOn
        · rw [if_pos hon] at hend
          rw [if_pos hon, if_pos hon, List.map_cons, List.map_cons]
          congr 1
          exact ih (haligned _ rfl hon).takeRecords fun r hr => hend r (List.mem_cons_of_mem _ hr)
        · rw [if_neg hon, if_neg hon]
          rfl

end Aligned

/-- A program that is worked through without want of room comes to the same with more room. -/
theorem run_outcomes_of_le_capacity {c c' : UInt32} (hc : c ≤ c') (threshold : Option Level)
    (fuel : Nat) (text : String)
    (hend : ∀ r ∈ (Program.run fuel ⟨.new c threshold, .ofString text⟩).1, r.outcome.Settled) :
    (∀ r ∈ (Program.run fuel ⟨.new c' threshold, .ofString text⟩).1, r.outcome.Settled) ∧
      (Program.run fuel ⟨.new c' threshold, .ofString text⟩).1.map Report.outcome =
        (Program.run fuel ⟨.new c threshold, .ofString text⟩).1.map Report.outcome := by
  have hsame := (Aligned.new hc threshold (.ofString text)).runFirst _ hend
  refine ⟨fun r hr => ?_, hsame⟩
  obtain ⟨r₀, hr₀, heq⟩ := List.mem_map.mp (hsame ▸ List.mem_map_of_mem hr)
  exact heq ▸ hend r₀ hr₀

/-- Where the second expression finds the arena full, and where it does not. -/
theorem run_outcomes_of_le_capacity_quoted :
    (Program.run 2 ⟨.new 4 none, .ofString "''() ''()"⟩).2.machine.arena.tally.collections = 1 ∧
      (∀ r ∈ (Program.run 2 ⟨.new 8 none, .ofString "''() ''()"⟩).1, r.outcome.Settled) ∧
      (Program.run 2 ⟨.new 8 none, .ofString "''() ''()"⟩).1.map Report.outcome =
        (Program.run 2 ⟨.new 4 none, .ofString "''() ''()"⟩).1.map Report.outcome :=
  ⟨by decide +kernel, run_outcomes_of_le_capacity (by decide) none 2 _ (by decide +kernel)⟩

end ArenaLisp
