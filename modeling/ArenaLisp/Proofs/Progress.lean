import ArenaLisp.Proofs.Travels

/-!
# Reading ends and goes forward

A read comes to an end on every machine and from every place of a text, and it never goes back.  If it
gives an expression it has gone forward, since an expression of the grammar takes a character
(`advances_read`).  Hence the loop of a program, which reads until there is nothing left or a read fails, comes
to an end, and gets no more expressions than the text has characters (`reading_progresses`).
-/

namespace ArenaLisp

open ReadAction

/-- How the place after a read lies to the place before it, and what the answer says of the place. -/
structure Reading.Advances (s s₂ : Reading) (given : Except Stop (Option Value)) : Prop where
  precedes : s.cursor.Precedes s₂.cursor
  forward : s.cursor.pos ≤ s₂.cursor.pos
  inside : s₂.cursor.pos ≤ s.cursor.size
  place : match given with
    | .ok none => s₂.cursor.rest = []
    | .ok (some _) => s.cursor.pos < s₂.cursor.pos
    | .error e => e = .failure .outOfMemory ∨
      ∃ o, e = .failure (.unreadable (.blocked o s₂.cursor.pos))

theorem Cursor.Precedes.inside {c d : Cursor} (h : c.Precedes d) : d.pos ≤ c.size :=
  h.size ▸ d.pos_le_size

theorem ReadAction.advances_read (s : Reading) :
    s.Advances (ending (read.run s)) (answer (read.run s)) := by
  have h := travels_read s.cursor s.machine
  cases hrun : read.run s with
  | ok o s₂ =>
    rw [show read.run ⟨s.machine, s.cursor⟩ = .ok o s₂ from hrun] at h
    obtain ⟨hprec, ho⟩ := h
    refine ⟨hprec, hprec.pos_le, hprec.inside, ?_⟩
    cases o with
    | none => exact ho
    | some v =>
      obtain ⟨e, he⟩ : Grammar.Part.expr.Derived s.cursor.rest s₂.cursor.rest := ho
      exact hprec.pos_lt he.length_lt
  | error e s₂ =>
    rw [show read.run ⟨s.machine, s.cursor⟩ = .error e s₂ from hrun] at h
    obtain ⟨hprec, hstop⟩ := h
    refine ⟨hprec, hprec.pos_le, hprec.inside, ?_⟩
    rcases hstop with rfl | ⟨o, rfl, -⟩
    · exact .inl rfl
    · exact .inr ⟨o, rfl⟩

/-! ### The loop of a program -/

namespace Program

/-- The loop of a program without a bound on its turns, and the number of reads in it that gave an
expression.  It ends where nothing is left to be read, where a read fails, or where an evaluation is not
worked through. -/
inductive Loop (fuel : Nat) : Nat → Reading → List Report → Reading → Prop
  | done {s s₂ : Reading} (hread : read.run s = .ok none s₂) : Loop fuel 0 s [] s₂
  | unread {s : Reading} {m : Machine} {c : Cursor} {why : Failure}
    (hread : read.run s = .error (.failure why) ⟨m, c⟩) :
    Loop fuel 0 s [⟨m.takeRecords.1, .unread why⟩] ⟨m.takeRecords.2, c⟩
  | broken {s : Reading} {m m₂ : Machine} {c : Cursor} {expr : Value} {fault : Fault}
    (hread : read.run s = .ok (some expr) ⟨m, c⟩)
    (heval : (evalRender fuel expr).run m = .error (.fault fault) m₂) :
    Loop fuel 1 s [⟨m₂.takeRecords.1, .broken fault⟩] ⟨m₂.takeRecords.2, c⟩
  | failed {n : Nat} {s s₃ : Reading} {m m₂ : Machine} {c : Cursor} {expr : Value} {why : Failure}
    {reports : List Report} (hread : read.run s = .ok (some expr) ⟨m, c⟩)
    (heval : (evalRender fuel expr).run m = .error (.failure why) m₂)
    (hrest : Loop fuel n ⟨m₂.takeRecords.2, c⟩ reports s₃) :
    Loop fuel (n + 1) s (⟨m₂.takeRecords.1, .failed why⟩ :: reports) s₃
  | value {n : Nat} {s s₃ : Reading} {m m₂ : Machine} {c : Cursor} {expr : Value} {text : String}
    {reports : List Report} (hread : read.run s = .ok (some expr) ⟨m, c⟩)
    (heval : (evalRender fuel expr).run m = .ok text m₂)
    (hrest : Loop fuel n ⟨m₂.takeRecords.2, c⟩ reports s₃) :
    Loop fuel (n + 1) s (⟨m₂.takeRecords.1, .value text⟩ :: reports) s₃

variable {fuel n : Nat} {s s₂ : Reading} {m : Machine} {c : Cursor} {expr : Value}
  {reports : List Report}

/-- What is left behind an expression that was read is less. -/
theorem length_lt_of_read (hread : read.run s = .ok (some expr) ⟨m, c⟩) :
    c.rest.length < s.cursor.rest.length := by
  have h := advances_read s
  rw [hread] at h
  have hlt : s.cursor.pos < c.pos := h.place
  have hsize : c.size = s.cursor.size := h.precedes.size
  have hs := s.cursor.pos_add_length
  have hc := c.pos_add_length
  omega

/-- A read does not fail in a way of its own. -/
theorem exists_failure_of_read {e : Stop} (hread : read.run s = .error e s₂) :
    ∃ why, e = .failure why := by
  have h := advances_read s
  rw [hread] at h
  rcases h.place with he | ⟨o, he⟩
  · exact ⟨_, he⟩
  · exact ⟨_, he⟩

/-- The loop reads no more expressions than there are characters left. -/
theorem Loop.le_length (h : Loop fuel n s reports s₂) : n ≤ s.cursor.rest.length := by
  induction h with
  | done _ | unread _ => exact Nat.zero_le _
  | broken hread _ =>
    have hlt := length_lt_of_read hread
    omega
  | failed hread _ _ ih | value hread _ _ ih =>
    have hlt := length_lt_of_read hread
    exact Nat.lt_of_le_of_lt ih hlt

/-- A run whose bound lies above the number of characters left is the loop. -/
theorem loop_runFirst {count : Nat} (h : s.cursor.rest.length < count) :
    ∃ n, Loop fuel n s (runFirst fuel count s).1 (runFirst fuel count s).2 := by
  induction count generalizing s with
  | zero => exact absurd h (Nat.not_lt_zero _)
  | succ count ih =>
    rw [runFirst, next]
    cases hread : read.run s with
    | error e s₂ =>
      obtain ⟨why, rfl⟩ := exists_failure_of_read hread
      exact ⟨0, .unread hread⟩
    | ok o s₂ =>
      cases o with
      | none => exact ⟨0, .done hread⟩
      | some expr =>
        obtain ⟨m, c⟩ := s₂
        have hlt := length_lt_of_read hread
        dsimp only
        cases heval : (evalRender fuel expr).run m with
        | ok text m₂ =>
          obtain ⟨n, hrest⟩ := ih (s := ⟨m₂.takeRecords.2, c⟩) (show c.rest.length < count by omega)
          exact ⟨n + 1, .value hread heval hrest⟩
        | error e m₂ =>
          cases e with
          | failure why =>
            obtain ⟨n, hrest⟩ := ih (s := ⟨m₂.takeRecords.2, c⟩) (show c.rest.length < count by omega)
            exact ⟨n + 1, .failed hread heval hrest⟩
          | fault fault => exact ⟨1, .broken hread heval⟩

/-- A run of a program is the loop. -/
theorem exists_loop (fuel : Nat) (s : Reading) :
    ∃ k, Loop fuel k s (run fuel s).1 (run fuel s).2 := by
  have hsize := s.cursor.pos_add_length
  exact loop_runFirst (by omega)

end Program

/-- On every machine and from every place, a read comes to an end: at a place of the text that does not lie
before; farther on, if it gives an expression; at the end of the text, if there is none; and at the place
that the stop names, if it is blocked.  It stops for no other reason than an obstacle or a lack of room.
Hence the loop of a program comes to an end, and gets no more expressions than there are characters. -/
theorem reading_progresses :
    (∀ s : Reading, s.Advances (ending (read.run s)) (answer (read.run s))) ∧
    ∀ (fuel : Nat) (s : Reading),
      (∃ n, Program.Loop fuel n s (Program.run fuel s).1 (Program.run fuel s).2) ∧
        ∀ n reports s₂, Program.Loop fuel n s reports s₂ → n ≤ s.cursor.rest.length := by
  refine ⟨advances_read, fun fuel s => ⟨Program.loop_runFirst ?_, fun n reports s₂ h => h.le_length⟩⟩
  have hsize := s.cursor.pos_add_length
  omega

end ArenaLisp
