import ArenaLisp.Proofs.Continuation
import ArenaLisp.Proofs.Travels

/-!
# Where a text is wrong

The offset in a syntax error is that of the first character that is wrong, or the length of the text if it
merely ends too early: what stands before the offset can be continued to a text that is read, and, unless
the text ends there, what stands before it and the character at it cannot (`parse_points_at_obstacle`).
What is read is exactly what the grammar takes for one expression, so that both halves are questions about
the grammar.
-/

namespace ArenaLisp

open Grammar

namespace ReadAction

variable {text : String} {m m₂ : Machine} {v : Value} {o : Obstacle} {k : Nat}

/-- The only expression of a text is all of it; where reading it stops, it is for lack of room, since there
is no expression, or since the text cannot be read on. -/
theorem travels_readOnly (c : Cursor) :
    Travels c readOnly (fun _ _ => Whole c.rest) fun e d =>
      e = .failure (.unreadable .empty) ∨ c.Stuck (Impasse c.rest) e d := by
  rw [readOnly]
  refine .bind ((travels_read c).mono (fun _ _ hd => hd) fun e d hd => .inr ?_) fun given d hd => ?_
  · refine hd.mono (.refl c) ?_
    rintro o left ⟨n, hb⟩
    exact .blocked hb
  · obtain ⟨hprec, hgiven⟩ := hd
    cases given with
    | none => exact fun _ => .inl rfl
    | some v =>
      obtain ⟨e, he⟩ : Part.expr.Derived c.rest d.rest := hgiven
      refine travels_atEnd_bind ?_
      cases h : d.rest.dropWhile isBlank with
      | nil =>
        rw [peek?_eq_none rfl h]
        exact .pure ⟨e, _, he, h⟩
      | cons x r =>
        rw [peek?_eq rfl h]
        refine .bind (Q := fun _ _ => False) (.blocked (.inr ⟨hprec.dropWhile, .inr ⟨_, rfl, ?_⟩⟩))
          fun _ _ hd => hd.elim
        show Impasse c.rest .surplus (d.rest.dropWhile isBlank)
        rw [h]
        exact .surplus he h

theorem run_parse (text : String) (m : Machine) :
    (Action.parse text).run m =
      match readOnly.run ⟨m, .ofString text⟩ with
      | .ok v s => .ok v s.machine
      | .error e s => .error e s.machine := rfl

/-- A text that is read is an expression, whatever the machine. -/
theorem whole_of_parse (hrun : (Action.parse text).run m = .ok v m₂) : Whole text.toList := by
  have h := travels_readOnly (.ofString text) m
  rw [run_parse] at hrun
  cases hread : readOnly.run ⟨m, .ofString text⟩ with
  | ok v s =>
    rw [hread] at h
    exact h
  | error e s =>
    rw [hread] at hrun
    cases hrun

/-- An offset in a syntax error is that of a place where the text cannot be read on. -/
theorem impasse_of_parse
    (hrun : (Action.parse text).run m = .error (.failure (.unreadable (.blocked o k))) m₂) :
    ∃ left, Impasse text.toList o left ∧ k + left.length = text.toList.length := by
  have h := travels_readOnly (.ofString text) m
  rw [run_parse] at hrun
  cases hread : readOnly.run ⟨m, .ofString text⟩ with
  | ok v s =>
    rw [hread] at hrun
    cases hrun
  | error e s =>
    rw [hread] at hrun h
    cases hrun
    obtain h | ⟨hprec, h | ⟨o, h, himpasse⟩⟩ := h
    · cases h
    · cases h
    · cases h
      refine ⟨_, himpasse, ?_⟩
      rw [s.cursor.pos_add_length, hprec.size]
      rfl

/-- A text that is an expression is read, if there is room for the pairs that so many characters can
make. -/
theorem parse_of_whole (hm : m.Coherent) (hl : Lexicon.initial.Grows m.lexicon)
    (h : Whole text.toList)
    (hroom : m.pinnedCount + 2 * text.toList.length ≤ m.arena.capacity.toNat) :
    ∃ v m₂, (Action.parse text).run m = .ok v m₂ := by
  obtain ⟨e, rest, he, hend⟩ := h
  have hpairs := he.pairs_le
  have hspends := spends_parse_of_derives (E := fun _ => False) he hend hm hl.lookup?_quote rfl
  obtain ⟨v, m₂, hrun, -⟩ := hspends.exists_ok (by omega)
  exact ⟨v, m₂, hrun⟩

end ReadAction

open ReadAction

/-- If a text that was to be one expression is refused with an offset, then the text is no shorter than the
offset says.  What stands before the offset can be continued to a text that is read, if there is room.  And
either the text ends at the offset, or what stands before it and the character at it cannot be continued
to a text that is read on any machine. -/
theorem parse_points_at_obstacle {text : String} {m m₂ : Machine} {o : Obstacle} {k : Nat}
    (hrun : (Action.parse text).run m = .error (.failure (.unreadable (.blocked o k))) m₂) :
    k ≤ text.toList.length ∧
    (∃ more, ∀ m : Machine, m.Coherent → Lexicon.initial.Grows m.lexicon →
      m.pinnedCount + 2 * (k + more.length) ≤ m.arena.capacity.toNat →
        ∃ v m₂, (Action.parse (String.ofList (text.toList.take k ++ more))).run m = .ok v m₂) ∧
    (k = text.toList.length ∨ ∀ (more : List Char) (m : Machine) (v : Value) (m₂ : Machine),
      (Action.parse (String.ofList (text.toList.take (k + 1) ++ more))).run m ≠ .ok v m₂) := by
  obtain ⟨left, himpasse, hk⟩ := impasse_of_parse hrun
  refine ⟨by omega, ?_, ?_⟩
  · obtain ⟨taken, more, hcs, hwhole⟩ := himpasse.exists_completion
    have htake : text.toList.take k = taken := by
      rw [hcs, List.length_append] at hk
      rw [hcs, List.take_left' (by omega)]
    refine ⟨more, fun m hm hl hroom => parse_of_whole hm hl ?_ ?_⟩
    · rwa [String.toList_ofList, htake]
    · rw [String.toList_ofList, List.length_append, List.length_take]
      omega
  · cases left with
    | nil => exact .inl (by simpa using hk)
    | cons x r =>
      obtain ⟨taken, hcs, hnot⟩ := himpasse.not_whole
      have htake : text.toList.take (k + 1) = taken ++ [x] := by
        rw [hcs, List.length_append] at hk
        rw [hcs, List.append_cons, List.take_left' (by simp; omega)]
      refine .inr fun more m v m₂ hparse => hnot more ?_
      have hwhole := whole_of_parse hparse
      rwa [String.toList_ofList, htake, List.append_assoc] at hwhole

/-- In this list there is an expression too much behind the dot.  It stands at the offset 9. -/
theorem parse_points_at_obstacle_tail :
    (∃ m₂, (Action.parse "(() . () ())").run (Machine.new 8 none) =
      .error (.failure (.unreadable (.blocked .openTail 9))) m₂) ∧
    (∃ more, ∀ m : Machine, m.Coherent → Lexicon.initial.Grows m.lexicon →
      m.pinnedCount + 2 * (9 + more.length) ≤ m.arena.capacity.toNat →
        ∃ v m₂, (Action.parse (String.ofList ("(() . () ".toList ++ more))).run m = .ok v m₂) ∧
    ∀ (more : List Char) (m : Machine) (v : Value) (m₂ : Machine),
      (Action.parse (String.ofList ("(() . () (".toList ++ more))).run m ≠ .ok v m₂ := by
  have hanswer : answer ((Action.parse "(() . () ())").run (Machine.new 8 none)) =
      .error (.failure (.unreadable (.blocked .openTail 9))) := by decide +kernel
  cases hrun : (Action.parse "(() . () ())").run (Machine.new 8 none) with
  | ok v m₂ =>
    rw [hrun] at hanswer
    cases hanswer
  | error e m₂ =>
    rw [hrun] at hanswer
    cases hanswer
    obtain ⟨-, hcompleted, hend | hdead⟩ := parse_points_at_obstacle hrun
    · exact absurd hend (by decide)
    · exact ⟨⟨m₂, rfl⟩, hcompleted, hdead⟩

end ArenaLisp
