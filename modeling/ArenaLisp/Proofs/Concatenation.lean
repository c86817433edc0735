import ArenaLisp.Proofs.Locality

/-!
# Texts one after the other

Two texts that are run one after the other on a machine come to what they come to joined by a blank, if the
first is read to its end: the same reports, but for the offsets in the second, and the same machine
(`run_append`).  The loop of a program is followed without its bound (`Program.Loop`), through the first
text inside the joined one and then through the second.
-/

namespace ArenaLisp

/-- The same outcome where `n` code points more stand before the text. -/
def Outcome.shift (n : Nat) : Outcome → Outcome
  | .unread why => .unread (why.shift n)
  | outcome => outcome

def Report.shift (n : Nat) (r : Report) : Report := { r with outcome := r.outcome.shift n }

namespace Program

open ReadAction

variable {fuel k k' n : Nat} {s s' s₂ s₃ : Reading} {reports reports' : List Report}
  {m : Machine} {c c' : Cursor} {w : Char} {more : List Char}

/-- A read stays in its text. -/
theorem size_eq_of_read {o : Option Value} (hread : read.run s = .ok o s₂) :
    s₂.cursor.size = s.cursor.size := by
  have h := (advances_read s).precedes.size
  rwa [hread] at h

namespace Loop

/-- The loop is what a run comes to that is ready for as many expressions and one more. -/
theorem runFirst_eq (h : Loop fuel k s reports s₂) {count : Nat} (hcount : k ≤ count) :
    runFirst fuel (count + 1) s = (reports, s₂) := by
  induction h generalizing count with
  | done hread => rw [runFirst, next, hread]
  | unread hread =>
    rw [runFirst, next, hread]
    rfl
  | broken hread heval =>
    rw [runFirst, next, hread]
    dsimp only
    rw [heval]
    rfl
  | failed hread heval _ ih | value hread heval _ ih =>
    obtain ⟨count, rfl⟩ : ∃ i, count = i + 1 := ⟨count - 1, by omega⟩
    rw [runFirst, next, hread]
    dsimp only
    rw [heval]
    show (_ :: (runFirst fuel (count + 1) _).1, (runFirst fuel (count + 1) _).2) = _
    rw [ih (by omega)]

/-- The loop is what the program comes to. -/
theorem run_eq (h : Loop fuel k s reports s₂) : run fuel s = (reports, s₂) := by
  have hle := h.le_length
  have hsize := s.cursor.pos_add_length
  exact h.runFirst_eq (by omega)

/-- The loop depends on its start only through the first read. -/
theorem congr (h : Loop fuel k s reports s₂) (hread' : read.run s' = read.run s) :
    Loop fuel k s' reports s₂ := by
  cases h with
  | done hread => exact .done (hread'.trans hread)
  | unread hread => exact .unread (hread'.trans hread)
  | broken hread heval => exact .broken (hread'.trans hread) heval
  | failed hread heval hrest => exact .failed (hread'.trans hread) heval hrest
  | value hread heval hrest => exact .value (hread'.trans hread) heval hrest

/-- At the end of a longer text the loop goes as it does alone, with larger offsets. -/
theorem shift (h : Loop fuel k s reports s₂) (hc : s.cursor.Within n [] c') :
    ∃ d, Loop fuel k ⟨s.machine, c'⟩ (reports.map (Report.shift n)) ⟨s₂.machine, d⟩ := by
  induction h generalizing c' with
  | done hread =>
    obtain ⟨d, hrun, -⟩ := hc.exists_read nofun (.inr rfl) hread
    exact ⟨d, .done hrun⟩
  | unread hread =>
    obtain ⟨d, hrun⟩ := hc.exists_error_read hread
    exact ⟨d, .unread hrun⟩
  | broken hread heval =>
    obtain ⟨d, hrun, -⟩ := hc.exists_read nofun (.inr rfl) hread
    exact ⟨d, .broken hrun heval⟩
  | failed hread heval _ ih =>
    obtain ⟨d, hrun, hd⟩ := hc.exists_read nofun (.inr rfl) hread
    obtain ⟨d₂, hrest⟩ := ih hd
    exact ⟨d₂, .failed hrun heval hrest⟩
  | value hread heval _ ih =>
    obtain ⟨d, hrun, hd⟩ := hc.exists_read nofun (.inr rfl) hread
    obtain ⟨d₂, hrest⟩ := ih hd
    exact ⟨d₂, .value hrun heval hrest⟩

/-- Behind a text that has been read to its end and a blank, the loop goes on with the next text. -/
theorem behind_blank (h : Loop fuel k ⟨m, .ofList more⟩ reports s₂) (hc : c.Within 0 (w :: more) c')
    (hw : isBlank w) (hend : c.rest.dropWhile isBlank = []) :
    ∃ d, Loop fuel k ⟨m, c'⟩ (reports.map (Report.shift (c.size + 1))) ⟨s₂.machine, d⟩ := by
  have hrest : c'.rest.dropWhile isBlank = more.dropWhile isBlank := by
    rw [hc.rest, List.dropWhile_append, hend, List.isEmpty_nil, if_pos rfl,
      List.dropWhile_cons_of_pos hw]
  have hbehind : ((Cursor.ofList more).dropWhile isBlank).Within (c.size + 1) []
      (c'.dropWhile isBlank) := by
    refine ⟨hrest.trans (List.append_nil _).symm, ?_⟩
    have hsize : c'.size = c.size + 0 + (more.length + 1) := hc.size_eq
    have hplace := (c'.dropWhile isBlank).pos_add_length
    have hplace₀ := ((Cursor.ofList more).dropWhile isBlank).pos_add_length
    rw [show (c'.dropWhile isBlank).rest = more.dropWhile isBlank from hrest, Cursor.size_dropWhile,
      hsize] at hplace
    rw [show ((Cursor.ofList more).dropWhile isBlank).rest = more.dropWhile isBlank from rfl,
      Cursor.size_dropWhile, show (Cursor.ofList more).size = more.length from rfl] at hplace₀
    omega
  obtain ⟨d, hloop⟩ := (h.congr (run_read_dropWhile m (.ofList more))).shift hbehind
  exact ⟨d, hloop.congr (run_read_dropWhile m c').symm⟩

/-- The loop goes through a text that is read to its end, and then through the text behind it. -/
theorem append (h : Loop fuel k s reports s₂) (hgo : ∀ r ∈ reports, r.outcome.goesOn)
    (hc : s.cursor.Within 0 (w :: more) c') (hw : isBlank w)
    (h' : Loop fuel k' ⟨s₂.machine, .ofList more⟩ reports' s₃) :
    ∃ d, Loop fuel (k' + k) ⟨s.machine, c'⟩
      (reports ++ reports'.map (Report.shift (s.cursor.size + 1))) ⟨s₃.machine, d⟩ := by
  have htail : Grammar.AtDelimiter (w :: more) := Grammar.atDelimiter_cons (by simp [isDelimiter, hw])
  induction h generalizing c' with
  | @done s s₂ hread =>
    obtain ⟨hend, hmachine⟩ := blank_of_read hread
    rw [hmachine] at h'
    exact h'.behind_blank hc hw hend
  | unread hread | broken hread => exact absurd (hgo _ List.mem_cons_self) Bool.false_ne_true
  | @failed k s s₂ m m₂ c expr why reports hread heval _ ih =>
    obtain ⟨d, hrun, hd⟩ := hc.exists_read htail (.inl (dropWhile_ne_nil_of_read hread)) hread
    obtain ⟨d₂, hrest⟩ := ih (fun r hr => hgo r (List.mem_cons_of_mem _ hr)) hd h'
    rw [show c.size = s.cursor.size from size_eq_of_read hread] at hrest
    exact ⟨d₂, .failed hrun heval hrest⟩
  | @value k s s₂ m m₂ c expr text reports hread heval _ ih =>
    obtain ⟨d, hrun, hd⟩ := hc.exists_read htail (.inl (dropWhile_ne_nil_of_read hread)) hread
    obtain ⟨d₂, hrest⟩ := ih (fun r hr => hgo r (List.mem_cons_of_mem _ hr)) hd h'
    rw [show c.size = s.cursor.size from size_eq_of_read hread] at hrest
    exact ⟨d₂, .value hrun heval hrest⟩

end Loop

/-- If the loop over a text reaches the end of the text, then the text, a blank and a second text come to
what the first and then the second text come to on the same machine: the outcomes of the first and behind
them those of the second, in which only the offset of an obstacle is larger, by the number of code points
of the first text and the blank.  Both ways end with the same machine. -/
theorem run_append (fuel : Nat) (m : Machine) (text more : String) (w : Char) (hw : isBlank w)
    (hend : ∀ r ∈ (run fuel ⟨m, .ofString text⟩).1, r.outcome.goesOn) :
    let first := run fuel ⟨m, .ofString text⟩
    let second := run fuel ⟨first.2.machine, .ofString more⟩
    let joined := run fuel ⟨m, .ofString (text.push w ++ more)⟩
    joined.1 = first.1 ++ second.1.map (Report.shift (text.length + 1)) ∧
      joined.2.machine = second.2.machine := by
  intro first second joined
  obtain ⟨k, hfirst⟩ := exists_loop fuel ⟨m, .ofString text⟩
  obtain ⟨k', hsecond⟩ := exists_loop fuel ⟨first.2.machine, .ofString more⟩
  have hwithin : (Cursor.ofString text).Within 0 (w :: more.toList)
      (.ofString (text.push w ++ more)) := by
    refine ⟨?_, rfl⟩
    show (text.push w ++ more).toList = text.toList ++ w :: more.toList
    rw [String.toList_append, String.toList_push, List.append_assoc, List.singleton_append]
  obtain ⟨d, hjoined⟩ := hfirst.append hend hwithin hw hsecond
  have hrun : joined = _ := hjoined.run_eq
  rw [hrun, show (Cursor.ofString text).size = text.length from String.length_toList]
  exact ⟨rfl, rfl⟩

/-- A quoted list that is read in one piece and a list that is not closed behind it: the obstacle stands
at the end of the whole text. -/
theorem run_append_quote_open :
    isBlank ' ' ∧
    (∀ r ∈ (run 2 ⟨.new 8 none, .ofString "'()"⟩).1, r.outcome.goesOn) ∧
    let first := run 2 ⟨.new 8 none, .ofString "'()"⟩
    let second := run 2 ⟨first.2.machine, .ofString "'() ("⟩
    let joined := run 2 ⟨.new 8 none, .ofString ("'()".push ' ' ++ "'() (")⟩
    first.1 = [⟨#[], .value "nil"⟩] ∧
    second.1 = [⟨#[], .value "nil"⟩, ⟨#[], .unread (.unreadable (.blocked .openList 5))⟩] ∧
    joined.1 = [⟨#[], .value "nil"⟩, ⟨#[], .value "nil"⟩,
      ⟨#[], .unread (.unreadable (.blocked .openList 9))⟩] ∧
    joined.1 = first.1 ++ second.1.map (Report.shift ("'()".length + 1)) ∧
      joined.2.machine = second.2.machine := by
  refine ⟨rfl, by decide +kernel, ?_⟩
  intro first second joined
  refine ⟨by decide +kernel, by decide +kernel, by decide +kernel, ?_⟩
  exact run_append 2 (.new 8 none) "'()" "'() (" ' ' rfl (by decide +kernel)

end Program

end ArenaLisp
