import ArenaLisp.Proofs.EvalRuns
import ArenaLisp.Proofs.Session

/-!
# Runs of the reader, and of all operations

What is read is clean if what spellings are interned as is of the alphabet.  So all operations of a
machine run along every trail that goes on along allocations of clean pairs and along interning
(`Trail.Throughout`), if the values that they are handed are clean (`Operation.run_along`).
-/

namespace ArenaLisp

/-- Whether a trail goes on along all work of a machine, and an alphabet has all values that the work may
come upon. -/
structure Trail.Throughout (T : Trail) (A : Alphabet) : Prop where
  cut : T.Cut
  builds : T.Builds A
  intern : ∀ m s, T.Along m { m with lexicon := (m.lexicon.intern s).2 }
  name : ∀ l s, A.Has (Lexicon.intern l s).2 (l.intern s).1
  marker : ∀ l, A.Has l (.atom .topLevel)

variable {A : Alphabet} {T : Trail} {m : Machine}

namespace Runs

variable (hT : T.Throughout A)
include hT

theorem atom (hm : m.Coherent) (c : Cursor) :
    Runs T m (ReadAction.atom.fromPlace c) (ReadAction.atom.fromPlace c)
      fun m₂ p => m₂.Clean A p.1 := by
  rw [ReadAction.fromPlace_atom]
  generalize String.ofList (c.takeWhile (!isDelimiter ·)) = s
  have hnotPair : ∀ id, (m.lexicon.intern s).1 ≠ .pair id := by
    rcases m.lexicon.intern_cases s with ⟨-, h⟩ | ⟨-, i, h⟩
    · simp [h]
    · simp [h]
  have hkeeps : m.Keeps { m with lexicon := (m.lexicon.intern s).2 } :=
    ⟨⟨hm.arena, hm.roots⟩, rfl, rfl, rfl, fun _ _ => rfl⟩
  exact ⟨rfl, ⟨hkeeps, m.reads_intern s, hT.intern m s⟩,
    Machine.clean_of_not_pair hnotPair (hT.name _ s)⟩

theorem quote {v : Value} (hm : m.Coherent) (hv : m.Clean A v) :
    Runs T m (ReadAction.quote v) (ReadAction.quote v) fun m₂ v => m₂.Clean A v := by
  refine (cons hT.builds hm hv Machine.clean_nil).bind fun m₂ operand hgoes h => ?_
  exact cons hT.builds hgoes.coherent (Machine.clean_atom (by decide)) h

omit hT in
theorem listTail_of {fuel : Nat}
    (hexpr : ∀ {m} c, m.Coherent → Runs T m ((ReadAction.expr fuel).fromPlace c)
      ((ReadAction.expr fuel).fromPlace c) fun m₂ p => m₂.Clean A p.1)
    (hitems : ∀ {m} c, m.Coherent → Runs T m ((ReadAction.items fuel).fromPlace c)
      ((ReadAction.items fuel).fromPlace c) fun m₂ p => m₂.Clean A p.1)
    (hm : m.Coherent) (c : Cursor) :
    Runs T m ((ReadAction.listTail fuel).fromPlace c) ((ReadAction.listTail fuel).fromPlace c)
      fun m₂ p => m₂.Clean A p.1 := by
  rw [ReadAction.fromPlace_listTail]
  split
  · refine (hexpr _ hm).bind fun m₂ p hgoes hp => ?_
    dsimp only
    split
    · exact .pure hgoes.coherent hp
    · exact .throw nofun
  · exact hitems _ hm

/-- Expressions and what follows in a list, one inside the other. -/
theorem expr_items (fuel : Nat) :
    (∀ {m} c, m.Coherent → Runs T m ((ReadAction.expr fuel).fromPlace c)
      ((ReadAction.expr fuel).fromPlace c) fun m₂ p => m₂.Clean A p.1) ∧
    ∀ {m} c, m.Coherent → Runs T m ((ReadAction.items fuel).fromPlace c)
      ((ReadAction.items fuel).fromPlace c) fun m₂ p => m₂.Clean A p.1 := by
  induction fuel with
  | zero => exact ⟨fun _ _ => .throw fun _ => hT.cut, fun _ _ => .throw fun _ => hT.cut⟩
  | succ fuel ih =>
    obtain ⟨hexpr, hitems⟩ := ih
    refine ⟨fun {m} c hm => ?_, fun {m} c hm => ?_⟩
    · rcases ReadAction.fromPlace_expr_cases c fuel with ⟨o, h⟩ | h | h | h
      · exact h ▸ .throw nofun
      · exact h ▸ hitems _ hm
      · rw [h]
        refine (hexpr _ hm).bind fun m₂ p hgoes hp => ?_
        refine (quote hT hgoes.coherent hp).bind fun m₃ v hgoes₃ hv => ?_
        exact .pure hgoes₃.coherent hv
      · exact h ▸ atom hT hm _
    · rcases ReadAction.fromPlace_items_cases c fuel with ⟨o, h⟩ | h | h
      · exact h ▸ .throw nofun
      · exact h ▸ .pure hm Machine.clean_nil
      · rw [h]
        refine (hexpr _ hm).bind fun m₂ p hgoes hp => ?_
        have hpin := hgoes.coherent.pin hp.not_dangling
        have hrest : Runs T m₂ (Action.pinned p.1 ((ReadAction.listTail fuel).fromPlace p.2))
            (Action.pinned p.1 ((ReadAction.listTail fuel).fromPlace p.2))
            fun m₃ q => m₃.Clean A p.1 ∧ m₃.Clean A q.1 := by
          refine .pinned
            (Q := fun m₃ (q : Value × Cursor) => m₃.Clean A p.1 ∧ m₃.Clean A q.1) ?_ fun _ _ h => h
          refine (listTail_of hexpr hitems hpin p.2).mono fun m₃ q hgoes₃ hq => ?_
          exact ⟨(hp.guards_pin.goes hgoes₃).2, hq⟩
        refine hrest.bind fun m₃ q hgoes₃ hq => ?_
        refine (cons hT.builds hgoes₃.coherent hq.1 hq.2).bind ?_
        intro m₄ v hgoes₄ hv
        exact .pure hgoes₄.coherent hv

/-- The next expression, if there is one. -/
theorem read (hm : m.Coherent) (c : Cursor) :
    Runs T m (ReadAction.read.fromPlace c) (ReadAction.read.fromPlace c)
      fun m₂ p => ∀ v ∈ p.1, m₂.Clean A v := by
  rw [ReadAction.fromPlace_read]
  split
  · exact .pure hm nofun
  · refine ((expr_items hT _).1 _ hm).bind fun m₂ p hgoes hp => ?_
    exact .pure hgoes.coherent fun v hv => Option.some.inj hv ▸ hp

/-- The only expression of a text. -/
theorem parse (hm : m.Coherent) (text : String) :
    Runs T m (Action.parse text) (Action.parse text) fun m₂ v => m₂.Clean A v := by
  rw [ReadAction.parse_eq, ReadAction.fromPlace_readOnly]
  have honly : ∀ {m : Machine} (p : Option Value × Cursor), m.Coherent →
      (∀ v ∈ p.1, m.Clean A v) →
      Runs T m (ReadAction.only p) (ReadAction.only p) fun m₂ p => m₂.Clean A p.1 := by
    intro m p hm hp
    unfold ReadAction.only
    split
    · exact .throw nofun
    · rename_i v hv
      dsimp only
      split
      · exact .pure hm (hp v hv)
      · exact .throw nofun
  refine ((read hT hm _).bind fun m₂ p hgoes hp =>
    honly p hgoes.coherent hp).bind fun m₂ p hgoes hp => ?_
  exact .pure hgoes.coherent hp

/-- The value of a text at top level. -/
theorem evalText (hm : T.Sound m) (fuel : Nat) (text : String) :
    Runs T m (ArenaLisp.evalText fuel text) (ArenaLisp.evalText fuel text)
      fun m₂ v => m₂.Clean A v := by
  refine (parse hT (T.coherent hm) text).bind fun m₂ v hgoes hv => ?_
  have htop : m₂.Guards A Scope.top.value :=
    ⟨nofun, Machine.clean_of_not_pair nofun (hT.marker _)⟩
  exact evalIn_runs hT.cut hT.builds fuel (hgoes.sound hm) hv htop

end Runs

/-- Whether the values that an operation is handed are clean, and its scope is held. -/
def Operation.Given (A : Alphabet) (m : Machine) : Operation → Prop
  | cons x y => m.Clean A x ∧ m.Clean A y
  | parse _ | read _ | evalText _ _ => True
  | evalIn _ expr scope => m.Clean A expr ∧ m.Guards A scope.value

/-- An operation on clean values runs along what holds along all work, however it ends. -/
theorem Operation.run_along (hT : T.Throughout A) (hm : T.Sound m) {op : Operation}
    (hop : op.Given A m) : T.Along m (op.run m) := by
  have hcoherent := T.coherent hm
  cases op with
  | cons x y => exact (Runs.cons hT.builds hcoherent hop.1 hop.2).ending
  | parse text => exact (Runs.parse hT hcoherent text).ending
  | read c =>
    rw [run, ReadAction.machine_ending]
    exact (Runs.read hT hcoherent c).ending
  | evalText fuel text => exact (Runs.evalText hT hm fuel text).ending
  | evalIn fuel expr scope => exact (evalIn_runs hT.cut hT.builds fuel hm hop.1 hop.2).ending

end ArenaLisp
