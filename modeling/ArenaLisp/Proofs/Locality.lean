import ArenaLisp.Proofs.Progress

/-!
# Reading looks at nothing behind an expression

A text may be a part of a longer one (`Cursor.Within`).  An expression that is read in it is read in the
longer text as well, with the same effect on the machine, as long as no name at its end goes on there; and
if nothing follows in the longer text, the reader also stops where it stops in the part (`Alike.read`).
An offset in the longer text counts what stands before the part.
-/

namespace ArenaLisp

/-! ### Offsets -/

/-- The same obstacle where `n` code points more stand before it. -/
def SyntaxError.shift (n : Nat) : SyntaxError → SyntaxError
  | .empty => .empty
  | .blocked obstacle offset => .blocked obstacle (offset + n)

def Failure.shift (n : Nat) : Failure → Failure
  | .unreadable error => .unreadable (error.shift n)
  | why => why

def Stop.shift (n : Nat) : Stop → Stop
  | .failure why => .failure (why.shift n)
  | .fault f => .fault f

/-! ### Places -/

/-- A place in a text, and this place in a longer text, in which `n` code points stand before the text and
`tail` behind it. -/
structure Cursor.Within (n : Nat) (tail : List Char) (c c' : Cursor) : Prop where
  rest : c'.rest = c.rest ++ tail
  pos : c'.pos = c.pos + n

namespace Cursor.Within

variable {n : Nat} {tail : List Char} {c c' : Cursor} {p : Char → Bool} {x : Char} {r : List Char}

/-- What a text begins with is not longer for what follows the text, unless it goes on to the end and
further. -/
theorem takeWhile_append {cs : List Char}
    (h : cs.dropWhile p ≠ [] ∨ ∀ x ∈ tail.head?, p x = false) :
    (cs ++ tail).takeWhile p = cs.takeWhile p ∧ (cs ++ tail).dropWhile p = cs.dropWhile p ++ tail := by
  induction cs with
  | nil =>
    cases tail with
    | nil => exact ⟨rfl, rfl⟩
    | cons y tail =>
      have hy : p y = false := h.resolve_left (fun hne => hne rfl) y rfl
      simp [hy]
  | cons x cs ih =>
    cases hx : p x with
    | true =>
      rw [List.dropWhile_cons_of_pos hx] at h
      simp [hx, ih h]
    | false => simp [hx]

theorem dropWhile (h : c.Within n tail c')
    (hend : c.rest.dropWhile p ≠ [] ∨ ∀ x ∈ tail.head?, p x = false) :
    (c.dropWhile p).Within n tail (c'.dropWhile p) := by
  obtain ⟨htake, hdrop⟩ := takeWhile_append hend
  refine ⟨?_, ?_⟩
  · show c'.rest.dropWhile p = c.rest.dropWhile p ++ tail
    rw [h.rest, hdrop]
  · show c'.pos + (c'.rest.takeWhile p).length = c.pos + (c.rest.takeWhile p).length + n
    rw [h.rest, htake, h.pos]
    omega

/-- Blanks that something stands behind, or at the end of the whole text. -/
theorem blanks (h : c.Within n tail c') (hmore : c.rest.dropWhile isBlank ≠ [] ∨ tail = []) :
    (c.dropWhile isBlank).Within n tail (c'.dropWhile isBlank) := by
  rcases hmore with hc | rfl
  · exact h.dropWhile (.inl hc)
  · exact h.dropWhile (.inr nofun)

theorem next (h : c.Within n tail c') (hc : c.rest = x :: r) : c.next.Within n tail c'.next := by
  obtain ⟨hrest, hpos⟩ := h
  obtain ⟨rest, pos, size, hsize⟩ := c
  obtain ⟨rest', pos', size', hsize'⟩ := c'
  subst hc
  cases hrest
  exact ⟨rfl, by simp only [Cursor.next] at hpos ⊢; omega⟩

theorem size_eq (h : c.Within n tail c') : c'.size = c.size + n + tail.length := by
  have hc := c.pos_add_length
  have hc' := c'.pos_add_length
  rw [h.rest, h.pos, List.length_append] at hc'
  omega

theorem peek?_eq (h : c.Within n tail c') (hmore : c.rest ≠ [] ∨ tail = []) : c'.peek? = c.peek? := by
  show c'.rest.head? = c.rest.head?
  rw [h.rest]
  rcases hmore with hc | rfl
  · exact List.head?_append_of_ne_nil c.rest hc
  · rw [List.append_nil]

end Cursor.Within

/-- An action in a text does the same as another in a longer text, if it gives a value; it also stops in the
same way if the longer text does not go on behind, except where it is cut off. -/
def Alike {α : Type} (n : Nat) (tail : List Char) (act : ReadAction α) (c : Cursor)
    (act' : ReadAction α) (c' : Cursor) : Prop :=
  ∀ m, match act.run ⟨m, c⟩ with
    | .ok x s => ∃ d, act'.run ⟨m, c'⟩ = .ok x ⟨s.machine, d⟩ ∧ s.cursor.Within n tail d
    | .error e s => tail = [] → e = .unfinished ∨
        ∃ d, act'.run ⟨m, c'⟩ = .error (e.shift n) ⟨s.machine, d⟩

namespace Alike

open ReadAction Grammar

variable {α β : Type} {n : Nat} {tail : List Char} {c c' : Cursor} {act act' : ReadAction α}
  {f f' : α → ReadAction β} {fuel fuel' : Nat}

/-! ### Rules -/

protected theorem pure (h : c.Within n tail c') (x : α) : Alike n tail (pure x) c (pure x) c' :=
  fun _ => ⟨c', rfl, h⟩

/-- The offset of an obstacle counts what stands before it. -/
protected theorem blocked (h : c.Within n tail c') (o : Obstacle) :
    Alike n tail (blocked o : ReadAction α) c (blocked o) c' := by
  refine fun m _ => .inr ⟨c', ?_⟩
  rw [run_blocked, h.pos]
  rfl

theorem blocked_bind (h : c.Within n tail c') (o : Obstacle) :
    Alike n tail (ReadAction.blocked o >>= f) c (ReadAction.blocked o >>= f') c' := by
  refine fun m _ => .inr ⟨c', ?_⟩
  show EStateM.Result.error (Stop.failure (.unreadable (.blocked o c'.pos))) (⟨m, c'⟩ : Reading) = _
  rw [h.pos]
  rfl

protected theorem unfinished : Alike n tail (throw .unfinished) c act' c' := fun _ _ => .inl rfl

/-- An action that stops need not stop if the text goes on. -/
theorem of_error (htail : tail ≠ []) (h : ∀ m, ∃ e s, act.run ⟨m, c⟩ = .error e s) :
    Alike n tail act c act' c' := by
  intro m
  obtain ⟨e, s, hrun⟩ := h m
  rw [hrun]
  exact fun hnil => absurd hnil htail

theorem bind (h : Alike n tail act c act' c')
    (hf : ∀ x d d', d.Within n tail d' → Alike n tail (f x) d (f' x) d') :
    Alike n tail (act >>= f) c (act' >>= f') c' := by
  intro m
  have h := h m
  show match EStateM.bind act f ⟨m, c⟩ with
    | .ok x s => ∃ d, EStateM.bind act' f' ⟨m, c'⟩ = .ok x ⟨s.machine, d⟩ ∧ s.cursor.Within n tail d
    | .error e s => tail = [] → e = .unfinished ∨
        ∃ d, EStateM.bind act' f' ⟨m, c'⟩ = .error (e.shift n) ⟨s.machine, d⟩
  unfold EStateM.bind
  cases hrun : act.run ⟨m, c⟩ with
  | ok x s =>
    rw [hrun] at h
    obtain ⟨d, hrun', hd⟩ := h
    rw [show act ⟨m, c⟩ = .ok x s from hrun, show act' ⟨m, c'⟩ = .ok x ⟨s.machine, d⟩ from hrun']
    exact hf x s.cursor d hd s.machine
  | error e s =>
    rw [hrun] at h
    rw [show act ⟨m, c⟩ = .error e s from hrun]
    intro htail
    rcases h htail with rfl | ⟨d, hrun'⟩
    · exact .inl rfl
    · rw [show act' ⟨m, c'⟩ = .error (e.shift n) ⟨s.machine, d⟩ from hrun']
      exact .inr ⟨d, rfl⟩

theorem move_bind {f f' : Unit → ReadAction β} {g : Cursor → Cursor}
    (h : Alike n tail (f ()) (g c) (f' ()) (g c')) :
    Alike n tail (move g >>= f) c (move g >>= f') c' := fun m => h m

theorem peek_bind {f f' : Option Char → ReadAction β}
    (h : Alike n tail (f c.peek?) c (f' c'.peek?) c') :
    Alike n tail (peek? >>= f) c (peek? >>= f') c' := fun m => h m

theorem pinned (v : Value) (h : Alike n tail act c act' c') :
    Alike n tail (ReadAction.pinned v act) c (ReadAction.pinned v act') c' := by
  intro m
  have h := h (m.pin v)
  rw [run_pinned, run_pinned]
  cases hrun : act.run ⟨m.pin v, c⟩ with
  | ok x s =>
    rw [hrun] at h
    obtain ⟨d, hrun', hd⟩ := h
    rw [hrun']
    exact ⟨d, rfl, hd⟩
  | error e s =>
    rw [hrun] at h
    intro htail
    rcases h htail with rfl | ⟨d, hrun'⟩
    · exact .inl rfl
    · rw [hrun']
      exact .inr ⟨d, rfl⟩

/-- Work on the machine alone that only fails for lack of room. -/
theorem onMachine {act : Action α} (h : c.Within n tail c')
    (hact : ∀ m e m₂, act.run m = .error e m₂ → e = .failure .outOfMemory) :
    Alike n tail (ReadAction.onMachine act) c (ReadAction.onMachine act) c' := by
  intro m
  rw [run_onMachine, run_onMachine]
  dsimp only
  cases hrun : act.run m with
  | ok x m₂ => exact ⟨c', rfl, h⟩
  | error e m₂ =>
    obtain rfl := hact m e m₂ hrun
    exact fun _ => .inr ⟨c', rfl⟩

/-! ### The reader -/

/-- What is done with the next character behind blanks is done alike, if it is at all places where the same
character is next.  Nothing is claimed at the end of a text that goes on, if the work stops there. -/
theorem next_bind {f f' : Option Char → ReadAction β} (h : c.Within n tail c')
    (hstops : c.rest.dropWhile isBlank = [] →
      ∀ m, ∃ e s, (f none).run ⟨m, c.dropWhile isBlank⟩ = .error e s)
    (hf : ∀ {d d'}, d.Within n tail d' → Alike n tail (f d.peek?) d (f' d.peek?) d') :
    Alike n tail (skipBlanks >>= fun _ => peek? >>= f) c (skipBlanks >>= fun _ => peek? >>= f') c' := by
  refine move_bind (peek_bind ?_)
  by_cases hmore : c.rest.dropWhile isBlank ≠ [] ∨ tail = []
  · have hd := h.blanks hmore
    rw [hd.peek?_eq hmore]
    exact hf hd
  · rw [not_or, not_not] at hmore
    rw [peek?_eq_none rfl hmore.1]
    exact of_error hmore.2 (hstops hmore.1)

/-- A list is not complete where there are only blanks. -/
theorem exists_error_items (hc : c.rest.dropWhile isBlank = []) (m : Machine) :
    ∃ e s, (items fuel).run ⟨m, c⟩ = .error e s := by
  cases fuel with
  | zero => exact ⟨_, _, rfl⟩
  | succ fuel =>
    have hrun : ((items (fuel + 1)).fromPlace c).run m =
        (obstructed .openList (c.dropWhile isBlank) : Action (Value × Cursor)).run m := by
      rw [fromPlace_items, peek?_eq_none rfl hc]
    obtain ⟨d, hd⟩ := run_eq_error c hrun
    exact ⟨_, _, hd⟩

/-- A name at the end of the text ends there also in the longer text. -/
theorem atom (h : c.Within n tail c') (htail : AtDelimiter tail) :
    Alike n tail ReadAction.atom c ReadAction.atom c' := by
  have hend : c.rest.dropWhile (!isDelimiter ·) ≠ [] ∨ ∀ x ∈ tail.head?, (!isDelimiter x) = false :=
    .inr fun x hx => by simp [htail x hx]
  have hname : c'.takeWhile (!isDelimiter ·) = c.takeWhile (!isDelimiter ·) := by
    rw [Cursor.takeWhile, h.rest]
    exact (Cursor.Within.takeWhile_append hend).1
  intro m
  refine ⟨c'.dropWhile (!isDelimiter ·), ?_, h.dropWhile hend⟩
  show EStateM.Result.ok (m.lexicon.intern (String.ofList (c'.takeWhile (!isDelimiter ·)))).1
    (⟨{ m with lexicon := (m.lexicon.intern (String.ofList (c'.takeWhile (!isDelimiter ·)))).2 },
      c'.dropWhile (!isDelimiter ·)⟩ : Reading) = _
  rw [hname]
  rfl

section Step

variable (htail : AtDelimiter tail)
  (hexpr : ∀ {c c'}, c.Within n tail c' → Alike n tail (expr fuel) c (expr fuel') c')
  (hitems : ∀ {c c'}, c.Within n tail c' → Alike n tail (items fuel) c (items fuel') c')
include hexpr hitems

include htail in
theorem expr_succ (h : c.Within n tail c') :
    Alike n tail (expr (fuel + 1)) c (expr (fuel' + 1)) c' := by
  rw [expr, expr]
  refine next_bind h (fun _ _ => ⟨_, _, rfl⟩) fun {d d'} hd => ?_
  cases hpeek : d.peek? with
  | none => exact .blocked hd _
  | some x =>
    obtain ⟨r, hr⟩ := List.head?_eq_some_iff.mp hpeek
    split
    case h_1 hx => cases hx
    case h_2 | h_3 => exact .blocked hd _
    case h_4 hx => exact move_bind (hitems (hd.next hr))
    case h_5 hx =>
      exact move_bind (bind (hexpr (hd.next hr)) fun v d d' hd =>
        onMachine hd fun _ _ _ => run_quote_eq_error)
    case h_6 => exact atom hd htail

/-- What stands behind an element of a list. -/
theorem listTail (h : c.Within n tail c') :
    Alike n tail (ReadAction.listTail fuel) c (ReadAction.listTail fuel') c' := by
  rw [ReadAction.listTail, ReadAction.listTail]
  refine next_bind h (fun hend => ?_) fun {d d'} hd => ?_
  · rw [if_neg (Option.some_ne_none _).symm]
    exact exists_error_items ((List.dropWhile_idempotent isBlank c.rest).trans hend)
  · split
    case isFalse => exact hitems hd
    case isTrue hdot =>
      obtain ⟨r, hr⟩ := List.head?_eq_some_iff.mp hdot
      refine move_bind (bind (hexpr (hd.next hr)) fun v d d' hd =>
        next_bind hd (fun _ _ => ⟨_, _, rfl⟩) fun {d d'} hd => ?_)
      split
      case isTrue hclose =>
        obtain ⟨r, hr⟩ := List.head?_eq_some_iff.mp hclose
        exact move_bind (.pure (hd.next hr) v)
      case isFalse => exact .blocked_bind hd _

theorem items_succ (h : c.Within n tail c') :
    Alike n tail (items (fuel + 1)) c (items (fuel' + 1)) c' := by
  rw [items, items]
  refine next_bind h (fun _ _ => ⟨_, _, rfl⟩) fun {d d'} hd => ?_
  cases hpeek : d.peek? with
  | none => exact .blocked hd _
  | some x =>
    obtain ⟨r, hr⟩ := List.head?_eq_some_iff.mp hpeek
    split
    case h_1 hx => cases hx
    case h_2 => exact move_bind (.pure (hd.next hr) _)
    case h_3 =>
      exact bind (hexpr hd) fun v d d' hd =>
        bind (pinned v (listTail hexpr hitems hd)) fun w d d' hd =>
          onMachine hd fun _ _ _ => Action.run_cons_eq_error

end Step

theorem expr_items (htail : AtDelimiter tail) (hfuel : fuel ≤ fuel') :
    (∀ {c c'}, c.Within n tail c' → Alike n tail (expr fuel) c (expr fuel') c') ∧
      ∀ {c c'}, c.Within n tail c' → Alike n tail (items fuel) c (items fuel') c' := by
  induction fuel generalizing fuel' with
  | zero => exact ⟨fun _ => .unfinished, fun _ => .unfinished⟩
  | succ fuel ih =>
    obtain ⟨k, rfl⟩ : ∃ k, fuel' = k + 1 := ⟨fuel' - 1, by omega⟩
    obtain ⟨hexpr, hitems⟩ := ih (Nat.le_of_succ_le_succ hfuel)
    exact ⟨fun h => expr_succ htail hexpr hitems h, fun h => items_succ hexpr hitems h⟩

theorem atEnd_bind {f f' : Bool → ReadAction β}
    (h : Alike n tail (f (c.dropWhile isBlank).peek?.isNone) (c.dropWhile isBlank)
      (f' (c'.dropWhile isBlank).peek?.isNone) (c'.dropWhile isBlank)) :
    Alike n tail (atEnd >>= f) c (atEnd >>= f') c' := fun m => h m

end Alike

open ReadAction Grammar

/-- Where something is left to be read, or nothing follows in the longer text, reading does the same in
both. -/
theorem Alike.read {n : Nat} {tail : List Char} {c c' : Cursor} (h : c.Within n tail c')
    (htail : Grammar.AtDelimiter tail)
    (hmore : c.rest.dropWhile isBlank ≠ [] ∨ tail = []) :
    Alike n tail ReadAction.read c ReadAction.read c' := by
  have hsize := h.size_eq
  have hd := h.blanks hmore
  have hexpr : Alike n tail (expr (2 * c.size + 2) >>= fun v => pure (some v)) (c.dropWhile isBlank)
      (expr (2 * c'.size + 2) >>= fun v => pure (some v)) (c'.dropWhile isBlank) :=
    .bind ((Alike.expr_items htail (by omega)).1 hd) fun v d d' hd => .pure hd (some v)
  refine atEnd_bind ?_
  rw [hd.peek?_eq hmore]
  split
  · exact .pure hd none
  · exact fun m => hexpr m

namespace Cursor.Within

variable {n : Nat} {tail : List Char} {c' : Cursor} {s s₂ : Reading}

/-- What is read in the text is read in the longer text. -/
theorem exists_read (h : s.cursor.Within n tail c') (htail : AtDelimiter tail)
    (hmore : s.cursor.rest.dropWhile isBlank ≠ [] ∨ tail = []) {o : Option Value}
    (hread : ReadAction.read.run s = .ok o s₂) :
    ∃ d, ReadAction.read.run ⟨s.machine, c'⟩ = .ok o ⟨s₂.machine, d⟩ ∧ s₂.cursor.Within n tail d := by
  have hrun := Alike.read h htail hmore s.machine
  rwa [show ReadAction.read.run ⟨s.machine, s.cursor⟩ = .ok o s₂ from hread] at hrun

/-- Where the reader stops in the text, it stops at the end of the longer text. -/
theorem exists_error_read (h : s.cursor.Within n [] c') {why : Failure}
    (hread : ReadAction.read.run s = .error (.failure why) s₂) :
    ∃ d, ReadAction.read.run ⟨s.machine, c'⟩ = .error (.failure (why.shift n)) ⟨s₂.machine, d⟩ := by
  have hrun := Alike.read h nofun (.inr rfl) s.machine
  rw [show ReadAction.read.run ⟨s.machine, s.cursor⟩ = .error (.failure why) s₂ from hread] at hrun
  exact (hrun rfl).resolve_left nofun

end Cursor.Within

/-- It makes no difference whether blanks are skipped before a read. -/
theorem ReadAction.run_read_dropWhile (m : Machine) (c : Cursor) :
    ReadAction.read.run ⟨m, c.dropWhile isBlank⟩ = ReadAction.read.run ⟨m, c⟩ := by
  have hskip : ∀ {β : Type} (f : Bool → ReadAction β),
      (atEnd >>= f).run ⟨m, c.dropWhile isBlank⟩ = (atEnd >>= f).run ⟨m, c⟩ := by
    intro β f
    show (f ((c.dropWhile isBlank).dropWhile isBlank).peek?.isNone).run
      ⟨m, (c.dropWhile isBlank).dropWhile isBlank⟩ =
        (f (c.dropWhile isBlank).peek?.isNone).run ⟨m, c.dropWhile isBlank⟩
    rw [Cursor.dropWhile_dropWhile]
  exact hskip _

/-- Something is left to be read where an expression is read. -/
theorem ReadAction.dropWhile_ne_nil_of_read {s s₂ : Reading} {v : Value}
    (h : ReadAction.read.run s = .ok (some v) s₂) : s.cursor.rest.dropWhile isBlank ≠ [] := by
  intro hblank
  have hrun := run_read_of_blank (m := s.machine) hblank
  rw [show ReadAction.read.run ⟨s.machine, s.cursor⟩ = _ from h] at hrun
  cases hrun

/-- Nothing but blanks is left where no expression is read, and the machine is as it was. -/
theorem ReadAction.blank_of_read {s s₂ : Reading} (h : ReadAction.read.run s = .ok none s₂) :
    s.cursor.rest.dropWhile isBlank = [] ∧ s₂.machine = s.machine := by
  cases hc : s.cursor.rest.dropWhile isBlank with
  | nil =>
    have hrun := run_read_of_blank (m := s.machine) hc
    rw [show ReadAction.read.run ⟨s.machine, s.cursor⟩ = _ from h] at hrun
    cases hrun
    exact ⟨rfl, rfl⟩
  | cons x r =>
    have hrun : (ReadAction.read.fromPlace s.cursor).run s.machine = .ok (none, s₂.cursor) s₂.machine := by
      rw [run_fromPlace, show ReadAction.read.run ⟨s.machine, s.cursor⟩ = _ from h]
    rw [fromPlace_read_of_cons hc, Action.run_bind] at hrun
    cases hexpr : ((expr (2 * s.cursor.size + 2)).fromPlace s.cursor).run s.machine with
    | ok p m₂ =>
      rw [hexpr] at hrun
      cases hrun
    | error e m₂ =>
      rw [hexpr] at hrun
      cases hrun

end ArenaLisp
