import ArenaLisp.Proofs.Frame
import Mathlib.Data.List.DropRight

/-!
# Reading as work on a machine

`act.fromPlace c` is the reading action `act`, begun at a place of a text, as an action on the machine
alone, which gives the place at which it ended along with the value.  What is known of actions can then
be said of the reader.  The equations for `expr` and `items` show the reader in this form.
-/

namespace ArenaLisp

namespace Cursor

variable {c : Cursor} {p : Char → Bool} {x : Char} {r : List Char}

theorem rest_next (h : c.rest = x :: r) : c.next.rest = r := by
  cases c
  subst h
  rfl

theorem dropWhile_dropWhile : (c.dropWhile p).dropWhile p = c.dropWhile p := by
  have hnone : (c.rest.dropWhile p).takeWhile p = [] :=
    List.takeWhile_eq_nil_iff.mpr (List.dropWhile_get_zero_not p c.rest)
  have hrest : (c.rest.dropWhile p).dropWhile p = c.rest.dropWhile p :=
    List.dropWhile_idempotent p c.rest
  unfold dropWhile
  simp only [hnone, hrest, List.length_nil, Nat.add_zero]

end Cursor

namespace ReadAction

variable {α β : Type} (c : Cursor)

/-- A reading action that begins at a place of a text, as work on the machine alone. -/
def fromPlace (c : Cursor) (act : ReadAction α) : Action (α × Cursor) := fun m =>
  match act.run ⟨m, c⟩ with
  | .ok x s => .ok (x, s.cursor) s.machine
  | .error e s => .error e s.machine

theorem run_fromPlace (act : ReadAction α) (m : Machine) : (act.fromPlace c).run m =
    match act.run ⟨m, c⟩ with
    | .ok x s => .ok (x, s.cursor) s.machine
    | .error e s => .error e s.machine := rfl

theorem run_eq_ok {act : ReadAction α} {m m₂ : Machine} {x : α} {d : Cursor}
    (h : (act.fromPlace c).run m = .ok (x, d) m₂) : act.run ⟨m, c⟩ = .ok x ⟨m₂, d⟩ := by
  rw [run_fromPlace] at h
  cases hrun : act.run ⟨m, c⟩ with
  | ok y s =>
    rw [hrun] at h
    cases h
    rfl
  | error e s =>
    rw [hrun] at h
    cases h

theorem run_eq_error {act : ReadAction α} {m m₂ : Machine} {e : Stop}
    (h : (act.fromPlace c).run m = .error e m₂) : ∃ d, act.run ⟨m, c⟩ = .error e ⟨m₂, d⟩ := by
  rw [run_fromPlace] at h
  cases hrun : act.run ⟨m, c⟩ with
  | ok y s =>
    rw [hrun] at h
    cases h
  | error e s =>
    rw [hrun] at h
    cases h
    exact ⟨s.cursor, rfl⟩

theorem fromPlace_bind (act : ReadAction α) (f : α → ReadAction β) :
    (act >>= f).fromPlace c = act.fromPlace c >>= fun p => (f p.1).fromPlace p.2 := by
  funext m
  show (match EStateM.bind act f ⟨m, c⟩ with
    | .ok x s => EStateM.Result.ok (x, s.cursor) s.machine
    | .error e s => .error e s.machine) = EStateM.bind (act.fromPlace c) _ m
  unfold EStateM.bind fromPlace EStateM.run
  cases act ⟨m, c⟩ <;> rfl

theorem fromPlace_onMachine (act : Action α) :
    (onMachine act).fromPlace c = act >>= fun x => pure (x, c) := by
  funext m
  show (match (onMachine act).run ⟨m, c⟩ with
    | .ok x s => EStateM.Result.ok (x, s.cursor) s.machine
    | .error e s => .error e s.machine) = EStateM.bind act (fun x => pure (x, c)) m
  rw [run_onMachine]
  unfold EStateM.bind EStateM.run
  dsimp only
  cases act m <;> rfl

theorem fromPlace_pinned (v : Value) (act : ReadAction α) :
    (pinned v act).fromPlace c = Action.pinned v (act.fromPlace c) := by
  funext m
  unfold fromPlace EStateM.run pinned bracket Action.pinned bracket EStateM.run
  dsimp only
  cases act ⟨m.pin v, c⟩ <;> rfl

theorem fromPlace_skipBlanks_bind (f : Unit → ReadAction β) :
    (skipBlanks >>= f).fromPlace c = (f ()).fromPlace (c.dropWhile isBlank) := rfl

theorem fromPlace_peek_bind (f : Option Char → ReadAction β) :
    (peek? >>= f).fromPlace c = (f c.peek?).fromPlace c := rfl

/-- Stopping at an obstacle, at a place of a text. -/
def obstructed (obstacle : Obstacle) (c : Cursor) : Action α :=
  throw (.failure (.unreadable (.blocked obstacle c.pos)))

/-- What stands behind an element of a list. -/
def listTail (fuel : Nat) : ReadAction Value := do
  skipBlanks
  if (← peek?) = some '.' then
    skip
    let tail ← expr fuel
    skipBlanks
    unless (← peek?) = some ')' do blocked .openTail
    skip
    return tail
  else items fuel

theorem fromPlace_atom : atom.fromPlace c = (do
    let v ← Action.intern (String.ofList (c.takeWhile (!isDelimiter ·)))
    return (v, c.dropWhile (!isDelimiter ·))) := rfl

/-- What the next character makes of an expression. -/
theorem fromPlace_expr (fuel : Nat) : (expr (fuel + 1)).fromPlace c =
    match (c.dropWhile isBlank).peek? with
    | none => obstructed .endOfText (c.dropWhile isBlank)
    | some ')' => obstructed .strayClose (c.dropWhile isBlank)
    | some '.' => obstructed .strayDot (c.dropWhile isBlank)
    | some '(' => (items fuel).fromPlace (c.dropWhile isBlank).next
    | some '\x27' => do
      let p ← (expr fuel).fromPlace (c.dropWhile isBlank).next
      let v ← quote p.1
      return (v, p.2)
    | some _ => atom.fromPlace (c.dropWhile isBlank) := by
  rw [expr, fromPlace_skipBlanks_bind, fromPlace_peek_bind]
  generalize (c.dropWhile isBlank).peek? = next?
  split
  · rfl
  · rfl
  · rfl
  · rfl
  · show ((expr fuel >>= fun e => onMachine (quote e)).fromPlace (c.dropWhile isBlank).next) = _
    rw [fromPlace_bind]
    congr 1
    funext p
    exact fromPlace_onMachine _ _
  · simp only

/-- What the next character makes of what follows an opening parenthesis or an element. -/
theorem fromPlace_items (fuel : Nat) : (items (fuel + 1)).fromPlace c =
    match (c.dropWhile isBlank).peek? with
    | none => obstructed .openList (c.dropWhile isBlank)
    | some ')' => pure (.nil, (c.dropWhile isBlank).next)
    | some _ => do
      let p ← (expr fuel).fromPlace (c.dropWhile isBlank)
      let q ← Action.pinned p.1 ((listTail fuel).fromPlace p.2)
      let v ← Action.cons p.1 q.1
      return (v, q.2) := by
  rw [items, fromPlace_skipBlanks_bind, fromPlace_peek_bind]
  generalize (c.dropWhile isBlank).peek? = next?
  split
  · rfl
  · rfl
  · simp only
    show ((expr fuel >>= fun head => pinned head (listTail fuel) >>= fun tail =>
      onMachine (Action.cons head tail)).fromPlace (c.dropWhile isBlank)) = _
    rw [fromPlace_bind]
    congr 1
    funext p
    rw [fromPlace_bind, fromPlace_pinned]
    congr 1
    funext q
    exact fromPlace_onMachine _ _

/-- What the next character makes of what stands behind an element: an explicit tail and the end of
the list, or more elements. -/
theorem fromPlace_listTail (fuel : Nat) : (listTail fuel).fromPlace c =
    if (c.dropWhile isBlank).peek? = some '.' then do
      let p ← (expr fuel).fromPlace (c.dropWhile isBlank).next
      let e := p.2.dropWhile isBlank
      if e.peek? = some ')' then return (p.1, e.next) else obstructed .openTail e
    else (items fuel).fromPlace (c.dropWhile isBlank) := by
  rw [listTail, fromPlace_skipBlanks_bind, fromPlace_peek_bind]
  split
  · show ((expr fuel >>= fun tail => skipBlanks >>= fun _ => peek? >>= fun next? => _).fromPlace
      (c.dropWhile isBlank).next) = _
    rw [fromPlace_bind]
    congr 1
    funext p
    rw [fromPlace_skipBlanks_bind, fromPlace_peek_bind]
    dsimp only
    split <;> rfl
  · rfl

/-- It makes no difference whether blanks are skipped before an expression. -/
theorem fromPlace_expr_dropWhile (fuel : Nat) :
    (expr fuel).fromPlace (c.dropWhile isBlank) = (expr fuel).fromPlace c := by
  cases fuel with
  | zero => rfl
  | succ fuel => rw [fromPlace_expr, fromPlace_expr, Cursor.dropWhile_dropWhile]

theorem fromPlace_items_dropWhile (fuel : Nat) :
    (items fuel).fromPlace (c.dropWhile isBlank) = (items fuel).fromPlace c := by
  cases fuel with
  | zero => rfl
  | succ fuel => rw [fromPlace_items, fromPlace_items, Cursor.dropWhile_dropWhile]

/-- An expression is nothing, a list, a quoted expression or an atom. -/
theorem fromPlace_expr_cases (fuel : Nat) :
    (∃ o, (expr (fuel + 1)).fromPlace c = obstructed o (c.dropWhile isBlank)) ∨
    (expr (fuel + 1)).fromPlace c = (items fuel).fromPlace (c.dropWhile isBlank).next ∨
    ((expr (fuel + 1)).fromPlace c = do
      let p ← (expr fuel).fromPlace (c.dropWhile isBlank).next
      let v ← quote p.1
      return (v, p.2)) ∨
    (expr (fuel + 1)).fromPlace c = atom.fromPlace (c.dropWhile isBlank) := by
  rw [fromPlace_expr]
  split
  · exact .inl ⟨_, rfl⟩
  · exact .inl ⟨_, rfl⟩
  · exact .inl ⟨_, rfl⟩
  · exact .inr (.inl rfl)
  · exact .inr (.inr (.inl rfl))
  · exact .inr (.inr (.inr rfl))

/-- What follows an opening parenthesis or an element is nothing, the end of the list, or an element
with what stands behind it. -/
theorem fromPlace_items_cases (fuel : Nat) :
    (∃ o, (items (fuel + 1)).fromPlace c = obstructed o (c.dropWhile isBlank)) ∨
    (items (fuel + 1)).fromPlace c = pure (.nil, (c.dropWhile isBlank).next) ∨
    (items (fuel + 1)).fromPlace c = do
      let p ← (expr fuel).fromPlace (c.dropWhile isBlank)
      let q ← Action.pinned p.1 ((listTail fuel).fromPlace p.2)
      let v ← Action.cons p.1 q.1
      return (v, q.2) := by
  rw [fromPlace_items]
  split
  · exact .inl ⟨_, rfl⟩
  · exact .inr (.inl rfl)
  · exact .inr (.inr rfl)

theorem fromPlace_atEnd_bind (f : Bool → ReadAction β) :
    (atEnd >>= f).fromPlace c =
      (f (c.dropWhile isBlank).peek?.isNone).fromPlace (c.dropWhile isBlank) := rfl

theorem fromPlace_read : read.fromPlace c =
    if (c.dropWhile isBlank).peek?.isNone then pure (none, c.dropWhile isBlank)
    else do
      let p ← (expr (2 * c.size + 2)).fromPlace (c.dropWhile isBlank)
      return (some p.1, p.2) := by
  unfold read
  rw [fromPlace_atEnd_bind]
  split
  · rfl
  · funext m
    show (expr (2 * c.size + 2) >>= fun v => pure (some v)).fromPlace (c.dropWhile isBlank) m = _
    rw [fromPlace_bind]
    rfl

/-- Takes what was read, with the place behind it, for all of a text. -/
def only (p : Option Value × Cursor) : Action (Value × Cursor) :=
  match p.1 with
  | none => throw (.failure (.unreadable .empty))
  | some v =>
    let e := p.2.dropWhile isBlank
    if e.peek?.isNone then return (v, e) else obstructed .surplus e

theorem fromPlace_readOnly : readOnly.fromPlace c = read.fromPlace c >>= only := by
  unfold readOnly
  rw [fromPlace_bind]
  congr 1
  funext p
  obtain ⟨o, d⟩ := p
  cases o with
  | none => rfl
  | some v =>
    show (atEnd >>= fun atEnd => _).fromPlace d = _
    rw [fromPlace_atEnd_bind, only]
    dsimp only
    split <;> rfl

/-- Reading the only expression of a text. -/
theorem parse_eq (text : String) :
    Action.parse text = (do return (← readOnly.fromPlace (.ofString text)).1) := by
  funext m
  show _ = EStateM.bind (readOnly.fromPlace (.ofString text)) (fun p => pure p.1) m
  unfold Action.parse EStateM.bind fromPlace
  cases readOnly.run ⟨m, .ofString text⟩ <;> rfl

end ReadAction

/-! ### What reading keeps -/

namespace Leaves

variable {T : Machine → Machine → Prop} (hT : Frame T)
  (hintern : ∀ m s, T m { m with lexicon := (m.lexicon.intern s).2 })
include hT hintern

theorem atom (c : Cursor) : Leaves T (ReadAction.atom.fromPlace c) := by
  rw [ReadAction.fromPlace_atom]
  exact bind hT (fun m => hintern m _) fun _ => .pure hT _

omit hintern in
theorem listTail_of {fuel : Nat} (hexpr : ∀ c, Leaves T ((ReadAction.expr fuel).fromPlace c))
    (hitems : ∀ c, Leaves T ((ReadAction.items fuel).fromPlace c)) (c : Cursor) :
    Leaves T ((ReadAction.listTail fuel).fromPlace c) := by
  rw [ReadAction.fromPlace_listTail]
  split
  · refine bind hT (hexpr _) fun p => ?_
    dsimp only
    split
    · exact .pure hT _
    · exact .throw hT _
  · exact hitems _

theorem expr_items (fuel : Nat) :
    (∀ c, Leaves T ((ReadAction.expr fuel).fromPlace c)) ∧
      ∀ c, Leaves T ((ReadAction.items fuel).fromPlace c) := by
  induction fuel with
  | zero => exact ⟨fun _ => .throw hT _, fun _ => .throw hT _⟩
  | succ fuel ih =>
    obtain ⟨hexpr, hitems⟩ := ih
    refine ⟨fun c => ?_, fun c => ?_⟩
    · rcases ReadAction.fromPlace_expr_cases c fuel with ⟨o, h⟩ | h | h | h
      · exact h ▸ .throw hT _
      · exact h ▸ hitems _
      · rw [h]
        exact bind hT (hexpr _) fun p => bind hT
          (bind hT (cons hT _ _) fun _ => cons hT _ _) fun v => .pure hT _
      · exact h ▸ atom hT hintern _
    · rcases ReadAction.fromPlace_items_cases c fuel with ⟨o, h⟩ | h | h
      · exact h ▸ .throw hT _
      · exact h ▸ .pure hT _
      · rw [h]
        exact bind hT (hexpr _) fun p =>
          bind hT (pinned hT _ (listTail_of hT hexpr hitems p.2)) fun q =>
            bind hT (cons hT _ _) fun v => .pure hT _

theorem listTail (fuel : Nat) (c : Cursor) : Leaves T ((ReadAction.listTail fuel).fromPlace c) :=
  listTail_of hT (expr_items hT hintern fuel).1 (expr_items hT hintern fuel).2 c

theorem read (c : Cursor) : Leaves T (ReadAction.read.fromPlace c) := by
  rw [ReadAction.fromPlace_read]
  split
  · exact .pure hT _
  · exact bind hT ((expr_items hT hintern _).1 _) fun p => .pure hT _

omit hintern in
theorem only (p : Option Value × Cursor) : Leaves T (ReadAction.only p) := by
  unfold ReadAction.only
  split
  · exact .throw hT _
  · dsimp only
    split
    · exact .pure hT _
    · exact .throw hT _

theorem parse (text : String) : Leaves T (Action.parse text) := by
  rw [ReadAction.parse_eq, ReadAction.fromPlace_readOnly]
  exact bind hT (bind hT (read hT hintern _) (only hT)) fun p => .pure hT _

end Leaves

end ArenaLisp
