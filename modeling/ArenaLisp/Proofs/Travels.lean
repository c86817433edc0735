import ArenaLisp.Proofs.Accepts

/-!
# Where reading leads on any machine

`Travels c act Q E` says where the reading action `act` ends when it begins at the place `c`, without a
condition on the machine on which it works: either it gives a value, and `Q` holds of the value and of the
place behind it, or it stops, and `E` holds of the stop and of the place where it stopped.  In this sense
the reader follows the grammar step by step (`travels_reader`).  It ends behind an expression that the
grammar derives, or at the obstacle that the grammar finds, or somewhere in the text for lack of room; and
it never goes deeper than it is ready to.
-/

namespace ArenaLisp

/-- A place that lies in the same text as another, and not before it. -/
structure Cursor.Precedes (c d : Cursor) : Prop where
  size : d.size = c.size
  suffix : d.rest <:+ c.rest

namespace Cursor.Precedes

variable {c d e : Cursor} {p : Char → Bool}

protected theorem refl (c : Cursor) : c.Precedes c := ⟨rfl, List.suffix_rfl⟩

theorem trans (h : c.Precedes d) (h' : d.Precedes e) : c.Precedes e :=
  ⟨h'.size.trans h.size, h'.suffix.trans h.suffix⟩

theorem dropWhile (h : c.Precedes d) : c.Precedes (d.dropWhile p) :=
  ⟨h.size, (List.dropWhile_suffix p).trans h.suffix⟩

theorem blanks (c : Cursor) : c.Precedes (c.dropWhile isBlank) := (Cursor.Precedes.refl c).dropWhile

theorem next (h : c.Precedes d) : c.Precedes d.next := by
  refine ⟨d.size_next.trans h.size, List.IsSuffix.trans ?_ h.suffix⟩
  obtain ⟨rest, pos, size, hpos⟩ := d
  cases rest with
  | nil => exact List.suffix_rfl
  | cons x rest => exact List.suffix_cons x rest

theorem pos_le (h : c.Precedes d) : c.pos ≤ d.pos := by
  have hlen := h.suffix.length_le
  have hc := c.pos_add_length
  have hd := d.pos_add_length
  have hsize := h.size
  omega

/-- The place lies farther on if less is left. -/
theorem pos_lt (h : c.Precedes d) (hlt : d.rest.length < c.rest.length) : c.pos < d.pos := by
  have hc := c.pos_add_length
  have hd := d.pos_add_length
  have hsize := h.size
  omega

end Cursor.Precedes

/-- Where an action ends that begins at a place, whatever the machine: behind its value, or where it
stops. -/
def Travels {α : Type} (c : Cursor) (act : ReadAction α) (Q : α → Cursor → Prop)
    (E : Stop → Cursor → Prop) : Prop :=
  ∀ m, match act.run ⟨m, c⟩ with
    | .ok x s => Q x s.cursor
    | .error e s => E e s.cursor

namespace Travels

open ReadAction

variable {α β : Type} {c : Cursor} {act : ReadAction α} {f : α → ReadAction β}
  {Q Q' : α → Cursor → Prop} {R : β → Cursor → Prop} {E E' : Stop → Cursor → Prop}

/-! ### Rules -/

protected theorem pure {x : α} (h : Q x c) : Travels c (pure x) Q E := fun _ => h

theorem blocked {o : Obstacle} (h : E (.failure (.unreadable (.blocked o c.pos))) c) :
    Travels c (ReadAction.blocked o) Q E := fun _ => h

theorem mono (h : Travels c act Q E) (hQ : ∀ x d, Q x d → Q' x d) (hE : ∀ e d, E e d → E' e d) :
    Travels c act Q' E' := by
  intro m
  have h := h m
  cases hrun : act.run ⟨m, c⟩ with
  | ok x s =>
    rw [hrun] at h
    exact hQ x _ h
  | error e s =>
    rw [hrun] at h
    exact hE e _ h

theorem bind (h : Travels c act Q E) (hf : ∀ x d, Q x d → Travels d (f x) R E) :
    Travels c (act >>= f) R E := by
  intro m
  have h := h m
  show match EStateM.bind act f ⟨m, c⟩ with
    | .ok x s => R x s.cursor
    | .error e s => E e s.cursor
  unfold EStateM.bind
  cases hrun : act.run ⟨m, c⟩ with
  | ok x s =>
    rw [hrun] at h
    rw [show act ⟨m, c⟩ = .ok x s from hrun]
    exact hf x s.cursor h s.machine
  | error e s =>
    rw [hrun] at h
    rw [show act ⟨m, c⟩ = .error e s from hrun]
    exact h

theorem move_bind {g : Cursor → Cursor} {f : Unit → ReadAction β} (h : Travels (g c) (f ()) R E) :
    Travels c (move g >>= f) R E := fun m => h m

theorem peek_bind {f : Option Char → ReadAction β} (h : Travels c (f c.peek?) R E) :
    Travels c (peek? >>= f) R E := fun m => h m

theorem pinned (v : Value) (h : Travels c act Q E) : Travels c (ReadAction.pinned v act) Q E := by
  intro m
  have h := h (m.pin v)
  rw [run_pinned]
  cases hrun : act.run ⟨m.pin v, c⟩ with
  | ok x s =>
    rw [hrun] at h
    exact h
  | error e s =>
    rw [hrun] at h
    exact h

/-- Work on the machine alone leaves the place as it is. -/
theorem onMachine {act : Action α} (hQ : ∀ x, Q x c)
    (hE : ∀ m e m₂, act.run m = .error e m₂ → E e c) : Travels c (ReadAction.onMachine act) Q E := by
  intro m
  rw [run_onMachine]
  dsimp only
  cases hrun : act.run m with
  | ok x m₂ => exact hQ x
  | error e m₂ => exact hE m e m₂ hrun

end Travels

/-- A pair only fails for lack of room. -/
theorem Action.run_cons_eq_error {m m₂ : Machine} {x y : Value} {e : Stop}
    (h : (Action.cons x y).run m = .error e m₂) : e = .failure .outOfMemory := by
  rw [Action.run_cons] at h
  split at h
  · cases h
  · cases h
    rfl

theorem ReadAction.run_quote_eq_error {m m₂ : Machine} {v : Value} {e : Stop}
    (h : (ReadAction.quote v).run m = .error e m₂) : e = .failure .outOfMemory := by
  rw [ReadAction.quote, Action.run_bind] at h
  cases hrun : (Action.cons v .nil).run m with
  | ok x m₃ =>
    rw [hrun] at h
    exact Action.run_cons_eq_error h
  | error e' m₃ =>
    rw [hrun] at h
    cases h
    exact Action.run_cons_eq_error hrun

/-! ### The reader -/

/-- Behind a place, where so much of the text is left that `D` holds of it. -/
def Cursor.Arrives (c : Cursor) (D : List Char → Prop) (d : Cursor) : Prop := c.Precedes d ∧ D d.rest

/-- A stop behind a place: for lack of room, or at an obstacle for which `B` holds of what is left.  The
stop names the place. -/
def Cursor.Stuck (c : Cursor) (B : Obstacle → List Char → Prop) (e : Stop) (d : Cursor) : Prop :=
  c.Precedes d ∧ (e = .failure .outOfMemory ∨
    ∃ o, e = .failure (.unreadable (.blocked o d.pos)) ∧ B o d.rest)

theorem Cursor.Stuck.mono {c c' d : Cursor} {B B' : Obstacle → List Char → Prop} {e : Stop}
    (h : c.Stuck B e d) (hc : c'.Precedes c) (hB : ∀ o left, B o left → B' o left) :
    c'.Stuck B' e d := by
  obtain ⟨hd, rfl | ⟨o, rfl, ho⟩⟩ := h
  · exact ⟨hc.trans hd, .inl rfl⟩
  · exact ⟨hc.trans hd, .inr ⟨o, rfl, hB o _ ho⟩⟩

namespace Grammar

open ReadAction

/-- What is left behind a part of a text. -/
def Part.Derived (p : Part) (cs rest : List Char) : Prop := ∃ e, Derives p cs e rest

/-- An obstacle in a part of a text, and what is left there. -/
def Part.Blocked (p : Part) (cs : List Char) (o : Obstacle) (left : List Char) : Prop :=
  ∃ n, Blocks p cs o left n

/-- Reading a part from a place follows the grammar. -/
def Part.Follows (p : Part) (c : Cursor) (act : ReadAction Value) : Prop :=
  Travels c act (fun _ d => c.Arrives (p.Derived c.rest) d) fun e d => c.Stuck (p.Blocked c.rest) e d

variable {p : Part} {c : Cursor} {fuel : Nat}

/-- It makes no difference to the text whether its blanks have been skipped. -/
theorem dropWhile_rest (c : Cursor) :
    c.rest.dropWhile isBlank = (c.dropWhile isBlank).rest.dropWhile isBlank :=
  (List.dropWhile_idempotent isBlank c.rest).symm

/-- An obstacle behind the blanks, where the reader stands. -/
theorem travels_blocked {α : Type} {d : Cursor} {Q : α → Cursor → Prop}
    {B : Obstacle → List Char → Prop} {o : Obstacle} (hd : c.Precedes d)
    (hB : B o (d.rest.dropWhile isBlank)) : Travels (d.dropWhile isBlank) (blocked o) Q (c.Stuck B) :=
  .blocked ⟨hd.dropWhile, .inr ⟨o, rfl, hB⟩⟩

section Expr

variable {x : Char} {r : List Char}

theorem travels_name (h : c.rest.dropWhile isBlank = x :: r) (hopen : x ≠ '(') (hclose : x ≠ ')')
    (hdot : x ≠ '.') (hquote : x ≠ '\x27') {E : Stop → Cursor → Prop} :
    Travels (c.dropWhile isBlank) atom (fun _ d => c.Arrives (Part.expr.Derived c.rest) d) E := by
  have hcut := List.takeWhile_append_dropWhile (p := (!isDelimiter ·)) (l := x :: r)
  have hname : IsName ((x :: r).takeWhile (!isDelimiter ·)) :=
    isName_takeWhile (isBlank_of_dropWhile h) hopen hclose hdot hquote
  have hderived : Part.expr.Derived c.rest ((c.rest.dropWhile isBlank).dropWhile (!isDelimiter ·)) := by
    rw [h]
    exact ⟨_, .name (h.trans hcut.symm) hname (atDelimiter_dropWhile _)⟩
  exact fun m => ⟨(Cursor.Precedes.blanks c).dropWhile, hderived⟩

theorem travels_list (h : c.rest.dropWhile isBlank = '(' :: r)
    (hitems : Part.items.Follows (c.dropWhile isBlank).next (items fuel)) :
    Travels (c.dropWhile isBlank) (skip >>= fun _ => items fuel)
      (fun _ d => c.Arrives (Part.expr.Derived c.rest) d)
      fun e d => c.Stuck (Part.expr.Blocked c.rest) e d := by
  have hc := (Cursor.Precedes.blanks c).next
  rw [Part.Follows, rest_next_dropWhile (c := c) rfl h] at hitems
  refine .move_bind (hitems.mono (fun v d hd => ?_) fun e d hd => ?_)
  · obtain ⟨hprec, t, ht⟩ := hd
    exact ⟨hc.trans hprec, t, .list h ht⟩
  · refine hd.mono hc ?_
    rintro o left ⟨n, hb⟩
    exact ⟨n, .list h hb⟩

theorem travels_quote (h : c.rest.dropWhile isBlank = '\x27' :: r)
    (hexpr : Part.expr.Follows (c.dropWhile isBlank).next (expr fuel)) :
    Travels (c.dropWhile isBlank)
      (skip >>= fun _ => expr fuel >>= fun e => onMachine (ReadAction.quote e))
      (fun _ d => c.Arrives (Part.expr.Derived c.rest) d)
      fun e d => c.Stuck (Part.expr.Blocked c.rest) e d := by
  have hc := (Cursor.Precedes.blanks c).next
  rw [Part.Follows, rest_next_dropWhile (c := c) rfl h] at hexpr
  refine .move_bind (.bind (hexpr.mono (fun _ _ hd => hd) fun e d hd => ?_) fun v d hd => ?_)
  · refine hd.mono hc ?_
    rintro o left ⟨n, hb⟩
    exact ⟨n, .quote h hb⟩
  · obtain ⟨hprec, t, ht⟩ := hd
    exact .onMachine (fun _ => ⟨hc.trans hprec, _, .quote h ht⟩)
      fun m e m₂ hrun => ⟨hc.trans hprec, .inl (run_quote_eq_error hrun)⟩

end Expr

section Step

variable (ih : ∀ (p : Part) (d : Cursor), p.depth d.rest ≤ fuel → p.Follows d (p.reader fuel))
include ih

theorem follows_expr (hfuel : Part.expr.depth c.rest ≤ fuel + 1) :
    Part.expr.Follows c (expr (fuel + 1)) := by
  rw [Part.depth] at hfuel
  rw [expr]
  refine .move_bind (.peek_bind ?_)
  cases h : c.rest.dropWhile isBlank with
  | nil =>
    rw [peek?_eq_none rfl h]
    exact travels_blocked (.refl c) (h ▸ ⟨0, .endOfText h⟩)
  | cons x r =>
    have hlt := length_lt_of_dropWhile h
    have hnext : ∀ p : Part, p.Follows (c.dropWhile isBlank).next (p.reader fuel) := by
      refine fun p => ih p _ ?_
      rw [rest_next_dropWhile (c := c) rfl h]
      cases p <;> rw [Part.depth] <;> omega
    rw [peek?_eq rfl h]
    split
    case h_1 hx => cases hx
    case h_2 hx =>
      cases hx
      exact travels_blocked (.refl c) (h ▸ ⟨0, .strayClose h⟩)
    case h_3 hx =>
      cases hx
      exact travels_blocked (.refl c) (h ▸ ⟨0, .strayDot h⟩)
    case h_4 hx =>
      cases hx
      exact travels_list h (hnext .items)
    case h_5 hx =>
      cases hx
      exact travels_quote h (hnext .expr)
    case h_6 hclose hdot hopen hquote hx =>
      cases hx
      exact travels_name h hopen hclose hdot hquote

/-- Behind a dot there is the tail of the list and its end, or an obstacle. -/
theorem travels_behind_dot {cs r : List Char} {e : SExpr} (he : Derives .expr cs e c.rest)
    (hdot : c.rest.dropWhile isBlank = '.' :: r) (hfuel : Part.items.depth c.rest ≤ fuel) :
    Travels c (listTail fuel) (fun _ d => c.Arrives (Part.items.Derived cs) d)
      fun e d => c.Stuck (Part.items.Blocked cs) e d := by
  have hc := Cursor.Precedes.blanks c
  have hlt := length_lt_of_dropWhile hdot
  have hnext := rest_next_dropWhile (c := c) rfl hdot
  rw [Part.depth] at hfuel
  have hexpr := ih .expr (c.dropWhile isBlank).next (by rw [hnext, Part.depth]; omega)
  rw [Part.Follows, hnext] at hexpr
  rw [listTail]
  refine .move_bind (.peek_bind ?_)
  rw [if_pos (peek?_eq rfl hdot)]
  refine .move_bind (.bind (hexpr.mono (fun _ _ hd => hd) fun e d hd => ?_) fun v d hd => ?_)
  · refine hd.mono hc.next ?_
    rintro o left ⟨n, hb⟩
    exact ⟨_, .afterDot he hdot hb⟩
  · obtain ⟨hprec, t, ht⟩ := hd
    have hprec := hc.next.trans hprec
    refine .move_bind (.peek_bind ?_)
    split
    case isTrue hpeek =>
      obtain ⟨rest, hclose⟩ := List.head?_eq_some_iff.mp
        (show (d.rest.dropWhile isBlank).head? = some ')' from hpeek)
      have hrest := rest_next_dropWhile (c := d) rfl hclose
      exact .move_bind (.pure ⟨hprec.dropWhile.next, hrest ▸ ⟨_, .dotted he hdot ht hclose⟩⟩)
    case isFalse hpeek =>
      exact .bind (Q := fun _ _ => False) (travels_blocked hprec ⟨_, .openTail he hdot ht hpeek⟩)
        fun _ _ hd => hd.elim

/-- Without a dot there are more elements, or an obstacle among them. -/
theorem travels_behind {cs : List Char} {e : SExpr} (he : Derives .expr cs e c.rest)
    (hdot : (c.rest.dropWhile isBlank).head? ≠ some '.') (hfuel : Part.items.depth c.rest ≤ fuel) :
    Travels c (listTail fuel) (fun _ d => c.Arrives (Part.items.Derived cs) d)
      fun e d => c.Stuck (Part.items.Blocked cs) e d := by
  have hc := Cursor.Precedes.blanks c
  have hlen := hc.suffix.length_le
  rw [Part.depth] at hfuel
  have hitems := ih .items (c.dropWhile isBlank) (by rw [Part.depth]; omega)
  have hpeek : (c.dropWhile isBlank).peek? ≠ some '.' := hdot
  rw [listTail]
  refine .move_bind (.peek_bind ?_)
  rw [if_neg hpeek]
  refine hitems.mono (fun v d hd => ?_) fun e d hd => ?_
  · obtain ⟨hprec, t, ht⟩ := hd
    exact ⟨hc.trans hprec, _, .more he (ht.congr (dropWhile_rest c))⟩
  · refine hd.mono hc ?_
    rintro o left ⟨n, hb⟩
    exact ⟨_, .tail he hdot (hb.congr (dropWhile_rest c))⟩

theorem travels_listTail {cs : List Char} {e : SExpr} (he : Derives .expr cs e c.rest)
    (hfuel : Part.items.depth c.rest ≤ fuel) :
    Travels c (listTail fuel) (fun _ d => c.Arrives (Part.items.Derived cs) d)
      fun e d => c.Stuck (Part.items.Blocked cs) e d := by
  by_cases hdot : (c.rest.dropWhile isBlank).head? = some '.'
  · obtain ⟨r, hr⟩ := List.head?_eq_some_iff.mp hdot
    exact travels_behind_dot ih he hr hfuel
  · exact travels_behind ih he hdot hfuel

/-- An element of a list, and what stands behind it. -/
theorem travels_element {x : Char} {r : List Char} (h : c.rest.dropWhile isBlank = x :: r)
    (hclose : x ≠ ')') (hfuel : Part.items.depth c.rest ≤ fuel + 1) :
    Travels (c.dropWhile isBlank)
      (expr fuel >>= fun head => pinned head (listTail fuel) >>= fun tail =>
        onMachine (Action.cons head tail))
      (fun _ d => c.Arrives (Part.items.Derived c.rest) d)
      fun e d => c.Stuck (Part.items.Blocked c.rest) e d := by
  have hc := Cursor.Precedes.blanks c
  have hlen := hc.suffix.length_le
  rw [Part.depth] at hfuel
  have hexpr := ih .expr (c.dropWhile isBlank) (by rw [Part.depth]; omega)
  refine .bind (hexpr.mono (fun _ _ hd => hd) fun e d hd => ?_) fun v d hd => ?_
  · refine hd.mono hc ?_
    rintro o left ⟨n, hb⟩
    exact ⟨n, .head h hclose (hb.congr (dropWhile_rest c))⟩
  · obtain ⟨hprec, e, he⟩ := hd
    have hprec := hc.trans hprec
    have he : Derives .expr c.rest e d.rest := he.congr (dropWhile_rest c)
    have hlt := he.length_lt
    have htail := travels_listTail ih he (by rw [Part.depth]; omega)
    have hpinned : Travels d (pinned v (listTail fuel))
        (fun _ d => c.Arrives (Part.items.Derived c.rest) d)
        fun e d => c.Stuck (Part.items.Blocked c.rest) e d := by
      refine .pinned v (htail.mono (fun w d' hd => ⟨hprec.trans hd.1, hd.2⟩) fun e d' hd => ?_)
      exact hd.mono hprec fun _ _ hb => hb
    refine hpinned.bind fun w d' hd => ?_
    exact .onMachine (fun _ => hd) fun m e m₂ hrun => ⟨hd.1, .inl (Action.run_cons_eq_error hrun)⟩

theorem follows_items (hfuel : Part.items.depth c.rest ≤ fuel + 1) :
    Part.items.Follows c (items (fuel + 1)) := by
  rw [items]
  refine .move_bind (.peek_bind ?_)
  cases h : c.rest.dropWhile isBlank with
  | nil =>
    rw [peek?_eq_none rfl h]
    exact travels_blocked (.refl c) (h ▸ ⟨0, .openList h⟩)
  | cons x r =>
    rw [peek?_eq rfl h]
    split
    case h_1 hx => cases hx
    case h_2 hx =>
      cases hx
      have hrest := rest_next_dropWhile (c := c) rfl h
      exact .move_bind (.pure ⟨(Cursor.Precedes.blanks c).next, hrest ▸ ⟨_, .close h⟩⟩)
    case h_3 hclose hx =>
      cases hx
      exact travels_element ih h hclose hfuel

end Step

/-- The reader follows the grammar, if it is ready to go deep enough. -/
theorem follows_reader (hfuel : p.depth c.rest ≤ fuel) : p.Follows c (p.reader fuel) := by
  induction fuel generalizing p c with
  | zero =>
    obtain ⟨k, hk⟩ := exists_eq_succ_of_depth_le hfuel
    cases hk
  | succ fuel ih =>
    cases p with
    | expr => exact follows_expr (fun _ _ hd => ih hd) hfuel
    | items => exact follows_items (fun _ _ hd => ih hd) hfuel

end Grammar

namespace ReadAction

open Grammar

variable {c : Cursor}

theorem travels_atEnd_bind {β : Type} {f : Bool → ReadAction β} {R : β → Cursor → Prop}
    {E : Stop → Cursor → Prop}
    (h : Travels (c.dropWhile isBlank) (f (c.dropWhile isBlank).peek?.isNone) R E) :
    Travels c (atEnd >>= f) R E := fun m => h m

/-- The next expression is read to its end, unless there is none or the reader stops. -/
theorem travels_read (c : Cursor) :
    Travels c read
      (fun o d => c.Precedes d ∧ if o.isSome then Part.expr.Derived c.rest d.rest else d.rest = [])
      fun e d => c.Stuck (Part.expr.Blocked c.rest) e d := by
  have hc := Cursor.Precedes.blanks c
  rw [read]
  refine travels_atEnd_bind ?_
  split
  case isTrue hnone =>
    refine .pure ⟨hc, ?_⟩
    exact List.head?_eq_none_iff.mp (Option.isNone_iff_eq_none.mp hnone)
  case isFalse _ =>
    have hexpr : Part.expr.Follows (c.dropWhile isBlank) (expr (2 * c.size + 2)) :=
      follows_reader (depth_le (c.dropWhile isBlank))
    have hsome : Travels (c.dropWhile isBlank) (expr (2 * c.size + 2) >>= fun v => pure (some v))
        (fun o d => c.Precedes d ∧ if o.isSome then Part.expr.Derived c.rest d.rest else d.rest = [])
        fun e d => c.Stuck (Part.expr.Blocked c.rest) e d := by
      refine .bind (hexpr.mono (fun _ _ hd => hd) fun e d hd => ?_) fun v d hd => ?_
      · refine hd.mono hc ?_
        rintro o left ⟨n, hb⟩
        exact ⟨n, hb.congr (dropWhile_rest c)⟩
      · obtain ⟨hprec, e, he⟩ := hd
        exact .pure ⟨hc.trans hprec, e, he.congr (dropWhile_rest c)⟩
    exact fun m => hsome m

end ReadAction

end ArenaLisp
