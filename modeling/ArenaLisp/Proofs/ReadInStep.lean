import ArenaLisp.Proofs.Names
import ArenaLisp.Proofs.Reader

/-!
# Reading in step

Two machines read the same text to expressions that correspond (`Pairing.read`), if their lexicons are
paired and go on being so.  How large the lexicons become is only known in the end, and so it is the
last lexicons that have to be small enough: reading only adds to a lexicon.
-/

namespace ArenaLisp

variable {M : Mode} {α β : Type} {w : World} {m m₂ : Machine}

/-- A lexicon to which interning has added. -/
def Machine.Reads (m m₂ : Machine) : Prop := m.lexicon.Grows m₂.lexicon

theorem Machine.reads_frame : Frame Machine.Reads where
  refl _ := .refl
  trans := Relation.ReflTransGen.trans
  allocated _ _ _ := .refl
  record _ _ := .refl
  unpin h := h

theorem Machine.reads_intern (m : Machine) (s : String) :
    m.Reads { m with lexicon := (m.lexicon.intern s).2 } := .single ⟨s, rfl⟩

/-- A world in which the atoms correspond as they are paired. -/
def World.Named (P : Pairing M) (w : World) : Prop :=
  P.Good w.left.lexicon w.right.lexicon ∧ w.ren.atom = P.rel w.left.lexicon w.right.lexicon

namespace Pairing

variable (P : Pairing M)

theorem small_of_grows {l l₂ : Lexicon} (h : l.Grows l₂) (hs : P.Small l₂) : P.Small l := by
  induction h with
  | refl => exact hs
  | tail _ hstep ih =>
    obtain ⟨s, rfl⟩ := hstep
    exact ih (P.small_of_intern hs)

/-- Whether the lexicon is small enough when an action ends. -/
def Ends (act : Action α) (m : Machine) : Prop := P.Small (ending (act.run m)).lexicon

variable {P} {act : Action α} {f : α → Action β} {x : α} {v : Value}

theorem Ends.first (h : P.Ends (act >>= f) m) (hf : ∀ x, Leaves Machine.Reads (f x)) :
    P.Ends act m := by
  unfold Ends at h ⊢
  rw [Action.run_bind] at h
  cases hrun : act.run m with
  | ok x m₂ =>
    rw [hrun] at h
    exact P.small_of_grows (hf x m₂) h
  | error e m₂ =>
    rw [hrun] at h
    exact h

theorem Ends.rest (h : P.Ends (act >>= f) m) (hrun : act.run m = .ok x m₂) : P.Ends (f x) m₂ := by
  unfold Ends at h ⊢
  rw [Action.run_bind, hrun] at h
  exact h

theorem Ends.pinned (h : P.Ends (Action.pinned v act) m) : P.Ends act (m.pin v) := by
  unfold Ends at h ⊢
  rw [Action.run_pinned] at h
  cases hrun : act.run (m.pin v) with
  | ok x m₂ =>
    rw [hrun] at h
    exact h
  | error e m₂ =>
    rw [hrun] at h
    exact h

variable (P) in
/-- Reading that gives expressions that correspond, and the same place. -/
def ReadsAlike (act : Action (Value × Cursor)) : Prop :=
  ∀ {w : World}, w.Ok M → w.Named P → P.Ends act w.left → P.Ends act w.right →
    InStep M w act act fun w₂ p p' => p.2 = p'.2 ∧ w₂.Named P ∧ w₂.Rel p.1 p'.1

/-- Interning on both sides. -/
theorem intern (hM : ¬ M.exact) (hw : w.Ok M) (hn : w.Named P) {s : String}
    (hs : P.Small (w.left.lexicon.intern s).2) (hs' : P.Small (w.right.lexicon.intern s).2) :
    InStep M w (Action.intern s) (Action.intern s) fun w₂ v v' => w₂.Named P ∧ w₂.Rel v v' := by
  have hgood := P.good_intern hn.1 hs hs'
  have hatom : ∀ i i', w.ren.atom i i' →
      P.rel (w.left.lexicon.intern s).2 (w.right.lexicon.intern s).2 i i' := fun i i' hi =>
    P.rel_intern s (by rwa [hn.2] at hi)
  have hleft : w.left.Keeps { w.left with lexicon := (w.left.lexicon.intern s).2 } :=
    ⟨⟨hw.left.arena, hw.left.roots⟩, rfl, rfl, rfl, fun _ _ => rfl⟩
  have hright : w.right.Keeps { w.right with lexicon := (w.right.lexicon.intern s).2 } :=
    ⟨⟨hw.right.arena, hw.right.roots⟩, rfl, rfl, rfl, fun _ _ => rfl⟩
  refine .inr ⟨_, _,
    ⟨w.ren.cell, P.rel (w.left.lexicon.intern s).2 (w.right.lexicon.intern s).2⟩, rfl,
    ⟨hleft, hright, fun _ _ _ _ hx => hx, hatom⟩, ?_, ⟨hgood, rfl⟩, P.value s w.ren.cell hn.1⟩
  exact
    { left := hleft.coherent
      right := hright.coherent
      lawful := P.lawful hgood _
      cells := hw.cells.mono rfl hatom
      roots := fun hM => (hw.roots hM).imp fun v v' hv => hv.imp_left fun hv =>
        hv.mono (fun _ _ _ _ hx => hx) hatom
      names := P.names hgood
      threshold := hw.threshold
      capacity := hw.capacity
      agrees := fun he => absurd he hM
      eq_of_rel := fun he => absurd he hM
      clean := fun hc => P.clean hc hgood }

/-- An allocation on both sides changes nothing in the pairing of the atoms. -/
theorem cons {x x' y y' : Value} (hw : w.Ok M) (hn : w.Named P) (hx : w.Rel x x')
    (hy : w.Rel y y') : InStep M w (Action.cons x y) (Action.cons x' y')
      fun w₂ v v' => w₂.Named P ∧ w₂.Rel v v' := by
  refine (InStep.cons_allocated hw hx hy).mono ?_
  rintro _ _ _ - - ⟨id, id', rfl, rfl, rfl⟩
  exact ⟨hn, .pair (.inr ⟨rfl, rfl⟩)⟩

theorem quote {x x' : Value} (hw : w.Ok M) (hn : w.Named P) (hx : w.Rel x x') :
    InStep M w (ReadAction.quote x) (ReadAction.quote x')
      fun w₂ v v' => w₂.Named P ∧ w₂.Rel v v' := by
  refine (cons hw hn hx .nil).bind fun w₂ y y' _ hw₂ hy => ?_
  exact cons hw₂ hy.1 (.atom (hw₂.lawful.fixed (by decide))) hy.2

theorem ReadsAlike.obstructed (o : Obstacle) (c : Cursor) :
    P.ReadsAlike (ReadAction.obstructed o c) := fun hw _ _ _ => .throw hw nofun

theorem ReadsAlike.atom (hM : ¬ M.exact) (c : Cursor) :
    P.ReadsAlike (ReadAction.atom.fromPlace c) := by
  intro w hw hn hs hs'
  rw [ReadAction.fromPlace_atom]
  refine (intern hM hw hn hs hs').bind fun w₂ v v' _ hw₂ hv => ?_
  exact .pure hw₂ ⟨rfl, hv⟩

/-- What stands behind an element, given how what is inside it is read. -/
theorem ReadsAlike.listTail {fuel : Nat}
    (hexpr : ∀ c, P.ReadsAlike ((ReadAction.expr fuel).fromPlace c))
    (hitems : ∀ c, P.ReadsAlike ((ReadAction.items fuel).fromPlace c)) (c : Cursor) :
    P.ReadsAlike ((ReadAction.listTail fuel).fromPlace c) := by
  rw [ReadAction.fromPlace_listTail]
  split
  · intro w hw hn hs hs'
    have hclose : ∀ p : Value × Cursor, Leaves Machine.Reads (do
        let e := p.2.dropWhile isBlank
        if e.peek? = some ')' then return (p.1, e.next) else ReadAction.obstructed .openTail e) := by
      intro p
      dsimp only
      split
      · exact .pure Machine.reads_frame _
      · exact .throw Machine.reads_frame _
    refine (hexpr _ hw hn (hs.first hclose) (hs'.first hclose)).bind ?_
    rintro w₂ ⟨v, c⟩ ⟨v', _⟩ - hw₂ ⟨rfl, hv⟩
    dsimp only
    split
    · exact .pure hw₂ ⟨rfl, hv⟩
    · exact .throw hw₂ nofun
  · exact hitems _

/-- The reader keeps step, at every depth. -/
theorem ReadsAlike.expr_items (hM : ¬ M.exact) (fuel : Nat) :
    (∀ c, P.ReadsAlike ((ReadAction.expr fuel).fromPlace c)) ∧
      ∀ c, P.ReadsAlike ((ReadAction.items fuel).fromPlace c) := by
  induction fuel with
  | zero => exact ⟨fun _ _ hw _ _ _ => .throw hw nofun, fun _ _ hw _ _ _ => .throw hw nofun⟩
  | succ fuel ih =>
    obtain ⟨hexpr, hitems⟩ := ih
    have hT := Machine.reads_frame
    refine ⟨fun c => ?_, fun c => ?_⟩
    · rcases ReadAction.fromPlace_expr_cases c fuel with ⟨o, h⟩ | h | h | h
      · exact h ▸ obstructed o _
      · exact h ▸ hitems _
      · rw [h]
        intro w hw hn hs hs'
        have hquote : ∀ p : Value × Cursor, Leaves Machine.Reads
            (do let v ← ReadAction.quote p.1; return (v, p.2)) := fun p =>
          .bind hT (.bind hT (.cons hT _ _) fun _ => .cons hT _ _) fun _ => .pure hT _
        refine (hexpr _ hw hn (hs.first hquote) (hs'.first hquote)).bind ?_
        rintro w₂ ⟨v, c⟩ ⟨v', _⟩ - hw₂ ⟨rfl, hn₂, hv⟩
        refine (quote hw₂ hn₂ hv).bind fun w₃ e e' _ hw₃ he => ?_
        exact .pure hw₃ ⟨rfl, he⟩
      · exact h ▸ atom hM _
    · rcases ReadAction.fromPlace_items_cases c fuel with ⟨o, h⟩ | h | h
      · exact h ▸ obstructed o _
      · rw [h]
        exact fun hw hn _ _ => .pure hw ⟨rfl, hn, .nil⟩
      · rw [h]
        intro w hw hn hs hs'
        have hcons : ∀ (p q : Value × Cursor), Leaves Machine.Reads
            (do let v ← Action.cons p.1 q.1; return (v, q.2)) := fun p q =>
          .bind hT (.cons hT _ _) fun _ => .pure hT _
        have hrest : ∀ p : Value × Cursor, Leaves Machine.Reads (do
            let q ← Action.pinned p.1 ((ReadAction.listTail fuel).fromPlace p.2)
            let v ← Action.cons p.1 q.1
            return (v, q.2)) := fun p =>
          .bind hT (.pinned hT _ (.listTail hT Machine.reads_intern fuel p.2)) (hcons p)
        refine (hexpr _ hw hn (hs.first hrest) (hs'.first hrest)).bind_run ?_
        rintro w₂ ⟨v, c⟩ ⟨v', _⟩ hrun hrun' - hw₂ ⟨rfl, hn₂, hv⟩
        -- the element is pinned while what stands behind it is read
        have hs := ((hs.rest hrun).first (hcons _)).pinned
        have hs' := ((hs'.rest hrun').first (hcons _)).pinned
        have htail : InStep M w₂ (Action.pinned v ((ReadAction.listTail fuel).fromPlace c))
            (Action.pinned v' ((ReadAction.listTail fuel).fromPlace c)) fun w₃ p p' =>
              w₃.Rel v v' ∧ p.2 = p'.2 ∧ w₃.Named P ∧ w₃.Rel p.1 p'.1 := by
          refine .pinned ((listTail hexpr hitems c (hw₂.pin hv) hn₂ hs hs').mono ?_) fun _ _ _ h => h
          exact fun w₃ p p' hnext _ hp => ⟨((World.held_pin hv).next hnext).1, hp⟩
        refine htail.bind ?_
        rintro w₃ ⟨t, c⟩ ⟨t', _⟩ - hw₃ ⟨hv, rfl, hn₃, ht⟩
        refine (cons hw₃ hn₃ hv ht).bind fun w₄ u u' _ hw₄ hu => ?_
        exact .pure hw₄ ⟨rfl, hu⟩

/-- The next expressions of a text correspond, if there are any. -/
theorem read (hM : ¬ M.exact) (c : Cursor) (hw : w.Ok M) (hn : w.Named P)
    (hs : P.Ends (ReadAction.read.fromPlace c) w.left)
    (hs' : P.Ends (ReadAction.read.fromPlace c) w.right) :
    InStep M w (ReadAction.read.fromPlace c) (ReadAction.read.fromPlace c)
      fun w₂ p p' => p.2 = p'.2 ∧ w₂.Named P ∧ Option.Rel w₂.Rel p.1 p'.1 := by
  rw [ReadAction.fromPlace_read] at hs hs' ⊢
  split
  · exact .pure hw ⟨rfl, hn, .none⟩
  · rename_i hblank
    rw [if_neg hblank] at hs hs'
    have hsome : ∀ p : Value × Cursor, Leaves Machine.Reads
        (pure (some p.1, p.2) : Action (Option Value × Cursor)) :=
      fun _ => .pure Machine.reads_frame _
    refine ((ReadsAlike.expr_items hM _).1 _ hw hn (hs.first hsome) (hs'.first hsome)).bind ?_
    rintro w₂ ⟨v, c⟩ ⟨v', _⟩ - hw₂ ⟨rfl, hn₂, hv⟩
    exact .pure hw₂ ⟨rfl, hn₂, .some hv⟩

/-- The only expressions of a text correspond. -/
theorem parse (hM : ¬ M.exact) (text : String) (hw : w.Ok M) (hn : w.Named P)
    (hs : P.Ends (Action.parse text) w.left) (hs' : P.Ends (Action.parse text) w.right) :
    InStep M w (Action.parse text) (Action.parse text)
      fun w₂ v v' => w₂.Named P ∧ w₂.Rel v v' := by
  have hT := Machine.reads_frame
  rw [ReadAction.parse_eq, ReadAction.fromPlace_readOnly] at hs hs' ⊢
  have hvalue : ∀ p : Value × Cursor, Leaves Machine.Reads (pure p.1 : Action Value) :=
    fun _ => .pure hT _
  have hs := hs.first hvalue
  have hs' := hs'.first hvalue
  refine .bind (Q := fun w₂ p p' => w₂.Named P ∧ w₂.Rel p.1 p'.1) ?_
    fun w₂ p p' _ hw₂ hp => .pure hw₂ hp
  refine (read hM _ hw hn (hs.first (Leaves.only hT)) (hs'.first (Leaves.only hT))).bind ?_
  rintro w₂ ⟨o, c⟩ ⟨o', _⟩ - hw₂ ⟨rfl, hn₂, ho⟩
  cases ho with
  | none => exact .throw hw₂ nofun
  | some hv =>
    unfold ReadAction.only
    dsimp only
    split
    · exact .pure hw₂ ⟨hn₂, hv⟩
    · exact .throw hw₂ nofun

end Pairing

/-! ### Between expressions -/

namespace World

/-- Two machines of which nothing but the atoms corresponds. -/
def bare (P : Pairing M) (m m' : Machine) : World :=
  ⟨⟨fun _ _ => False, P.rel m.lexicon m'.lexicon⟩, m, m'⟩

variable {P : Pairing M} {m m' : Machine}

@[simp] theorem bare_left : (bare P m m').left = m := rfl

@[simp] theorem bare_right : (bare P m m').right = m' := rfl

theorem named_bare (h : P.Good m.lexicon m'.lexicon) : (bare P m m').Named P := ⟨h, rfl⟩

/-- Nothing else has to correspond between expressions, when nothing is pinned. -/
theorem ok_bare (hM : ¬ M.exact) (hm : m.Coherent) (hm' : m'.Coherent) (hroots : m.roots = [])
    (hroots' : m'.roots = []) (hgood : P.Good m.lexicon m'.lexicon)
    (hthreshold : m'.log.threshold = m.log.threshold)
    (hcapacity : m.arena.capacity ≤ m'.arena.capacity) : (bare P m m').Ok M where
  left := hm
  right := hm'
  lawful := P.lawful hgood _
  cells := ⟨False.elim, False.elim, False.elim, False.elim, False.elim⟩
  roots _ := by
    show List.Forall₂ _ m.roots m'.roots
    rw [hroots, hroots']
    exact .nil
  names := P.names hgood
  threshold := hthreshold
  capacity _ := hcapacity
  agrees he := absurd he hM
  eq_of_rel he := absurd he hM
  clean hc := P.clean hc hgood

end World

end ArenaLisp
