import ArenaLisp.Eval.Basic
import ArenaLisp.Proofs.InStep

/-!
# What is read from two machines in step

Slots, short lists, bindings and printed forms of values that correspond are values that correspond
and texts that are the same.  What is read is reachable from what it is read from, so that it is held
where the latter is.
-/

namespace ArenaLisp

namespace Machine

/-- Whether a value is an immediate or reachable from `v`. -/
def Leads (m : Machine) (v c : Value) : Prop := ∀ z, c = .pair z → m.arena.graph.Reaches [v] z

variable {m : Machine} {v c d : Value}

theorem Leads.trans (h : m.Leads v c) (h' : m.Leads c d) : m.Leads v d := fun z hz => (h' z hz).through h

theorem Holds.leads (hv : m.Holds v) (h : m.Leads v c) : m.Holds c := fun z hz => (h z hz).through hv

end Machine

namespace World

/-- Values that correspond, the left of which is reachable from `v`. -/
def Part (w : World) (v c c' : Value) : Prop := w.Rel c c' ∧ w.left.Leads v c

variable {M : Mode} {w : World} {v v' c c' d d' : Value} {x x' : CellId}

/-- What corresponds to a part of a value is a part of what corresponds to the value. -/
theorem Part.leads_right (hc : w.Part v c c') (hw : w.Ok M) (hv : w.Rel v v') :
    w.right.Leads v' c' := by
  rintro z' rfl
  obtain ⟨z, rfl, hz⟩ := hc.1.flip.pair_left
  exact hw.cells.reaches_right (.cons (.inl hv) .nil) hz (hc.2 z rfl)

theorem Held.part (hv : w.Held v v') (hw : w.Ok M) (hc : w.Part v c c') : w.Held c c' :=
  ⟨hc.1, hv.2.1.leads hc.2, hv.2.2.leads (hc.leads_right hw hv.1)⟩

theorem Part.trans (hc : w.Part v c c') (hd : w.Part c d d') : w.Part v d d' :=
  ⟨hd.1, hc.2.trans hd.2⟩

/-- Parts stay parts where the arena and the names stay the same. -/
theorem Part.of_same {w₂ : World} (hc : w.Part v c c') (hren : w₂.ren = w.ren)
    (harena : w₂.left.arena = w.left.arena) : w₂.Part v c c' :=
  ⟨by rw [Rel, hren]; exact hc.1, fun z hz => by rw [harena]; exact hc.2 z hz⟩

/-- A part of a value that has been pinned is held. -/
theorem Part.held_pin (hc : w.Part v c c') (hw : w.Ok M) (hv : w.Rel v v') :
    (w.pin v v').Held c c' := by
  refine ⟨hc.1, Machine.holds_pin_self.leads hc.2, Machine.holds_pin_self.leads ?_⟩
  exact hc.leads_right hw hv

namespace Ok

variable (hw : w.Ok M)
include hw

/-- Where the left reads poison, it has an excuse. -/
theorem excuses_poison (hv : w.Rel .poison v') (id : CellId) :
    M.Excuses (.fault (.freeCell id)) := by
  refine .inr ⟨fun hclean => ?_, id, rfl⟩
  cases hv with
  | atom hi => exact hw.clean hclean _ _ hi rfl

theorem car (hx : w.ren.cell x x') :
    M.Answers (w.Part (.pair x)) (w.left.arena.car x) (w.right.arena.car x') := by
  rw [Arena.car_eq, Arena.car_eq]
  have hslot := hw.cells.car hx
  by_cases hp : (w.left.arena.graph x).1 = .poison
  · rw [if_pos hp]
    exact .inl (hw.excuses_poison (hp ▸ hslot) x)
  · rw [if_neg hp, if_neg (fun h => hp ((hw.lawful.eq_poison_iff hslot).mpr h))]
    exact .pure ⟨hslot, fun z hz => .child (.root (by simp)) (.inl hz)⟩

theorem cdr (hx : w.ren.cell x x') :
    M.Answers (w.Part (.pair x)) (w.left.arena.cdr x) (w.right.arena.cdr x') := by
  rw [Arena.cdr_eq, Arena.cdr_eq]
  have hslot := hw.cells.cdr hx
  by_cases hp : (w.left.arena.graph x).2 = .poison
  · rw [if_pos hp]
    exact .inl (hw.excuses_poison (hp ▸ hslot) x)
  · rw [if_neg hp, if_neg (fun h => hp ((hw.lawful.eq_poison_iff hslot).mpr h))]
    exact .pure ⟨hslot, fun z hz => .child (.root (by simp)) (.inr hz)⟩

theorem uncons? (hv : w.Rel v v') :
    M.Answers (Option.Rel fun p p' => w.Part v p.1 p'.1 ∧ w.Part v p.2 p'.2)
      (w.left.arena.uncons? v) (w.right.arena.uncons? v') := by
  cases hv with
  | nil | atom _ | builtin _ => exact .pure .none
  | pair hx =>
    refine (hw.car hx).bind fun c c' hc => (hw.cdr hx).bind fun d d' hd => ?_
    exact .pure (.some ⟨hc, hd⟩)

theorem one? (hv : w.Rel v v') :
    M.Answers (Option.Rel (w.Part v)) (w.left.arena.one? v) (w.right.arena.one? v') := by
  refine (hw.uncons? hv).bind fun o o' ho => ?_
  cases ho with
  | none => exact .pure .none
  | some h =>
    refine .pure ?_
    rw [if_congr (hw.lawful.eq_iff hw.cells h.2.1 .nil) rfl rfl]
    split
    · exact .some h.1
    · exact .none

theorem two? (hv : w.Rel v v') :
    M.Answers (Option.Rel fun p p' => w.Part v p.1 p'.1 ∧ w.Part v p.2 p'.2)
      (w.left.arena.two? v) (w.right.arena.two? v') := by
  refine (hw.uncons? hv).bind fun o o' ho => ?_
  cases ho with
  | none => exact .pure .none
  | some h =>
    refine (hw.one? h.2.1).bind fun o o' ho => ?_
    cases ho with
    | none => exact .pure .none
    | some hy => exact .pure (.some ⟨h.1, h.2.trans hy⟩)

theorem three? (hv : w.Rel v v') :
    M.Answers (Option.Rel fun p p' =>
        w.Part v p.1 p'.1 ∧ w.Part v p.2.1 p'.2.1 ∧ w.Part v p.2.2 p'.2.2)
      (w.left.arena.three? v) (w.right.arena.three? v') := by
  refine (hw.uncons? hv).bind fun o o' ho => ?_
  cases ho with
  | none => exact .pure .none
  | some h =>
    refine (hw.two? h.2.1).bind fun o o' ho => ?_
    cases ho with
    | none => exact .pure .none
    | some hy => exact .pure (.some ⟨h.1, h.2.trans hy.1, h.2.trans hy.2⟩)

/-! ### Printed forms -/

theorem quoted? (hv : w.Rel v v') (hd : w.Rel d d') :
    M.Answers (Option.Rel w.Rel) (Render.quoted? w.left.arena v d)
      (Render.quoted? w.right.arena v' d') := by
  unfold Render.quoted?
  rw [if_congr (hw.lawful.eq_fixed_iff hv (i := .quote) (by decide)) rfl rfl]
  split
  · exact (hw.one? hd).mono fun o o' ho => by
      cases ho with
      | none => exact .none
      | some h => exact .some h.1
  · exact .pure .none

theorem renderTail {element element' : Value → List Char → Except Stop (List Char)}
    (helement : ∀ v v' after, w.Rel v v' → M.Answers (· = ·) (element v after) (element' v' after))
    (count : Nat) (hv : w.Rel v v') (after : List Char) :
    M.Answers (· = ·) (Render.tail w.left.arena element count v after)
      (Render.tail w.right.arena element' count v' after) := by
  induction count generalizing v v' with
  | zero =>
    cases hv with
    | nil | pair _ => exact .pure rfl
    | atom h => exact (helement _ _ _ (.atom h)).bind fun _ _ heq => .pure (by rw [heq])
    | builtin b => exact (helement _ _ _ (.builtin b)).bind fun _ _ heq => .pure (by rw [heq])
  | succ count ih =>
    cases hv with
    | nil => exact .pure rfl
    | atom h => exact (helement _ _ _ (.atom h)).bind fun _ _ heq => .pure (by rw [heq])
    | builtin b => exact (helement _ _ _ (.builtin b)).bind fun _ _ heq => .pure (by rw [heq])
    | pair hx =>
      refine (hw.cdr hx).bind fun d d' hd => (ih hd.1).bind ?_
      rintro after _ rfl
      refine (hw.car hx).bind fun c c' hc => (helement c c' after hc.1).bind ?_
      rintro text _ rfl
      exact .pure rfl

theorem renderValue (depth : Nat) (hv : w.Rel v v') (after : List Char) :
    M.Answers (· = ·) (Render.value w.left.arena w.left.lexicon depth v after)
      (Render.value w.right.arena w.right.lexicon depth v' after) := by
  induction depth generalizing v v' after with
  | zero => exact .pure rfl
  | succ depth ih =>
    cases hv with
    | nil | builtin _ => exact .pure rfl
    | atom hi => exact .pure (by rw [hw.names _ _ hi])
    | pair hx =>
      refine (hw.car hx).bind fun c c' hc => (hw.cdr hx).bind fun d d' hd => ?_
      refine (hw.quoted? hc.1 hd.1).bind fun o o' ho => ?_
      cases ho with
      | some h =>
        refine (ih h after).bind ?_
        rintro text _ rfl
        exact .pure rfl
      | none =>
        refine (hw.renderTail (fun v v' after h => ih h after) Render.maxTail hd.1 after).bind ?_
        rintro tail _ rfl
        refine (ih hc.1 tail).bind ?_
        rintro text _ rfl
        exact .pure rfl

/-- Values that correspond print the same. -/
theorem render (hv : w.Rel v v') :
    M.Answers (· = ·) (w.left.render v) (w.right.render v') := by
  refine (hw.renderValue (Render.maxDepth + 1) hv []).bind ?_
  rintro text _ rfl
  exact .pure rfl

end Ok

end World

end ArenaLisp
