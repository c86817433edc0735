import ArenaLisp.Proofs.Lookup

/-!
# What is never cut off

Reading a slot or a short list, and printing a value, come to an end in every arena, with a value or at
a free cell (`Arena.three?_errsOnly`, `Machine.render_errsOnly`).  In particular they are never cut off
(`Arena.three?_completes`, `Machine.render_completes`).
-/

namespace ArenaLisp

/-- Whether what is read is not cut off. -/
def Completes {α : Type} (r : Except Stop α) : Prop := r ≠ .error .unfinished

/-- Whether a reading only goes wrong in ways of which `P` holds. -/
def ErrsOnly {α : Type} (P : Stop → Prop) (r : Except Stop α) : Prop := ∀ e, r = .error e → P e

variable {P : Stop → Prop} {α β : Type} {r : Except Stop α} {f : α → Except Stop β}

namespace Completes

protected theorem pure (x : α) : Completes (pure x) := nofun

/-- Readings in a row are not cut off if none of them is. -/
theorem bind (hr : Completes r) (hf : ∀ x, r = .ok x → Completes (f x)) : Completes (r >>= f) := by
  cases r with
  | error e => exact fun h => hr (congrArg Except.error (Except.error.inj h))
  | ok x => exact hf x rfl

end Completes

namespace ErrsOnly

protected theorem pure (x : α) : ErrsOnly P (pure x) := nofun

protected theorem error {e : Stop} (h : P e) : ErrsOnly P (.error e : Except Stop α) := by
  intro e' heq
  cases heq
  exact h

theorem bind (hr : ErrsOnly P r) (hf : ∀ x, ErrsOnly P (f x)) : ErrsOnly P (r >>= f) := by
  cases r with
  | error e => exact fun e' h => hr e' (congrArg Except.error (Except.error.inj h))
  | ok x => exact hf x

end ErrsOnly

theorem Stop.freeCell_ne_unfinished (id : CellId) : fault (.freeCell id) ≠ unfinished := nofun

theorem Completes.of_errsOnly (h : ErrsOnly (· ≠ .unfinished) r) : Completes r := fun hr => h _ hr rfl

namespace Arena

variable (hP : ∀ id, P (.fault (.freeCell id))) (a : Arena)

section ErrsOnly

include hP

theorem slot_errsOnly (side : Cell → Value) (id : CellId) : ErrsOnly P (slot side a id) := by
  unfold slot
  split
  · split
    · exact .error (hP id)
    · exact .pure _
  · exact .error (hP id)

theorem uncons?_errsOnly (v : Value) : ErrsOnly P (a.uncons? v) := by
  cases v with
  | nil | atom _ | builtin _ => exact .pure _
  | pair id =>
    exact (a.slot_errsOnly hP _ id).bind fun _ => (a.slot_errsOnly hP _ id).bind fun _ => .pure _

theorem one?_errsOnly (v : Value) : ErrsOnly P (a.one? v) := by
  refine (a.uncons?_errsOnly hP v).bind fun o => ?_
  cases o with
  | none => exact .pure _
  | some p => exact .pure _

theorem two?_errsOnly (v : Value) : ErrsOnly P (a.two? v) := by
  refine (a.uncons?_errsOnly hP v).bind fun o => ?_
  cases o with
  | none => exact .pure _
  | some p =>
    refine (a.one?_errsOnly hP p.2).bind fun o => ?_
    cases o with
    | none => exact .pure _
    | some y => exact .pure _

theorem three?_errsOnly (v : Value) : ErrsOnly P (a.three? v) := by
  refine (a.uncons?_errsOnly hP v).bind fun o => ?_
  cases o with
  | none => exact .pure _
  | some p =>
    refine (a.two?_errsOnly hP p.2).bind fun o => ?_
    cases o with
    | none => exact .pure _
    | some q => exact .pure _

end ErrsOnly

theorem car_completes (id : CellId) : Completes (a.car id) :=
  .of_errsOnly (a.slot_errsOnly Stop.freeCell_ne_unfinished _ id)

theorem cdr_completes (id : CellId) : Completes (a.cdr id) :=
  .of_errsOnly (a.slot_errsOnly Stop.freeCell_ne_unfinished _ id)

theorem one?_completes (v : Value) : Completes (a.one? v) :=
  .of_errsOnly (a.one?_errsOnly Stop.freeCell_ne_unfinished v)

theorem two?_completes (v : Value) : Completes (a.two? v) :=
  .of_errsOnly (a.two?_errsOnly Stop.freeCell_ne_unfinished v)

theorem three?_completes (v : Value) : Completes (a.three? v) :=
  .of_errsOnly (a.three?_errsOnly Stop.freeCell_ne_unfinished v)

end Arena

/-! ### Printing -/

namespace Render

variable (hP : ∀ id, P (.fault (.freeCell id))) (a : Arena) (l : Lexicon)
include hP

theorem quoted?_errsOnly (x y : Value) : ErrsOnly P (quoted? a x y) := by
  unfold quoted?
  split
  · exact a.one?_errsOnly hP y
  · exact .pure _

theorem tail_errsOnly {element : Value → List Char → Except Stop (List Char)}
    (helement : ∀ v after, ErrsOnly P (element v after)) (count : Nat) (v : Value)
    (after : List Char) : ErrsOnly P (tail a element count v after) := by
  induction count generalizing v with
  | zero =>
    cases v with
    | nil | pair _ => exact .pure _
    | atom _ | builtin _ => exact (helement _ _).bind fun _ => .pure _
  | succ count ih =>
    cases v with
    | nil => exact .pure _
    | atom _ | builtin _ => exact (helement _ _).bind fun _ => .pure _
    | pair id =>
      refine (a.slot_errsOnly hP _ id).bind fun y => (ih y).bind fun _ => ?_
      exact (a.slot_errsOnly hP _ id).bind fun x => (helement x _).bind fun _ => .pure _

theorem value_errsOnly (depth : Nat) (v : Value) (after : List Char) :
    ErrsOnly P (value a l depth v after) := by
  induction depth generalizing v after with
  | zero => exact .pure _
  | succ depth ih =>
    cases v with
    | nil | atom _ | builtin _ => exact .pure _
    | pair id =>
      refine (a.slot_errsOnly hP _ id).bind fun x => (a.slot_errsOnly hP _ id).bind fun y => ?_
      refine (quoted?_errsOnly hP a x y).bind fun o => ?_
      cases o with
      | some z => exact (ih z after).bind fun _ => .pure _
      | none =>
        refine (tail_errsOnly hP a (fun v after => ih v after) _ y after).bind fun _ => ?_
        exact (ih x _).bind fun _ => .pure _

end Render

namespace Machine

theorem render_errsOnly (hP : ∀ id, P (.fault (.freeCell id))) (m : Machine) (v : Value) :
    ErrsOnly P (m.render v) :=
  (Render.value_errsOnly hP m.arena m.lexicon _ v []).bind fun _ => .pure _

theorem render_completes (m : Machine) (v : Value) : Completes (m.render v) :=
  .of_errsOnly (m.render_errsOnly Stop.freeCell_ne_unfinished v)

end Machine

end ArenaLisp
