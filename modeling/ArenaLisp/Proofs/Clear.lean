import ArenaLisp.Proofs.Lists

/-!
# What can be read

In a well-formed machine the slots of all that is held can be read (`Machine.WellFormed.clear`).  Readings
of such values give what the graph says, and their printing does not fail.
-/

namespace ArenaLisp

namespace Arena

/-- Whether the slots of all that a value reaches can be read. -/
def Clear (a : Arena) (v : Value) : Prop :=
  ∀ id, a.graph.Reaches [v] id → (a.graph id).1 ≠ .poison ∧ (a.graph id).2 ≠ .poison

variable {a a₂ : Arena} {v x y z : Value} {xs : List Value} {id : CellId}

namespace Clear

theorem fst (h : a.Clear (.pair id)) : a.Clear (a.graph id).1 := fun y hy => h y (hy.of_slot (.inl rfl))

theorem snd (h : a.Clear (.pair id)) : a.Clear (a.graph id).2 := fun y hy => h y (hy.of_slot (.inr rfl))

theorem atom (i : AtomId) : a.Clear (.atom i) := fun _ hid =>
  absurd (hid.through nofun) Graph.reaches_nil

/-- A pair can be read if its slots and all that they reach can. -/
theorem pair (hgraph : a.graph id = (x, y)) (hx : x ≠ .poison ∧ a.Clear x)
    (hy : y ≠ .poison ∧ a.Clear y) : a.Clear (.pair id) := by
  intro z hz
  have hcases := hz.of_pair
  rw [hgraph] at hcases
  rcases hcases with rfl | hz | hz
  · rw [hgraph]
    exact ⟨hx.1, hy.1⟩
  · exact hx.2 z hz
  · exact hy.2 z hz

/-- The items of a list can be read, and none of them is poison. -/
theorem item (h : a.Clear v) (hxs : a.Lists v xs) : ∀ x ∈ xs, x ≠ .poison ∧ a.Clear x := by
  induction xs generalizing v with
  | nil => exact nofun
  | cons y ys ih =>
    obtain ⟨id, rfl, rfl, hys⟩ := hxs
    exact List.forall_mem_cons.mpr ⟨⟨(h id (a.graph.reaches_self id)).1, h.fst⟩, ih h.snd hys⟩

theorem transfer (h : a.Clear v) (hagree : a.AgreeOn a₂ v) : a₂.Clear v := by
  intro y hy
  have hy := (Graph.reaches_congr hagree).mp hy
  rw [hagree y hy]
  exact h y hy

theorem car (h : a.Clear (.pair id)) : a.car id = .ok (a.graph id).1 := by
  rw [car_eq, if_neg (h id (a.graph.reaches_self id)).1]

theorem cdr (h : a.Clear (.pair id)) : a.cdr id = .ok (a.graph id).2 := by
  rw [cdr_eq, if_neg (h id (a.graph.reaches_self id)).2]

theorem exists_uncons? (h : a.Clear v) :
    ∃ o, a.uncons? v = .ok o ∧ ∀ p, o = some p → a.Clear p.2 := by
  cases v with
  | nil | atom _ | builtin _ => exact ⟨none, rfl, nofun⟩
  | pair id =>
    refine ⟨some (a.graph id), ?_, fun p hp => Option.some.inj hp ▸ h.snd⟩
    rw [uncons?, h.car, h.cdr]
    rfl

theorem exists_one? (h : a.Clear v) : ∃ o, a.one? v = .ok o := by
  obtain ⟨o, ho, -⟩ := h.exists_uncons?
  rw [one?, ho]
  cases o with
  | none => exact ⟨_, rfl⟩
  | some p => exact ⟨if p.2 = .nil then some p.1 else none, rfl⟩

theorem exists_two? (h : a.Clear v) : ∃ o, a.two? v = .ok o := by
  obtain ⟨o, ho, hrest⟩ := h.exists_uncons?
  rw [two?, ho]
  cases o with
  | none => exact ⟨_, rfl⟩
  | some p =>
    obtain ⟨q, hq⟩ := (hrest p rfl).exists_one?
    cases q with
    | none => exact ⟨none, by simp only [bind, Except.bind, hq]; rfl⟩
    | some y => exact ⟨some (p.1, y), by simp only [bind, Except.bind, hq]; rfl⟩

theorem one?_eq_none (h : a.Clear v) (hv : ¬ ∃ x, a.Lists v [x]) : a.one? v = .ok none := by
  obtain ⟨o, ho⟩ := h.exists_one?
  cases o with
  | none => exact ho
  | some x => exact absurd ⟨x, (one?_spec ho).mp rfl⟩ hv

theorem two?_eq_none (h : a.Clear v) (hv : ¬ ∃ x y, a.Lists v [x, y]) : a.two? v = .ok none := by
  obtain ⟨o, ho⟩ := h.exists_two?
  cases o with
  | none => exact ho
  | some p => exact absurd ⟨p.1, p.2, (two?_spec ho).mp rfl⟩ hv

theorem two?_eq_some (h : a.Clear v) (hv : a.Lists v [x, y]) : a.two? v = .ok (some (x, y)) := by
  obtain ⟨o, ho⟩ := h.exists_two?
  rw [ho, (two?_spec ho).mpr hv]

theorem three?_eq_some (h : a.Clear v) (hv : a.Lists v [x, y, z]) :
    a.three? v = .ok (some (x, y, z)) := by
  obtain ⟨id, rfl, rfl, hrest⟩ := hv
  have huncons : a.uncons? (.pair id) = .ok (some ((a.graph id).1, (a.graph id).2)) := by
    rw [uncons?, h.car, h.cdr]
    rfl
  rw [three?, huncons]
  simp only [ok_bind, h.snd.two?_eq_some hrest]
  rfl

/-! ### Printing -/

theorem exists_quoted? (hx : a.Clear y) :
    ∃ o, Render.quoted? a x y = .ok o ∧ ∀ z, o = some z → a.Clear z := by
  unfold Render.quoted?
  split
  · obtain ⟨o, ho⟩ := hx.exists_one?
    refine ⟨o, ho, ?_⟩
    rintro z rfl
    exact (hx.item ((one?_spec ho).mp rfl) z List.mem_cons_self).2
  · exact ⟨none, rfl, nofun⟩

theorem exists_tail {element : Value → List Char → Except Stop (List Char)}
    (helement : ∀ v after, a.Clear v → ∃ t, element v after = .ok t) (count : Nat) (h : a.Clear v)
    (after : List Char) : ∃ t, Render.tail a element count v after = .ok t := by
  have himproper : ∀ v, a.Clear v →
      ∃ t, (do return ' ' :: '.' :: ' ' :: (← element v (')' :: after))) = Except.ok (ε := Stop) t := by
    intro v hv
    obtain ⟨t, ht⟩ := helement v (')' :: after) hv
    exact ⟨_, by rw [ht]; rfl⟩
  induction count generalizing v with
  | zero =>
    cases v with
    | nil | pair _ => exact ⟨_, rfl⟩
    | atom _ | builtin _ => exact himproper _ h
  | succ count ih =>
    cases v with
    | nil => exact ⟨_, rfl⟩
    | atom _ | builtin _ => exact himproper _ h
    | pair id =>
      obtain ⟨t, ht⟩ := ih h.snd
      obtain ⟨u, hu⟩ := helement (a.graph id).1 t h.fst
      refine ⟨' ' :: u, ?_⟩
      rw [Render.tail, h.cdr, h.car]
      simp only [ok_bind, ht, hu]
      rfl

theorem exists_value (l : Lexicon) (depth : Nat) (h : a.Clear v) (after : List Char) :
    ∃ t, Render.value a l depth v after = .ok t := by
  induction depth generalizing v after with
  | zero => exact ⟨_, rfl⟩
  | succ depth ih =>
    cases v with
    | nil | atom _ | builtin _ => exact ⟨_, rfl⟩
    | pair id =>
      obtain ⟨o, ho, hquoted⟩ := h.snd.exists_quoted? (x := (a.graph id).1)
      rw [Render.value, h.car, h.cdr]
      simp only [ok_bind, ho]
      cases o with
      | some z =>
        obtain ⟨t, ht⟩ := ih (hquoted z rfl) after
        exact ⟨'\x27' :: t, by simp only [ht]; rfl⟩
      | none =>
        obtain ⟨t, ht⟩ := exists_tail (fun v after hv => ih hv after) Render.maxTail h.snd after
        obtain ⟨u, hu⟩ := ih h.fst t
        exact ⟨'(' :: u, by simp only [ht, hu, ok_bind]; rfl⟩

end Clear

end Arena

/-- The items of a list that is held are held. -/
theorem Machine.holds_item {m : Machine} {v : Value} {xs : List Value} (h : m.Holds v)
    (hxs : m.arena.Lists v xs) : ∀ x ∈ xs, m.Holds x := by
  induction xs generalizing v with
  | nil => exact nofun
  | cons y ys ih =>
    obtain ⟨id, rfl, rfl, hys⟩ := hxs
    exact List.forall_mem_cons.mpr ⟨holds_car h, ih (holds_cdr h) hys⟩

theorem Machine.WellFormed.clear_of_not_dangling {m : Machine} {v : Value} (hm : m.WellFormed)
    (hv : ¬ m.arena.Dangling v) : m.arena.Clear v := fun _ hid =>
  hm.no_poison _ (hm.arena.live_of_reaches (fun _ hw => List.mem_singleton.mp hw ▸ hv) hid)

theorem Machine.WellFormed.clear {m : Machine} {v : Value} (hm : m.WellFormed) (hv : m.Holds v) :
    m.arena.Clear v := hm.clear_of_not_dangling (hm.not_dangling hv)

/-- The printing of a value that can be read does not fail. -/
theorem Machine.exists_render {m : Machine} {v : Value} (h : m.arena.Clear v) :
    ∃ shown, m.render v = .ok shown := by
  obtain ⟨t, ht⟩ := h.exists_value m.lexicon (Render.maxDepth + 1) []
  exact ⟨String.ofList t, by rw [Machine.render, Render.render, ht]; rfl⟩

end ArenaLisp
