import ArenaLisp.Proofs.Clean

/-!
# Lists in the arena

`Lists` and `ListOf` say what a list looks like, cell by cell: the one gives its items, the other what
all of them have in common.  A list keeps its look while the cells that it reaches are kept
(`Lists.transfer`, `ListOf.transfer`).  What `one?` and `two?` read, if they can read it, is the lists of
one item and of two (`one?_spec`, `two?_spec`).
-/

namespace ArenaLisp

namespace Arena

/-- Whether a value is the proper list of the items. -/
def Lists (a : Arena) : Value → List Value → Prop
  | v, [] => v = .nil
  | v, x :: xs => ∃ id, v = .pair id ∧ (a.graph id).1 = x ∧ a.Lists (a.graph id).2 xs

/-- Whether a value is a proper list of items with a property. -/
inductive ListOf (a : Arena) (P : Value → Prop) : Value → Prop
  | nil : ListOf a P .nil
  | cons {id : CellId} (h : P (a.graph id).1) (hrest : ListOf a P (a.graph id).2) :
    ListOf a P (.pair id)

variable {a a₂ : Arena} {P P₂ : Value → Prop} {v x y : Value} {xs : List Value} {id : CellId}

theorem Lists.transfer (h : a.Lists v xs) (hagree : a.AgreeOn a₂ v) : a₂.Lists v xs := by
  induction xs generalizing v with
  | nil => exact h
  | cons x xs ih =>
    obtain ⟨id, rfl, hx, hxs⟩ := h
    refine ⟨id, rfl, by rw [hagree.graph, hx], ?_⟩
    rw [hagree.graph]
    exact ih hxs hagree.cdr

theorem ListOf.transfer (h : a.ListOf P v) (hagree : a.AgreeOn a₂ v)
    (hP : ∀ x, a.AgreeOn a₂ x → P x → P₂ x) : a₂.ListOf P₂ v := by
  induction h with
  | nil => exact .nil
  | cons hx _ ih =>
    refine .cons ?_ ?_
    · rw [hagree.graph]
      exact hP _ hagree.car hx
    · rw [hagree.graph]
      exact ih hagree.cdr

/-! ### What is read -/

theorem uncons?_spec {o : Option (Value × Value)} (h : a.uncons? v = .ok o) :
    o = none ∧ v.isPair = false ∨ ∃ id, v = .pair id ∧ o = some (a.graph id) := by
  cases v with
  | nil | atom _ | builtin _ =>
    cases h
    exact .inl ⟨rfl, rfl⟩
  | pair id =>
    obtain ⟨c, hcar, h⟩ := exists_of_bind_eq_ok h
    obtain ⟨d, hcdr, h⟩ := exists_of_bind_eq_ok h
    cases h
    rw [← graph_fst_of_car hcar, ← graph_snd_of_cdr hcdr]
    exact .inr ⟨id, rfl, rfl⟩

theorem one?_spec {o : Option Value} (h : a.one? v = .ok o) : o = some x ↔ a.Lists v [x] := by
  obtain ⟨p, hp, h⟩ := exists_of_bind_eq_ok h
  rcases uncons?_spec hp with ⟨rfl, hv⟩ | ⟨id, rfl, rfl⟩
  · cases h
    refine ⟨nofun, ?_⟩
    rintro ⟨id, rfl, -⟩
    cases hv
  · dsimp only at h
    split at h
    · rename_i hnil
      cases h
      refine ⟨fun hx => ⟨id, rfl, Option.some.inj hx, hnil⟩, ?_⟩
      rintro ⟨id', hid, rfl, -⟩
      rw [Value.pair.inj hid]
    · rename_i hnil
      cases h
      refine ⟨nofun, ?_⟩
      rintro ⟨id', hid, -, hrest⟩
      exact absurd (Value.pair.inj hid ▸ hrest) hnil

theorem two?_spec {o : Option (Value × Value)} (h : a.two? v = .ok o) :
    o = some (x, y) ↔ a.Lists v [x, y] := by
  obtain ⟨p, hp, h⟩ := exists_of_bind_eq_ok h
  rcases uncons?_spec hp with ⟨rfl, hv⟩ | ⟨id, rfl, rfl⟩
  · cases h
    refine ⟨nofun, ?_⟩
    rintro ⟨id, rfl, -⟩
    cases hv
  · rcases hgraph : a.graph id with ⟨c, rest⟩
    rw [hgraph] at h
    obtain ⟨q, hq, h⟩ := exists_of_bind_eq_ok h
    have hlists : a.Lists (.pair id) [x, y] ↔ c = x ∧ q = some y := by
      rw [one?_spec hq]
      constructor
      · rintro ⟨id', hid, hxy⟩
        rwa [← Value.pair.inj hid, hgraph] at hxy
      · exact fun hxy => ⟨id, rfl, by rwa [hgraph]⟩
    rw [hlists]
    cases q with
    | none =>
      cases h
      simp
    | some z =>
      cases h
      simp

/-- What `three?` reads is a list of three items. -/
theorem lists_of_three? {z : Value} (h : a.three? v = .ok (some (x, y, z))) : a.Lists v [x, y, z] := by
  obtain ⟨p, hp, h⟩ := exists_of_bind_eq_ok h
  rcases uncons?_spec hp with ⟨rfl, -⟩ | ⟨id, rfl, rfl⟩
  · cases h
  · obtain ⟨q, hq, h⟩ := exists_of_bind_eq_ok h
    cases q with
    | none => cases h
    | some q =>
      cases h
      exact ⟨id, rfl, rfl, (two?_spec hq).mp rfl⟩

/-! ### Bindings and clauses -/

/-- Whether a value is a clause of a `cond`: a proper list of a test and a result. -/
def IsClause (a : Arena) (v : Value) : Prop := ∃ test result, a.Lists v [test, result]

/-- Whether a value is a binding of a `let`: a proper list of an identifier and an expression. -/
def IsBinding (a : Arena) (v : Value) : Prop := ∃ ident expr, a.Lists v [ident, expr] ∧ ident.isAtom

theorem IsBinding.transfer (h : a.IsBinding v) (hagree : a.AgreeOn a₂ v) : a₂.IsBinding v := by
  obtain ⟨ident, expr, hlists, hatom⟩ := h
  exact ⟨ident, expr, hlists.transfer hagree, hatom⟩

end Arena

end ArenaLisp
