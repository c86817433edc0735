import ArenaLisp.Proofs.Lookup
import ArenaLisp.Proofs.Meets
import ArenaLisp.Proofs.Tree

/-!
# Scopes as lists of bindings

A scope that begins with some bindings looks a name up among these first, innermost binding first, and
then in the scope behind them (`Binds.lookup`).  A new binding in front of a scope that is pinned keeps
what is pinned and is the first of the scope that comes of it; it fails only for lack of room
(`meets_extend`).
-/

namespace ArenaLisp

namespace Arena

/-- The bindings with which a scope begins, innermost first, and the scope behind them. -/
inductive Binds (a : Arena) : Value → List (Value × Value) → Value → Prop
  | bare (s : Value) : Binds a s [] s
  | link {link entry : CellId} {ident v next s : Value} {bindings : List (Value × Value)}
    (hlink : a.pair? link = some (.pair entry, next)) (hentry : a.pair? entry = some (ident, v))
    (hrest : Binds a next bindings s) : Binds a (.pair link) ((ident, v) :: bindings) s

variable {a a₂ : Arena} {u v s : Value} {id : CellId} {bs cs : List (Value × Value)} {i : AtomId}

namespace AgreeOn

theorem car_eq (h : a.AgreeOn a₂ (.pair id)) : a₂.car id = a.car id := by
  rw [Arena.car_eq, Arena.car_eq, h.graph]

theorem cdr_eq (h : a.AgreeOn a₂ (.pair id)) : a₂.cdr id = a.cdr id := by
  rw [Arena.cdr_eq, Arena.cdr_eq, h.graph]

/-- What stands in the slots of a pair looks alike too. -/
theorem slots {x y : Value} (h : a.AgreeOn a₂ (.pair id)) (hpair : a.pair? id = some (x, y)) :
    a₂.pair? id = some (x, y) ∧ a.AgreeOn a₂ x ∧ a.AgreeOn a₂ y := by
  obtain ⟨hgraph, hx, hy⟩ := pair?_eq_some_iff.mp hpair
  have hcar := h.car
  have hcdr := h.cdr
  rw [hgraph] at hcar hcdr
  exact ⟨pair?_eq_some_iff.mpr ⟨h.graph.trans hgraph, hx, hy⟩, hcar, hcdr⟩

end AgreeOn

namespace Binds

theorem append (h : a.Binds u bs v) (h' : a.Binds v cs s) : a.Binds u (bs ++ cs) s := by
  induction h with
  | bare => exact h'
  | link hlink hentry _ ih => exact .link hlink hentry (ih h')

theorem transfer (h : a.Binds v bs s) (hagree : a.AgreeOn a₂ v) : a₂.Binds v bs s := by
  induction h with
  | bare => exact .bare _
  | link hlink hentry _ ih =>
    obtain ⟨hlink₂, hagree₂, hnext⟩ := hagree.slots hlink
    exact .link hlink₂ (hagree₂.slots hentry).1 (ih hnext)

theorem ne_poison (h : a.Binds v bs s) (hs : s ≠ .poison) : v ≠ .poison := by
  cases h with
  | bare => exact hs
  | link => exact nofun

/-- Arenas that look alike from a scope on look alike from what is behind its bindings. -/
theorem agree (h : a.Binds v bs s) (hagree : a.AgreeOn a₂ v) : a.AgreeOn a₂ s := by
  induction h with
  | bare => exact hagree
  | link hlink _ _ ih => exact ih (hagree.slots hlink).2.2

/-- A search tries the bindings one after the other. -/
theorem lookupWithin (h : a.Binds v bs s) (i : AtomId) (n : Nat) :
    Scope.lookupWithin a i (bs.length + n) v =
      match bs.find? (·.1 = .atom i) with
      | some b => .ok (some b.2)
      | none => Scope.lookupWithin a i n s := by
  induction h with
  | bare => rw [List.length_nil, Nat.zero_add, List.find?_nil]
  | @link link entry ident v next s bs hlink hentry _ ih =>
    obtain ⟨hcar, hcdr⟩ := pair?_eq_some.mp hlink
    obtain ⟨hident, hv⟩ := pair?_eq_some.mp hentry
    rw [List.length_cons, Nat.add_right_comm, Scope.lookupWithin_pair, hcar, hcdr]
    simp only [ok_bind, hident, hv]
    by_cases hi : ident = .atom i
    · rw [if_pos hi, List.find?_cons, decide_eq_true hi]
      rfl
    · rw [if_neg hi, List.find?_cons, decide_eq_false hi]
      exact ih

/-- A name is looked up among the bindings first, and then in the scope behind them. -/
theorem lookup (h : a.Binds v bs s) (i : AtomId) :
    (⟨v⟩ : Scope).lookup a i =
      match bs.find? (·.1 = .atom i) with
      | some b => .ok (some b.2)
      | none => (⟨s⟩ : Scope).lookup a i := by
  rw [← (⟨v⟩ : Scope).lookupWithin_eq_lookup a i (Nat.le_add_left (a.used + 1) bs.length)]
  exact h.lookupWithin i _

end Binds

/-- A search comes to the same in arenas that look alike from the scope on. -/
theorem AgreeOn.lookupWithin (h : a.AgreeOn a₂ v) (i : AtomId) (n : Nat) :
    Scope.lookupWithin a₂ i n v = Scope.lookupWithin a i n v := by
  induction n generalizing v with
  | zero => rfl
  | succ n ih =>
    cases v with
    | nil | atom _ | builtin _ => rfl
    | pair link =>
      rw [Scope.lookupWithin_pair, Scope.lookupWithin_pair, h.car_eq, h.cdr_eq]
      cases hhead : a.car link with
      | error e => rfl
      | ok head =>
        cases head with
        | nil | atom _ | builtin _ => rfl
        | pair entry =>
          have hentry : a.AgreeOn a₂ (.pair entry) := graph_fst_of_car hhead ▸ h.car
          simp only [ok_bind, hentry.car_eq, hentry.cdr_eq]
          cases hnext : a.cdr link with
          | error e => rfl
          | ok next =>
            have hnext : a.AgreeOn a₂ next := graph_snd_of_cdr hnext ▸ h.cdr
            simp only [ok_bind, ih hnext]

theorem AgreeOn.lookup {scope : Scope} (h : a.AgreeOn a₂ scope.value) (i : AtomId) :
    scope.lookup a₂ i = scope.lookup a i := by
  rw [← scope.lookupWithin_eq_lookup a i (Nat.le_max_left _ (a₂.used + 1)),
    ← scope.lookupWithin_eq_lookup a₂ i (Nat.le_max_right (a.used + 1) _)]
  exact h.lookupWithin i _

end Arena

/-! ### A new binding -/

variable {m m₂ : Machine} {ident v : Value} {scope : Scope}

/-- An allocation of values that do not dangle keeps what is pinned.  The new pair is in use, and what its
slots reach is as it was. -/
theorem meets_cons {car cdr : Value} (hm : m.Coherent) (hcar : ¬ m.arena.Dangling car)
    (hcdr : ¬ m.arena.Dangling cdr) :
    Meets m (Action.cons car cdr)
      (fun w m₂ => m.Keeps m₂ ∧ ¬ m₂.arena.Dangling w ∧
        (∃ id, w = .pair id ∧ m₂.arena.graph id = (car, cdr)) ∧
        m.arena.AgreeOn m₂.arena car ∧ m.arena.AgreeOn m₂.arena cdr)
      (fun e m₂ => m.Keeps m₂ ∧ e = .failure .outOfMemory) := by
  have hkeeps := Machine.keeps_allocated hm hcar hcdr
  obtain ⟨hkept, hplaced⟩ := Arena.alloc_spec hm.arena (hm.not_dangling_operands hcar hcdr)
  unfold Meets
  rw [Action.run_cons]
  cases hid : (m.arena.alloc m.roots car cdr).cell? with
  | none => exact ⟨hkeeps, rfl⟩
  | some id =>
    have hplaced := hplaced id hid
    refine ⟨hkeeps, Arena.not_dangling_pair.mpr hplaced.live, ⟨id, rfl, hplaced.graph⟩, ?_, ?_⟩
    · exact fun x hx => hkept.graph x (hx.of_subset (by simp))
    · exact fun x hx => hkept.graph x (hx.of_subset (by simp))

/-- A binding in front of a scope that is pinned. -/
theorem meets_extend (hm : m.Coherent) (hident : ident.isAtom) (hv : ¬ m.arena.Dangling v)
    (hscope : m.Holds scope.value) (hreal : ident ≠ .poison ∧ v ≠ .poison ∧ scope.value ≠ .poison) :
    Meets m (scope.extend ident v)
      (fun s m₂ => m.Keeps m₂ ∧ ¬ m₂.arena.Dangling s.value ∧
        m₂.arena.Binds s.value [(ident, v)] scope.value)
      (fun e m₂ => m.Keeps m₂ ∧ e = .failure .outOfMemory) := by
  have hatom : ¬ m.arena.Dangling ident := by
    rintro ⟨id, rfl, -⟩
    cases hident
  refine (meets_cons hm hatom hv).bind ?_ fun _ _ h => h
  rintro _ m₂ ⟨hkeeps, hw, ⟨entry, rfl, hentry⟩, -, -⟩
  have hscope₂ := hkeeps.coherent.not_dangling (hkeeps.holds hscope)
  refine (meets_cons hkeeps.coherent hw hscope₂).bind ?_ fun _ _ h => ⟨hkeeps.trans h.1, h.2⟩
  rintro _ m₃ ⟨hkeeps₃, hw, ⟨link, rfl, hlink⟩, hagree, -⟩
  have hpair := Arena.pair?_eq_some_iff.mpr ⟨hlink, nofun, hreal.2.2⟩
  have hbinding := Arena.pair?_eq_some_iff.mpr ⟨hagree.graph.trans hentry, hreal.1, hreal.2.1⟩
  exact .pure ⟨hkeeps.trans hkeeps₃, hw, .link hpair hbinding (.bare _)⟩

end ArenaLisp
