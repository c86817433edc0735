import ArenaLisp.Proofs.Lookup
import ArenaLisp.Proofs.TreeEval

/-!
# What is read from a value that unfolds

Slots, short lists, bindings and printed forms of a value are those of its tree.  What is read is
reachable from what it is read from.
-/

namespace ArenaLisp.Machine

variable {M : Mode} {m m₂ : Machine} {v c d : Value} {s t u : Tree} {id : CellId}

/-- A value that is reachable from `v`, and its tree. -/
def Part (m : Machine) (v c : Value) (s : Tree) : Prop := m.Leads v c ∧ m.arena.Unfolds c s

/-- A value that is reachable from the root stack, so that no work ends it, and its tree. -/
def Secures (m : Machine) (v : Value) (t : Tree) : Prop := m.Holds v ∧ m.arena.Unfolds v t

/-- A value that does not dangle, and its tree. -/
def Shows (m : Machine) (v : Value) (t : Tree) : Prop := ¬ m.arena.Dangling v ∧ m.arena.Unfolds v t

theorem Part.trans (hc : m.Part v c s) (hd : m.Part c d t) : m.Part v d t :=
  ⟨hc.1.trans hd.1, hd.2⟩

theorem Secures.part (hv : m.Secures v t) (hc : m.Part v c s) : m.Secures c s :=
  ⟨hv.1.leads hc.1, hc.2⟩

theorem Secures.shows (hm : m.Coherent) (hv : m.Secures v t) : m.Shows v t :=
  ⟨hm.not_dangling hv.1, hv.2⟩

/-- What is secured stays. -/
theorem Secures.keeps (hv : m.Secures v t) (h : m.Keeps m₂) : m₂.Secures v t :=
  ⟨h.holds hv.1, hv.2.transfer (h.agreeOn hv.1)⟩

theorem Secures.pin (hv : m.Secures v t) : (m.pin c).Secures v t := ⟨hv.1.pin, hv.2⟩

theorem Shows.part (hm : m.Coherent) (hv : m.Shows v t) (hc : m.Part v c s) : m.Shows c s := by
  refine ⟨Arena.not_dangling_iff.mpr fun z hz => ?_, hc.2⟩
  exact hm.arena.live_of_reaches (by simpa using hv.1) (hc.1 z hz)

theorem Part.of_arena (hc : m.Part v c s) (h : m₂.arena = m.arena) : m₂.Part v c s := by
  unfold Part Leads
  rw [h]
  exact hc

theorem Shows.of_arena (hv : m.Shows v t) (h : m₂.arena = m.arena) : m₂.Shows v t := by
  unfold Shows
  rw [h]
  exact hv

/-- What is shown is secured once it is pinned. -/
theorem Shows.pin (hv : m.Shows v t) : (m.pin v).Secures v t := ⟨holds_pin_self, hv.2⟩

theorem Part.pin (hc : m.Part v c s) : (m.pin v).Secures c s := ⟨holds_pin_self.leads hc.1, hc.2⟩

/-- Every value of a well-formed machine stands for a tree, unless its cells lead in a circle. -/
theorem WellFormed.exists_unfolds (hm : m.WellFormed)
    (hacyclic : WellFounded fun y x => m.arena.Live x ∧ m.arena.graph.Child x y)
    (hv : ¬ m.arena.Dangling v) (hp : v ≠ .poison) : ∃ t, m.arena.Unfolds v t := by
  have hcell : ∀ id, m.arena.Live id → ∃ t, m.arena.Unfolds (.pair id) t := by
    intro id
    induction id using hacyclic.induction with
    | _ id ih =>
      intro hlive
      have hslot : ∀ c, ¬ m.arena.Dangling c → c ≠ .poison →
          (∀ z, c = .pair z → m.arena.graph.Child id z) → ∃ t, m.arena.Unfolds c t := by
        intro c hc hcp hchild
        cases c with
        | nil => exact ⟨_, .nil⟩
        | atom i => exact ⟨_, .atom hcp⟩
        | builtin b => exact ⟨_, .builtin b⟩
        | pair z => exact ih z ⟨hlive, hchild z rfl⟩ (Arena.not_dangling_pair.mp hc)
      obtain ⟨hx, hy⟩ := hm.arena.not_dangling id hlive
      obtain ⟨hxp, hyp⟩ := hm.no_poison id hlive
      obtain ⟨s, hs⟩ := hslot _ hx hxp fun z hz => .inl hz
      obtain ⟨t, ht⟩ := hslot _ hy hyp fun z hz => .inr hz
      exact ⟨.pair s t, .pair (Arena.pair?_eq_some_iff.mpr ⟨rfl, hxp, hyp⟩) hs ht⟩
  cases v with
  | nil => exact ⟨_, .nil⟩
  | atom i => exact ⟨_, .atom hp⟩
  | builtin b => exact ⟨_, .builtin b⟩
  | pair id => exact hcell id (Arena.not_dangling_pair.mp hv)

/-! ### Slots and short lists -/

/-- The slots of a pair that unfolds. -/
theorem read_pair (h : m.arena.Unfolds (.pair id) t) :
    ∃ x y s u, t = .pair s u ∧ m.arena.car id = .ok x ∧ m.arena.cdr id = .ok y ∧
      m.Part (.pair id) x s ∧ m.Part (.pair id) y u := by
  cases h with
  | @pair _ x y s u hpair hs hu =>
    obtain ⟨hcar, hcdr⟩ := Arena.pair?_eq_some.mp hpair
    have hgraph := (Arena.pair?_eq_some_iff.mp hpair).1
    refine ⟨x, y, s, u, rfl, hcar, hcdr, ⟨fun z hz => ?_, hs⟩, fun z hz => ?_, hu⟩
    · exact (m.arena.graph.reaches_self id).child (.inl (by rw [hgraph, hz]))
    · exact (m.arena.graph.reaches_self id).child (.inr (by rw [hgraph, hz]))

theorem uncons?_eq_ok (h : m.arena.Unfolds v t) :
    ∃ o, m.arena.uncons? v = .ok o ∧
      Option.Rel (fun p q => m.Part v p.1 q.1 ∧ m.Part v p.2 q.2) o t.uncons? := by
  cases v with
  | nil | atom _ | builtin _ =>
    cases h
    exact ⟨_, rfl, .none⟩
  | pair id =>
    obtain ⟨x, y, s, u, rfl, hcar, hcdr, hx, hy⟩ := read_pair h
    rw [Arena.uncons?, hcar, hcdr]
    exact ⟨_, rfl, .some ⟨hx, hy⟩⟩

theorem one?_eq_ok (h : m.arena.Unfolds v t) :
    ∃ o, m.arena.one? v = .ok o ∧ Option.Rel (m.Part v) o t.one? := by
  obtain ⟨o, ho, hrel⟩ := uncons?_eq_ok h
  rw [Arena.one?, ho, Tree.one?]
  revert hrel
  generalize t.uncons? = o'
  intro hrel
  cases hrel with
  | none => exact ⟨_, rfl, .none⟩
  | @some p q hp =>
    refine ⟨_, rfl, ?_⟩
    show Option.Rel _ (if p.2 = .nil then some p.1 else none) (if q.2 = .nil then some q.1 else none)
    rw [if_congr hp.2.2.eq_nil_iff rfl rfl]
    split
    · exact .some hp.1
    · exact .none

theorem read_uncons? (h : m.arena.Unfolds v t) :
    M.Answers (Option.Rel fun p q => m.Part v p.1 q.1 ∧ m.Part v p.2 q.2)
      (m.arena.uncons? v) (.ok t.uncons?) := by
  obtain ⟨o, ho, hrel⟩ := uncons?_eq_ok h
  rw [ho]
  exact .pure hrel

theorem read_one? (h : m.arena.Unfolds v t) :
    M.Answers (Option.Rel (m.Part v)) (m.arena.one? v) (.ok t.one?) := by
  obtain ⟨o, ho, hrel⟩ := one?_eq_ok h
  rw [ho]
  exact .pure hrel

theorem read_two? (h : m.arena.Unfolds v t) :
    M.Answers (Option.Rel fun p q => m.Part v p.1 q.1 ∧ m.Part v p.2 q.2)
      (m.arena.two? v) (.ok t.two?) := by
  refine (read_uncons? h).bind
    (g := fun o => .ok (o.bind fun p => p.2.one?.map fun y => (p.1, y))) fun o o' ho => ?_
  cases ho with
  | none => exact .pure .none
  | @some p q hp =>
    refine (read_one? hp.2.2).bind (g := fun o => .ok (o.map fun y => (q.1, y))) fun o o' ho => ?_
    cases ho with
    | none => exact .pure .none
    | some hz => exact .pure (.some ⟨hp.1, hp.2.trans hz⟩)

theorem read_three? (h : m.arena.Unfolds v t) :
    M.Answers (Option.Rel fun p q =>
        m.Part v p.1 q.1 ∧ m.Part v p.2.1 q.2.1 ∧ m.Part v p.2.2 q.2.2)
      (m.arena.three? v) (.ok t.three?) := by
  refine (read_uncons? h).bind
    (g := fun o => .ok (o.bind fun p => p.2.two?.map fun yz => (p.1, yz))) fun o o' ho => ?_
  cases ho with
  | none => exact .pure .none
  | @some p q hp =>
    refine (read_two? hp.2.2).bind (g := fun o => .ok (o.map fun yz => (q.1, yz))) fun o o' ho => ?_
    cases ho with
    | none => exact .pure .none
    | some hz => exact .pure (.some ⟨hp.1, hp.2.trans hz.1, hp.2.trans hz.2⟩)

/-! ### Bindings -/

/-- A search along a long enough chain finds what the tree of the chain binds. -/
theorem read_lookupWithin (i : AtomId) (h : m.arena.Unfolds v t) :
    ∃ n, ∀ k, n ≤ k →
      M.Answers (Option.Rel (m.Part v)) (Scope.lookupWithin m.arena i k v) (t.lookup i) := by
  induction t generalizing v with
  | nil =>
    cases h
    refine ⟨1, fun k hk => ?_⟩
    obtain ⟨k, rfl⟩ := Nat.exists_eq_add_of_le' hk
    exact .pure .none
  | atom j =>
    cases h
    refine ⟨1, fun k hk => ?_⟩
    obtain ⟨k, rfl⟩ := Nat.exists_eq_add_of_le' hk
    show M.Answers _ (if j = .topLevel then _ else _) (if j = .topLevel then _ else _)
    split
    · refine .pure ?_
      cases Builtin.ofAtom? i with
      | none => exact .none
      | some b => exact .some ⟨nofun, .builtin b⟩
    · exact .error nofun
  | builtin b =>
    cases h
    refine ⟨1, fun k hk => ?_⟩
    obtain ⟨k, rfl⟩ := Nat.exists_eq_add_of_le' hk
    exact .error nofun
  | pair entry parent _ ih =>
    obtain ⟨link, rfl⟩ : ∃ link, v = .pair link := by
      cases h
      exact ⟨_, rfl⟩
    obtain ⟨x, y, s, u, heq, hcar, hcdr, hx, hy⟩ := read_pair h
    cases heq
    obtain ⟨n, hn⟩ := ih hy.2
    refine ⟨n + 1, fun k hk => ?_⟩
    obtain ⟨k, rfl⟩ := Nat.exists_eq_add_of_le' (Nat.le_of_add_left_le hk)
    rw [Scope.lookupWithin_pair, hcar, ok_bind]
    obtain ⟨hleads, hunfolds⟩ := hx
    cases hx : hunfolds with
    | nil | atom _ | builtin _ => exact .error nofun
    | @pair cell key value s u hpair _ _ =>
      obtain ⟨key, value, s, u, heq, hkey, hvalue, hs, hu⟩ := read_pair hunfolds
      cases heq
      dsimp only
      rw [hkey, ok_bind, hvalue, ok_bind, hcdr, ok_bind]
      show M.Answers _ (if _ then _ else _) (if _ then _ else _)
      rw [if_congr hs.2.eq_atom_iff rfl rfl]
      split
      · exact .pure (.some (Part.trans ⟨hleads, hunfolds⟩ hu))
      · refine (hn k (by omega)).mono fun o o' ho => ?_
        cases ho with
        | none => exact .none
        | some hz => exact .some (hy.trans hz)

/-- A name is bound to what the tree of the scope binds it to. -/
theorem read_lookup {scope : Scope} (i : AtomId) (h : m.arena.Unfolds scope.value t) :
    M.Answers (Option.Rel (m.Part scope.value)) (scope.lookup m.arena i) (t.lookup i) := by
  obtain ⟨n, hn⟩ := read_lookupWithin (M := M) i h
  rw [← scope.lookupWithin_eq_lookup m.arena i (Nat.le_max_right n _)]
  exact hn _ (Nat.le_max_left _ _)

/-! ### Printed forms -/

theorem quoted?_eq_ok (hc : m.arena.Unfolds c s) (hd : m.arena.Unfolds d t) :
    ∃ o, Render.quoted? m.arena c d = .ok o ∧
      Option.Rel m.arena.Unfolds o (Tree.quoted? s t) := by
  unfold Render.quoted? Tree.quoted?
  rw [if_congr hc.eq_atom_iff rfl rfl]
  split
  · obtain ⟨o, ho, hrel⟩ := one?_eq_ok hd
    refine ⟨o, ho, ?_⟩
    revert hrel
    generalize t.one? = o'
    intro hrel
    cases hrel with
    | none => exact .none
    | some h => exact .some h.2
  · exact ⟨_, rfl, .none⟩

theorem tail_eq_ok {element : Value → List Char → Except Stop (List Char)}
    {element' : Tree → List Char → List Char}
    (helement : ∀ v t after, m.arena.Unfolds v t → element v after = .ok (element' t after))
    (count : Nat) (after : List Char) (h : m.arena.Unfolds v t) :
    Render.tail m.arena element count v after = .ok (t.tailText element' count after) := by
  have hdot : ∀ v t, m.arena.Unfolds v t →
      (do return ' ' :: '.' :: ' ' :: (← element v (')' :: after)) : Except Stop (List Char)) =
        .ok (' ' :: '.' :: ' ' :: element' t (')' :: after)) := by
    intro v t h
    rw [helement v t _ h]
    rfl
  induction count generalizing v t with
  | zero =>
    cases h with
    | nil | pair _ _ _ => rfl
    | atom hi => exact hdot _ _ (.atom hi)
    | builtin b => exact hdot _ _ (.builtin b)
  | succ count ih =>
    cases v with
    | nil =>
      cases h
      rfl
    | atom i =>
      cases h with
      | atom hi => exact hdot _ _ (.atom hi)
    | builtin b =>
      cases h
      exact hdot _ _ (.builtin b)
    | pair id =>
      obtain ⟨x, y, s, u, rfl, hcar, hcdr, hx, hy⟩ := read_pair h
      rw [Render.tail, hcdr, ok_bind, ih hy.2, ok_bind, hcar, ok_bind, helement x s _ hx.2]
      rfl

theorem value_eq_ok (l : Lexicon) (depth : Nat) (after : List Char) (h : m.arena.Unfolds v t) :
    Render.value m.arena l depth v after = .ok (t.text l depth after) := by
  induction depth generalizing v t after with
  | zero => rfl
  | succ depth ih =>
    cases v with
    | nil | atom _ | builtin _ =>
      cases h
      rfl
    | pair id =>
      obtain ⟨x, y, s, u, rfl, hcar, hcdr, hx, hy⟩ := read_pair h
      obtain ⟨o, ho, hrel⟩ := quoted?_eq_ok hx.2 hy.2
      rw [Render.value, hcar, ok_bind, hcdr, ok_bind, ho, ok_bind, Tree.text_pair]
      revert hrel
      generalize Tree.quoted? s u = o', Render.maxTail = count
      intro hrel
      cases hrel with
      | @some z z' hz =>
        dsimp only
        rw [ih after hz]
        rfl
      | none =>
        dsimp only
        rw [tail_eq_ok (fun v t after h => ih after h) count after hy.2, ok_bind, ih _ hx.2]
        rfl

/-- A value prints as its tree. -/
theorem render_eq_ok (h : m.arena.Unfolds v t) : m.render v = .ok (t.render m.lexicon) := by
  have hdepth : ∀ depth, (do return String.ofList (← Render.value m.arena m.lexicon depth v [])) =
      (.ok (String.ofList (t.text m.lexicon depth [])) : Except Stop String) := by
    intro depth
    rw [value_eq_ok m.lexicon depth [] h]
    rfl
  exact hdepth (Render.maxDepth + 1)

theorem read_render (h : m.arena.Unfolds v t) :
    M.Answers (· = ·) (m.render v) (.ok (t.render m.lexicon)) := by
  rw [render_eq_ok h]
  exact .pure rfl

end ArenaLisp.Machine
