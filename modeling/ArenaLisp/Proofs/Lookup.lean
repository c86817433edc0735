import ArenaLisp.Proofs.Views

/-!
# Looking a name up in a chain

A lookup follows a chain of at most as many links as there are cells.  A longer search finds no more
(`lookupWithin_eq_lookup`): it would come to the same link twice, and a chain that does goes round
for ever.  Hence lookups in two machines in step give values that correspond, although the arenas
may have different sizes (`World.Ok.lookup`).
-/

namespace ArenaLisp

theorem ok_bind {α β : Type} (x : α) (f : α → Except Stop β) : (Except.ok x >>= f) = f x := rfl

theorem Arena.ne_unfinished_of_car {a : Arena} {id : CellId} {e : Stop}
    (h : a.car id = .error e) : e ≠ .unfinished := by
  rw [car_eq] at h
  split at h
  · rw [← Except.error.inj h]
    simp [Stop.unfinished]
  · simp at h

theorem Arena.ne_unfinished_of_cdr {a : Arena} {id : CellId} {e : Stop}
    (h : a.cdr id = .error e) : e ≠ .unfinished := by
  rw [cdr_eq] at h
  split at h
  · rw [← Except.error.inj h]
    simp [Stop.unfinished]
  · simp at h

theorem Arena.lt_used_of_car {a : Arena} {id : CellId} {v : Value} (h : a.car id = .ok v) :
    id.toNat < a.used := by
  obtain ⟨-, cell, hcell, -⟩ := car_eq_ok.mp h
  exact (Array.getElem?_eq_some_iff.mp hcell).1

namespace Scope

variable {a : Arena} {ident : AtomId} {n k : Nat} {v : Value} {link : CellId}

/-- Whether the search for a name comes to an end within `n` links. -/
def Settles (a : Arena) (ident : AtomId) (n : Nat) (v : Value) : Prop :=
  lookupWithin a ident n v ≠ .error .unfinished

theorem not_settles_zero : ¬ Settles a ident 0 v := fun h => h rfl

/-- What a link comes to, given the search from the next one. -/
theorem lookupWithin_pair (a : Arena) (ident : AtomId) (n : Nat) (link : CellId) :
    lookupWithin a ident (n + 1) (.pair link) = (do
      match ← a.car link with
      | .pair entry =>
        if (← a.car entry) = .atom ident then return some (← a.cdr entry)
        else lookupWithin a ident n (← a.cdr link)
      | _ => .error (.illFormed .scope)) := rfl

/-- A link either decides the search, or hands it on to the next one. -/
theorem lookupWithin_pair_cases (a : Arena) (ident : AtomId) (link : CellId) :
    (∃ r, r ≠ .error .unfinished ∧ ∀ n, lookupWithin a ident (n + 1) (.pair link) = r) ∨
      link.toNat < a.used ∧ ∃ next, a.cdr link = .ok next ∧ ∀ n,
        lookupWithin a ident (n + 1) (.pair link) = lookupWithin a ident n next := by
  simp only [lookupWithin_pair]
  cases hhead : a.car link with
  | error e =>
    exact .inl ⟨.error e, fun h => Arena.ne_unfinished_of_car hhead (Except.error.inj h), fun _ => rfl⟩
  | ok head =>
    cases head with
    | nil | atom _ | builtin _ =>
      exact .inl ⟨.error (.illFormed .scope), by simp [Stop.illFormed, Stop.unfinished],
        fun _ => rfl⟩
    | pair entry =>
      simp only [ok_bind]
      cases hkey : a.car entry with
      | error e =>
        exact .inl ⟨.error e, fun h => Arena.ne_unfinished_of_car hkey (Except.error.inj h), fun _ => rfl⟩
      | ok key =>
        simp only [ok_bind]
        by_cases hident : key = .atom ident
        · simp only [if_pos hident]
          cases hv : a.cdr entry with
          | error e =>
            exact .inl ⟨.error e, fun h => Arena.ne_unfinished_of_cdr hv (Except.error.inj h), fun _ => rfl⟩
          | ok v => exact .inl ⟨.ok (some v), by simp, fun _ => rfl⟩
        · simp only [if_neg hident]
          cases hnext : a.cdr link with
          | error e =>
            exact .inl ⟨.error e, fun h => Arena.ne_unfinished_of_cdr hnext (Except.error.inj h), fun _ => rfl⟩
          | ok next => exact .inr ⟨Arena.lt_used_of_car hhead, next, rfl, fun _ => rfl⟩

/-- The end of a chain decides the search. -/
theorem settles_of_not_pair (hv : ∀ link, v ≠ .pair link) : Settles a ident (n + 1) v := by
  cases v with
  | nil => simp [Settles, lookupWithin, pure, Except.pure]
  | builtin b => simp [Settles, lookupWithin, Stop.unfinished, Stop.illFormed]
  | atom id =>
    unfold Settles lookupWithin
    split <;> simp [Stop.unfinished, Stop.illFormed, pure, Except.pure]
  | pair link => exact absurd rfl (hv link)

/-- Once settled, a search gives the same from there on. -/
theorem lookupWithin_succ (h : Settles a ident n v) :
    lookupWithin a ident (n + 1) v = lookupWithin a ident n v := by
  induction n generalizing v with
  | zero => exact absurd h not_settles_zero
  | succ n ih =>
    cases v with
    | nil | atom _ | builtin _ => rfl
    | pair link =>
      rcases lookupWithin_pair_cases a ident link with ⟨r, -, hr⟩ | ⟨-, next, -, hnext⟩
      · rw [hr, hr]
      · rw [hnext, hnext, ih (by rwa [Settles, hnext] at h)]

theorem lookupWithin_of_le (h : Settles a ident n v) (hk : n ≤ k) :
    lookupWithin a ident k v = lookupWithin a ident n v := by
  induction k, hk using Nat.le_induction with
  | base => rfl
  | succ k _ ih => rw [lookupWithin_succ (by rwa [Settles, ih]), ih]

theorem Settles.of_le (h : Settles a ident n v) (hk : n ≤ k) : Settles a ident k v := by
  rwa [Settles, lookupWithin_of_le h hk]

/-- A search that takes `n + 1` links to settle has met `n` different ones. -/
theorem exists_links (h : Settles a ident (n + 1) v) (hn : ¬ Settles a ident n v) :
    ∃ links : List CellId, links.Nodup ∧ links.length = n ∧
      ∀ link ∈ links, link.toNat < a.used ∧ Settles a ident (n + 1) (.pair link) := by
  induction n generalizing v with
  | zero => exact ⟨[], .nil, rfl, by simp⟩
  | succ n ih =>
    by_cases hv : ∀ link, v ≠ .pair link
    · exact absurd (settles_of_not_pair hv) hn
    · push Not at hv
      obtain ⟨link, rfl⟩ := hv
      rcases lookupWithin_pair_cases a ident link with ⟨r, hr, hdecides⟩ | ⟨hlt, next, -, hnext⟩
      · exact absurd (by rw [Settles, hdecides]; exact hr) hn
      · rw [Settles, hnext] at h hn
        obtain ⟨links, hnodup, hlen, hlinks⟩ := ih h hn
        refine ⟨link :: links, List.nodup_cons.mpr ⟨fun hmem => ?_, hnodup⟩, by simp [hlen], ?_⟩
        · -- the first link takes longer to settle than those behind it
          have := (hlinks link hmem).2
          rw [Settles, hnext] at this
          exact hn this
        · intro x hx
          rcases List.mem_cons.mp hx with rfl | hx
          · exact ⟨hlt, by rwa [Settles, hnext]⟩
          · exact ⟨(hlinks x hx).1, (hlinks x hx).2.of_le (Nat.le_succ _)⟩

/-- A search that settles at all does so within as many links as there are cells. -/
theorem Settles.within_used (h : Settles a ident n v) : Settles a ident (a.used + 1) v := by
  by_contra hunsettled
  -- the first bound at which the search settles
  have hex : ∃ k, Settles a ident k v := ⟨n, h⟩
  classical
  have hfirst := Nat.find_spec hex
  cases hk : Nat.find hex with
  | zero => exact not_settles_zero (hk ▸ hfirst)
  | succ k =>
    rw [hk] at hfirst
    obtain ⟨links, hnodup, hlen, hlinks⟩ :=
      exists_links hfirst (Nat.find_min hex (by omega))
    have hsub : links.map CellId.toNat ⊆ List.range a.used := by
      intro i hi
      obtain ⟨link, hlink, rfl⟩ := List.mem_map.mp hi
      exact List.mem_range.mpr (hlinks link hlink).1
    have hle := (List.subperm_of_subset
      (hnodup.map fun _ _ => CellId.toNat_injective) hsub).length_le
    rw [List.length_map, List.length_range, hlen] at hle
    exact hunsettled (hfirst.of_le (by omega))

/-- Searching along more links than there are cells finds nothing more. -/
theorem lookupWithin_eq_lookup (scope : Scope) (a : Arena) (ident : AtomId)
    (hn : a.used + 1 ≤ n) : lookupWithin a ident n scope.value = scope.lookup a ident := by
  by_cases h : Settles a ident n scope.value
  · rw [lookupWithin_of_le h.within_used hn, lookup]
  · have hused : ¬ Settles a ident (a.used + 1) scope.value := fun h' => h (h'.of_le hn)
    rw [Settles, not_not] at h hused
    rw [h, lookup, hused]

end Scope

/-! ### In two machines in step -/

namespace World.Ok

variable {M : Mode} {w : World} {v v' : Value} {i i' : AtomId}

theorem lookupWithin (hw : w.Ok M) (hi : w.ren.Alike i i') (n : Nat) (hv : w.Rel v v') :
    M.Answers (Option.Rel (w.Part v)) (Scope.lookupWithin w.left.arena i n v)
      (Scope.lookupWithin w.right.arena i' n v') := by
  induction n generalizing v v' with
  | zero => exact .error nofun
  | succ n ih =>
    cases hv with
    | nil => exact .pure .none
    | builtin b => exact .error nofun
    | @atom j j' hj =>
      show M.Answers _ (if j = .topLevel then _ else _) (if j' = .topLevel then _ else _)
      rw [if_congr (hw.lawful.atom_eq_iff hj (by decide)) rfl rfl, hw.lawful.ofAtom?_eq hi]
      split
      · refine .pure ?_
        cases Builtin.ofAtom? i' with
        | none => exact .none
        | some b => exact .some ⟨.builtin b, fun z hz => by simp at hz⟩
      · exact .error nofun
    | @pair link link' hlink =>
      refine (hw.car hlink).bind fun entry entry' hentry => ?_
      obtain ⟨hrel, hleads⟩ := hentry
      cases hrel with
      | nil | atom _ | builtin _ => exact .error nofun
      | pair hcell =>
        refine (hw.car hcell).bind fun key key' hkey => ?_
        rw [if_congr (hi.eq_atom_iff hkey.1) rfl rfl]
        split
        · refine (hw.cdr hcell).bind fun v v' hv => ?_
          exact .pure (.some (Part.trans ⟨.pair hcell, hleads⟩ hv))
        · refine (hw.cdr hlink).bind fun next next' hnext => ?_
          exact (ih hnext.1).mono fun o o' ho => by
            cases ho with
            | none => exact .none
            | some h => exact .some (hnext.trans h)

/-- A name is bound alike in scopes that correspond. -/
theorem lookup {scope scope' : Scope} (hw : w.Ok M) (hi : w.ren.Alike i i')
    (hscope : w.Rel scope.value scope'.value) :
    M.Answers (Option.Rel (w.Part scope.value)) (scope.lookup w.left.arena i)
      (scope'.lookup w.right.arena i') := by
  rw [← scope.lookupWithin_eq_lookup w.left.arena i (Nat.le_max_left _ (w.right.arena.used + 1)),
    ← scope'.lookupWithin_eq_lookup w.right.arena i' (Nat.le_max_right (w.left.arena.used + 1) _)]
  exact hw.lookupWithin hi _ hscope

/-- A name that is bound to its builtin on the left is so on the right. -/
theorem lookup_builtin {scope scope' : Scope} {b : Builtin} (hw : w.Ok M)
    (hscope : w.Rel scope.value scope'.value)
    (h : scope.lookup w.left.arena b.atom = .ok (some (.builtin b))) :
    scope'.lookup w.right.arena b.atom = .ok (some (.builtin b)) := by
  have hfixed : b.atom.index ≤ 10 := by
    cases b <;> decide
  have hanswers := hw.lookup (hw.lawful.alike (hw.lawful.fixed hfixed)) hscope
  rw [h] at hanswers
  obtain ⟨o, ho, hrel⟩ := hanswers
  rw [ho]
  cases hrel with
  | some hv =>
    cases hv.1
    rfl

end World.Ok

end ArenaLisp
