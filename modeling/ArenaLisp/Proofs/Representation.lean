import ArenaLisp.Proofs.Invariants

/-!
# The representation of the arena

The free cells stand in the order of their slots, all of them poisoned, and there are none before the
arena has been handed out in full (`Arena.Tidy`).  Every route of an allocation keeps this, so it holds
after every session, along with what makes a machine well-formed (`represented_of_arises`).  An
allocation that needs no collection then takes the lowest slot that is not in use
(`Arena.Tidy.alloc_least`).
-/

namespace ArenaLisp

namespace Arena

/-- What the free cells have in common between allocations. -/
structure Tidy (a : Arena) : Prop where
  sorted : a.free.Pairwise (·.toNat < ·.toNat)
  full : a.free ≠ [] → a.used = a.capacity.toNat
  poisoned : ∀ id ∈ a.free, a.graph id = (.poison, .poison)

theorem tidy_empty (capacity : UInt32) : (empty capacity).Tidy := ⟨.nil, nofun, nofun⟩

namespace Tidy

variable {a : Arena} {roots : List Value} {car cdr : Value} {id : CellId}

/-- The cells that are still free lie above the one that is filled. -/
theorem fill (h : a.Tidy) (ha : a.Coherent) {free : List CellId} (hfree : a.free = id :: free) :
    (a.fill id free car cdr).Tidy where
  sorted := (List.pairwise_cons.mp (hfree ▸ h.sorted)).2
  full _ := (used_fill ..).trans (h.full (by simp [hfree]))
  poisoned x hx := by
    have hlt : id.toNat < x.toNat := (List.pairwise_cons.mp (hfree ▸ h.sorted)).1 x hx
    rw [graph_fill (ha.free_lt id (by simp [hfree])), if_neg]
    · exact h.poisoned x (hfree ▸ List.mem_cons_of_mem id hx)
    · rintro rfl
      exact Nat.lt_irrefl _ hlt

theorem grow (hfree : a.free = []) : (a.grow car cdr).Tidy where
  sorted := by
    show a.free.Pairwise _
    rw [hfree]
    exact .nil
  full h := absurd hfree h
  poisoned x hx := absurd (show x ∈ a.free from hx) (by simp [hfree])

theorem collect (ha : a.Coherent) (hfull : a.used = a.capacity.toNat) : (a.collect roots).Tidy where
  sorted := pairwise_free_collect ha.used_le_two_pow
  full _ := used_collect.trans hfull
  poisoned _ hx := graph_collect_of_not_reaches ((mem_free_collect ha.used_le_two_pow).mp hx).2

/-- An allocation that needs no collection takes the lowest slot that is not in use. -/
theorem alloc_least (h : a.Tidy) (ha : a.Coherent) (hid : (a.alloc roots car cdr).cell? = some id)
    (hnone : (a.alloc roots car cdr).reclaimed? = none) :
    ¬ a.Live id ∧ ∀ x, ¬ a.Live x → id.toNat ≤ x.toNat := by
  have hlive : ∀ x, ¬ a.Live x → x ∈ a.free ∨ a.used ≤ x.toNat := fun x hx => by
    by_contra hx'
    push Not at hx'
    exact hx ⟨hx'.2, hx'.1⟩
  have hroute := a.route_alloc roots car cdr
  generalize a.alloc roots car cdr = al at hroute hid hnone
  cases hroute with
  | @reuse first free hfree =>
    obtain rfl : first = id := Option.some.inj hid
    have hmem : first ∈ a.free := by simp [hfree]
    refine ⟨fun hlive => hlive.2 hmem, fun x hx => ?_⟩
    rcases hlive x hx with hx | hx
    · rw [hfree] at hx
      rcases List.mem_cons.mp hx with rfl | hx
      · exact Nat.le_refl _
      · exact Nat.le_of_lt ((List.pairwise_cons.mp (hfree ▸ h.sorted)).1 x hx)
    · exact Nat.le_trans (Nat.le_of_lt (ha.free_lt first hmem)) hx
  | grow hfree hlt =>
    obtain rfl : CellId.ofNat a.used = id := Option.some.inj hid
    have hused : (CellId.ofNat a.used).toNat = a.used :=
      CellId.toNat_ofNat (Nat.lt_trans hlt a.capacity.toNat_lt)
    refine ⟨fun hlive => absurd hlive.1 (by omega), fun x hx => ?_⟩
    rcases hlive x hx with hx | hx
    · simp [hfree] at hx
    · rwa [hused]
  | collect | fail => cases hnone

end Tidy

/-- No cell, free or not, refers beyond the cells that have been handed out. -/
theorem Coherent.lt_used_of_child {a : Arena} (ha : a.Coherent) (h : a.Tidy) {x y : CellId}
    (hxy : a.graph.Child x y) : y.toNat < a.used := by
  by_cases hx : x ∈ a.free
  · rw [Graph.Child, h.poisoned x hx] at hxy
    simp [Value.poison] at hxy
  · exact (ha.live_of_child ⟨lt_size_of_child hxy, hx⟩ hxy).1

end Arena

theorem tidy_steady (A : Alphabet) : Steady A fun a _ => a.Tidy where
  fill ha h hfree _ _ _ _ := h.fill ha hfree
  grow _ _ hfree _ _ _ _ _ := .grow hfree
  collect ha _ hfull _ := .collect ha hfull
  grows h _ := h

theorem lexicon_steady (A : Alphabet) : Steady A fun _ l => Lexicon.initial.Grows l where
  fill _ h _ _ _ _ _ := h
  grow _ h _ _ _ _ _ _ := h
  collect _ h _ _ := h
  grows h hl := h.trans hl

/-- The alphabet without atoms that are not in use. -/
def Alphabet.known : Alphabet where
  Has l v := ∀ i, v = .atom i →
    i.index ≤ AtomId.topLevel.index ∨ i.index.toNat < l.count ∨ ∃ s, l.lookup? s = some v
  pair _ _ := nofun
  nil _ := nofun
  atom _ _ hi _ hj := .inl (Value.atom.inj hj ▸ UInt32.le_of_lt hi)
  builtin _ _ _ := nofun
  grows hl h i hi :=
    (h i hi).imp_right (Or.imp (·.trans_le hl.count_le) fun ⟨s, hs⟩ => ⟨s, hl.lookup? hs⟩)

/-- As long as there are fewer than `0xCCCCCCCC` atoms, the poison is not in use. -/
theorem Alphabet.ne_poison_of_known {l : Lexicon} {v : Value} (hl : l.Proper)
    (hv : Alphabet.known.Has l v) : v ≠ .poison := by
  intro hpoison
  rcases hv _ hpoison with hi | hi | ⟨s, hs⟩
  · exact absurd hi (by decide)
  · exact absurd (Nat.lt_of_lt_of_le hi hl.count_le) (by decide)
  · subst hpoison
    exact hl.ne_poison hs rfl

/-- After every session in which nothing dangling and no unknown atom is handed over, whatever succeeded
in it or failed: the machine is well-formed, the free cells are tidy, no cell or root refers beyond the
cells that were handed out, and an allocation without a collection takes the lowest slot that is not in
use. -/
theorem represented_of_arises {m : Machine} (hm : m.Arises fun m c => c.Fits m ∧ c.Has .known m)
    (hcount : m.lexicon.count ≤ Lexicon.maxCount) :
    m.WellFormed ∧ m.arena.Tidy ∧
      (∀ x y, m.arena.graph.Child x y → y.toNat < m.arena.used) ∧
      (∀ id, .pair id ∈ m.roots → id.toNat < m.arena.used) ∧
      ∀ roots car cdr id, (m.arena.alloc roots car cdr).cell? = some id →
        (m.arena.alloc roots car cdr).reclaimed? = none →
          ¬ m.arena.Live id ∧ ∀ x, ¬ m.arena.Live x → id.toNat ≤ x.toNat := by
  obtain ⟨hm, ⟨htidy, hlexicon⟩, hover⟩ :=
    ((tidy_steady .known).and (lexicon_steady .known)).of_arises
      (fun l s _ hi => .inr (.inr ⟨s, hi ▸ l.lookup?_intern s⟩))
      (fun _ _ hi => .inl (Value.atom.inj hi ▸ UInt32.le_refl _))
      (fun capacity => ⟨Arena.tidy_empty capacity, .refl⟩) hm
  have hproper := Lexicon.initial_proper.of_grows hlexicon hcount
  have hpoison : ∀ id, m.arena.Live id →
      (m.arena.graph id).1 ≠ .poison ∧ (m.arena.graph id).2 ≠ .poison := fun id hid =>
    ⟨Alphabet.ne_poison_of_known hproper (hover id hid).1,
      Alphabet.ne_poison_of_known hproper (hover id hid).2⟩
  refine ⟨⟨hm, hpoison⟩, htidy, fun x y hxy => hm.arena.lt_used_of_child htidy hxy, fun id hid => ?_,
    fun roots car cdr id hid hnone => htidy.alloc_least hm.arena hid hnone⟩
  exact (Arena.not_dangling_pair.mp (hm.roots _ hid)).1

/-- One of two freed cells has been used again; the other one is next. -/
theorem represented_of_arises_reuseSession :
    ((Machine.new 3 none).after reuseSession).arena.free = [⟨1⟩] ∧
      ((Machine.new 3 none).after reuseSession).WellFormed ∧
      ((Machine.new 3 none).after reuseSession).arena.Tidy ∧
      ∀ x, ¬ ((Machine.new 3 none).after reuseSession).arena.Live x → 1 ≤ x.toNat := by
  obtain ⟨hwell, htidy, -, -, hleast⟩ := represented_of_arises
    ⟨3, none, reuseSession, always_reuseSession .known, rfl⟩ (by decide +kernel)
  exact ⟨by decide +kernel, hwell, htidy,
    (hleast [] .nil .nil ⟨1⟩ (by decide +kernel) (by decide +kernel)).2⟩

end ArenaLisp
