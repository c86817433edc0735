import ArenaLisp.Proofs.Completes
import ArenaLisp.Proofs.ReadInStep

/-!
# Clean values

An alphabet says which immediates may stand in slots.  A value is clean if it is of the alphabet and so
is everything that is reached from it.  What is read from a clean value is clean
(`Machine.Clean.piece_car`, `Machine.piece_lookup`), with one way out of what is reached: a name that
is not bound before the end of a top-level scope means a builtin, so that an alphabet with the
top-level marker has the builtins too.  A clean value that is held stays clean for as long as it is
held (`Machine.Guards.keeps`).
-/

namespace ArenaLisp

/-- Readings in a row that give a value have one each. -/
theorem exists_of_bind_eq_ok {α β : Type} {r : Except Stop α} {f : α → Except Stop β} {y : β}
    (h : (r >>= f) = .ok y) : ∃ x, r = .ok x ∧ f x = .ok y := by
  cases r with
  | error e => cases h
  | ok x => exact ⟨x, rfl, h⟩

/-- What may stand in a slot, for each lexicon. -/
structure Alphabet where
  Has : Lexicon → Value → Prop
  pair : ∀ l id, Has l (.pair id)
  nil : ∀ l, Has l .nil
  /-- The atoms below the top-level marker, which have a spelling in every lexicon. -/
  atom : ∀ l (i : AtomId), i.index < AtomId.topLevel.index → Has l (.atom i)
  builtin : ∀ l b, Has l (.atom .topLevel) → Has l (.builtin b)
  grows : ∀ {l l₂ v}, l.Grows l₂ → Has l v → Has l₂ v

/-- The alphabet of all values. -/
def Alphabet.all : Alphabet where
  Has _ _ := True
  pair _ _ := trivial
  nil _ := trivial
  atom _ _ _ := trivial
  builtin _ _ _ := trivial
  grows _ _ := trivial

/-- Whether a value and all slots that it reaches are of an alphabet, and nothing dangles. -/
structure Alphabet.Clean (A : Alphabet) (a : Arena) (l : Lexicon) (v : Value) : Prop where
  not_dangling : ¬ a.Dangling v
  has : A.Has l v
  slots : ∀ id, a.graph.Reaches [v] id → A.Has l (a.graph id).1 ∧ A.Has l (a.graph id).2

namespace Machine

/-- Whether a value is clean in the arena of a machine. -/
def Clean (m : Machine) (A : Alphabet) (v : Value) : Prop := A.Clean m.arena m.lexicon v

/-- A clean value that can be come to from `v`. -/
structure Piece (m : Machine) (A : Alphabet) (v c : Value) : Prop where
  leads : m.Leads v c
  clean : m.Clean A c

/-- Whether a value is held and clean. -/
def Guards (m : Machine) (A : Alphabet) (v : Value) : Prop := m.Holds v ∧ m.Clean A v

variable {A : Alphabet} {m m₂ : Machine} {v c d x y z u : Value} {id : CellId} {i : AtomId}

theorem clean_of_not_pair (hv : ∀ id, v ≠ .pair id) (h : A.Has m.lexicon v) : m.Clean A v where
  not_dangling := fun ⟨id, hid, _⟩ => hv id hid
  has := h
  slots _ hid := absurd (hid.through fun y hy => absurd hy (hv y)) Graph.reaches_nil

theorem clean_nil : m.Clean A .nil := clean_of_not_pair nofun (A.nil _)

theorem clean_atom (hi : i.index < AtomId.topLevel.index) : m.Clean A (.atom i) :=
  clean_of_not_pair nofun (A.atom _ i hi)

theorem clean_builtin {b : Builtin} (h : A.Has m.lexicon (.builtin b)) : m.Clean A (.builtin b) :=
  clean_of_not_pair nofun h

theorem leads_builtin {b : Builtin} : m.Leads v (.builtin b) := nofun

/-- In the alphabet of all values, what does not dangle is clean. -/
theorem clean_all (hv : ¬ m.arena.Dangling v) : m.Clean .all v :=
  ⟨hv, trivial, fun _ _ => ⟨trivial, trivial⟩⟩

/-- In the alphabet of all values, what is held is guarded. -/
theorem Coherent.guards_all (hm : m.Coherent) (hv : m.Holds v) : m.Guards .all v :=
  ⟨hv, clean_all (hm.not_dangling hv)⟩

/-- In an arena in which all cells in use are of the alphabet, a value of the alphabet that does not
dangle is clean. -/
theorem clean_of_live (hm : m.Coherent)
    (hlive : ∀ id, m.arena.Live id →
      A.Has m.lexicon (m.arena.graph id).1 ∧ A.Has m.lexicon (m.arena.graph id).2)
    (hv : ¬ m.arena.Dangling v) (h : A.Has m.lexicon v) : m.Clean A v where
  not_dangling := hv
  has := h
  slots id hid := hlive id (hm.arena.live_of_reaches (fun _ hw => List.mem_singleton.mp hw ▸ hv) hid)

/-- What a clean value leads to is clean if it is of the alphabet itself. -/
theorem Clean.leads (hm : m.Coherent) (hv : m.Clean A v) (hc : m.Leads v c)
    (hhas : A.Has m.lexicon c) : m.Clean A c where
  not_dangling := Arena.not_dangling_iff.mpr fun id hid =>
    hm.arena.live_of_reaches (fun _ hw => List.mem_singleton.mp hw ▸ hv.not_dangling) (hc id hid)
  has := hhas
  slots id hid := hv.slots id (hid.through hc)

namespace Piece

theorem trans (hc : m.Piece A v c) (hd : m.Piece A c d) : m.Piece A v d :=
  ⟨hc.leads.trans hd.leads, hd.clean⟩

theorem of_same (hc : m.Piece A v c) (harena : m₂.arena = m.arena)
    (hlexicon : m₂.lexicon = m.lexicon) : m₂.Piece A v c := by
  obtain ⟨hleads, hclean⟩ := hc
  unfold Leads at hleads
  unfold Clean at hclean
  rw [← harena] at hleads hclean
  rw [← hlexicon] at hclean
  exact ⟨hleads, hclean⟩

end Piece

namespace Guards

theorem pin (hv : m.Guards A v) : (m.pin u).Guards A v := ⟨hv.1.pin, hv.2⟩

theorem piece (hv : m.Guards A v) (hc : m.Piece A v c) : m.Guards A c :=
  ⟨hv.1.leads hc.leads, hc.clean⟩

/-- What is held and clean stays so. -/
theorem keeps (hv : m.Guards A v) (h : m.Keeps m₂) (hreads : m.Reads m₂) : m₂.Guards A v := by
  have hholds := h.holds hv.1
  have hkept := h.agreeOn hv.1
  refine ⟨hholds, h.coherent.not_dangling hholds, A.grows hreads hv.2.has, fun id hid => ?_⟩
  have hid := (Graph.reaches_congr hkept).mp hid
  obtain ⟨hcar, hcdr⟩ := hv.2.slots id hid
  rw [hkept id hid]
  exact ⟨A.grows hreads hcar, A.grows hreads hcdr⟩

end Guards

/-- A clean value is guarded once it is pinned. -/
theorem Clean.guards_pin (hv : m.Clean A v) : (m.pin v).Guards A v := ⟨holds_pin_self, hv⟩

theorem Piece.guards_pin (hc : m.Piece A v c) : (m.pin v).Guards A c :=
  ⟨holds_pin_self.leads hc.leads, hc.clean⟩

/-! ### What is read -/

section Read

variable (hm : m.Coherent)
include hm

/-- What stands in the first slot of a clean pair. -/
theorem Clean.piece_car (hv : m.Clean A (.pair id)) (h : m.arena.car id = .ok c) :
    m.Piece A (.pair id) c := by
  have hroot := m.arena.graph.reaches_self id
  have hleads : m.Leads (.pair id) (m.arena.graph id).1 := fun z hz => hroot.car hz
  rw [← Arena.graph_fst_of_car h]
  exact ⟨hleads, hv.leads hm hleads (hv.slots id hroot).1⟩

/-- What stands in the second slot of a clean pair. -/
theorem Clean.piece_cdr (hv : m.Clean A (.pair id)) (h : m.arena.cdr id = .ok c) :
    m.Piece A (.pair id) c := by
  have hroot := m.arena.graph.reaches_self id
  have hleads : m.Leads (.pair id) (m.arena.graph id).2 := fun z hz => hroot.cdr hz
  rw [← Arena.graph_snd_of_cdr h]
  exact ⟨hleads, hv.leads hm hleads (hv.slots id hroot).2⟩

theorem piece_uncons (hv : m.Clean A v) (h : m.arena.uncons? v = .ok (some (x, y))) :
    m.Piece A v x ∧ m.Piece A v y := by
  cases v with
  | nil | atom _ | builtin _ => cases h
  | pair id =>
    obtain ⟨c, hcar, h⟩ := exists_of_bind_eq_ok h
    obtain ⟨d, hcdr, h⟩ := exists_of_bind_eq_ok h
    cases h
    exact ⟨hv.piece_car hm hcar, hv.piece_cdr hm hcdr⟩

theorem piece_one (hv : m.Clean A v) (h : m.arena.one? v = .ok (some x)) : m.Piece A v x := by
  obtain ⟨o, huncons, h⟩ := exists_of_bind_eq_ok h
  cases o with
  | none => cases h
  | some p =>
    dsimp only at h
    split at h
    · cases h
      exact (piece_uncons hm hv huncons).1
    · cases h

theorem piece_two (hv : m.Clean A v) (h : m.arena.two? v = .ok (some (x, y))) :
    m.Piece A v x ∧ m.Piece A v y := by
  obtain ⟨o, huncons, h⟩ := exists_of_bind_eq_ok h
  cases o with
  | none => cases h
  | some p =>
    obtain ⟨hc, hd⟩ := piece_uncons hm hv huncons
    obtain ⟨o, hone, h⟩ := exists_of_bind_eq_ok h
    cases o with
    | none => cases h
    | some e =>
      cases h
      exact ⟨hc, hd.trans (piece_one hm hd.clean hone)⟩

theorem piece_three (hv : m.Clean A v) (h : m.arena.three? v = .ok (some (x, y, z))) :
    m.Piece A v x ∧ m.Piece A v y ∧ m.Piece A v z := by
  obtain ⟨o, huncons, h⟩ := exists_of_bind_eq_ok h
  cases o with
  | none => cases h
  | some p =>
    obtain ⟨hc, hd⟩ := piece_uncons hm hv huncons
    obtain ⟨o, htwo, h⟩ := exists_of_bind_eq_ok h
    cases o with
    | none => cases h
    | some q =>
      cases h
      obtain ⟨he, hf⟩ := piece_two hm hd.clean htwo
      exact ⟨hc, hd.trans he, hd.trans hf⟩

theorem piece_lookupWithin (i : AtomId) {n : Nat} (hv : m.Clean A v)
    (h : Scope.lookupWithin m.arena i n v = .ok (some u)) : m.Piece A v u := by
  induction n generalizing v with
  | zero => cases h
  | succ n ih =>
    cases v with
    | nil | builtin _ => cases h
    | atom j =>
      rw [Scope.lookupWithin] at h
      split at h
      · -- the chain goes on into the builtins
        rename_i hj
        cases hb : Builtin.ofAtom? i with
        | none =>
          rw [hb] at h
          cases h
        | some b =>
          rw [hb] at h
          cases h
          exact ⟨leads_builtin, clean_builtin (A.builtin _ b (hj ▸ hv.has))⟩
      · cases h
    | pair link =>
      obtain ⟨entry, hentry, h⟩ := exists_of_bind_eq_ok h
      have hpiece := hv.piece_car hm hentry
      cases entry with
      | nil | atom _ | builtin _ => cases h
      | pair entry =>
        obtain ⟨key, -, h⟩ := exists_of_bind_eq_ok h
        split at h
        · obtain ⟨value, hvalue, h⟩ := exists_of_bind_eq_ok h
          cases h
          exact hpiece.trans (hpiece.clean.piece_cdr hm hvalue)
        · obtain ⟨next, hnext, h⟩ := exists_of_bind_eq_ok h
          have hnext := hv.piece_cdr hm hnext
          exact hnext.trans (ih hnext.clean h)

/-- What a name is bound to in a clean scope. -/
theorem piece_lookup {scope : Scope} (hv : m.Clean A scope.value)
    (h : scope.lookup m.arena i = .ok (some u)) : m.Piece A scope.value u :=
  piece_lookupWithin hm i hv h

end Read

/-! ### What is built -/

/-- A pair of two clean values is clean. -/
theorem Clean.allocated (hm : m.Coherent) (hx : m.Clean A x) (hy : m.Clean A y)
    (hid : (m.arena.alloc m.roots x y).cell? = some id) : (m.allocated x y).Clean A (.pair id) := by
  obtain ⟨hkept, hplaced⟩ :=
    Arena.alloc_spec hm.arena (hm.not_dangling_operands hx.not_dangling hy.not_dangling)
  have hplaced := hplaced id hid
  have hkept : ∀ z, m.arena.graph.Reaches [x, y] z →
      (m.allocated x y).arena.graph z = m.arena.graph z :=
    fun z hz => hkept.graph z (hz.of_subset (by simp))
  have hslots : ∀ z, m.arena.graph.Reaches [x, y] z →
      A.Has m.lexicon (m.arena.graph z).1 ∧ A.Has m.lexicon (m.arena.graph z).2 := by
    intro z hz
    rcases Graph.reaches_cons.mp hz with hz | hz
    · exact hx.slots z hz
    · exact hy.slots z hz
  -- what the new pair reaches is itself, or what its slots reached before
  have hreach : ∀ z, (m.allocated x y).arena.graph.Reaches [.pair id] z →
      z = id ∨ m.arena.graph.Reaches [x, y] z := by
    intro z hz
    induction hz with
    | root hz => exact .inl (Value.pair.inj (List.mem_singleton.mp hz))
    | @child z w _ hzw ih =>
      rcases ih with rfl | ih
      · have hgraph : (m.allocated x y).arena.graph z = (x, y) := hplaced.graph
        rw [Graph.Child, hgraph] at hzw
        refine .inr (.root ?_)
        rcases hzw with hw | hw
        · simp [← hw]
        · simp [← hw]
      · rw [Graph.Child, hkept z ih] at hzw
        exact .inr (.child ih hzw)
  refine ⟨Arena.not_dangling_pair.mpr hplaced.live, A.pair _ _, fun z hz => ?_⟩
  rcases hreach z hz with rfl | hz
  · have hgraph : (m.allocated x y).arena.graph z = (x, y) := hplaced.graph
    rw [hgraph]
    exact ⟨hx.has, hy.has⟩
  · rw [hkept z hz]
    exact hslots z hz

end Machine

end ArenaLisp
