import ArenaLisp.Proofs.Keeps
import Mathlib.Data.Fintype.Card
import Mathlib.Data.List.Forall2

/-!
# Machines up to the names of cells and atoms

Two machines can hold the same structures in different cells and under different atom numbers.  A
renaming relates the cells and atoms of one to those of the other.  What lists of values that
correspond reach in two arenas corresponds one to one (`Between.reaches`), and so fills equally many
slots (`Between.card_lt`).
-/

namespace ArenaLisp

/-- How the cells and atoms of one machine are named in another. -/
structure Renaming where
  cell : CellId → CellId → Prop
  atom : AtomId → AtomId → Prop

namespace Renaming

/-- Values that correspond. -/
inductive Rel (ρ : Renaming) : Value → Value → Prop
  | nil : Rel ρ .nil .nil
  | atom {i i' : AtomId} (h : ρ.atom i i') : Rel ρ (.atom i) (.atom i')
  | pair {x x' : CellId} (h : ρ.cell x x') : Rel ρ (.pair x) (.pair x')
  | builtin (b : Builtin) : Rel ρ (.builtin b) (.builtin b)

/-- Pinned values that correspond: they do as values, or both are poison, which leads nowhere. -/
def Rooted (ρ : Renaming) (v v' : Value) : Prop := ρ.Rel v v' ∨ v = .poison ∧ v' = .poison

/-- A renaming of atoms that can be used: it is one to one, and the fixed atoms and the poison keep
their names. -/
structure Lawful (ρ : Renaming) : Prop where
  atom_inj : ∀ {i i' j j'}, ρ.atom i i' → ρ.atom j j' → (i = j ↔ i' = j')
  fixed : ∀ {i : AtomId}, i.index ≤ 10 → ρ.atom i i
  poison : ∀ {i i'}, ρ.atom i i' → (Value.atom i = .poison ↔ Value.atom i' = .poison)

/-- Whether no atom that corresponds to another tells `i` from `i'`. -/
def Alike (ρ : Renaming) (i i' : AtomId) : Prop := ∀ j j', ρ.atom j j' → (j = i ↔ j' = i')

/-- A one to one renaming of cells in use that leads from slots to slots that correspond. -/
structure Between (ρ : Renaming) (a a' : Arena) : Prop where
  cell_inj : ∀ {x x' y y'}, ρ.cell x x' → ρ.cell y y' → (x = y ↔ x' = y')
  live_left : ∀ {x x'}, ρ.cell x x' → a.Live x
  live_right : ∀ {x x'}, ρ.cell x x' → a'.Live x'
  car : ∀ {x x'}, ρ.cell x x' → ρ.Rel (a.graph x).1 (a'.graph x').1
  cdr : ∀ {x x'}, ρ.cell x x' → ρ.Rel (a.graph x).2 (a'.graph x').2

/-- The renaming in the other direction. -/
def flip (ρ : Renaming) : Renaming := ⟨fun x x' => ρ.cell x' x, fun i i' => ρ.atom i' i⟩

variable {ρ ρ' : Renaming} {a a' : Arena} {v v' w w' : Value} {vs vs' : List Value}
  {x x' : CellId} {i j : AtomId}

theorem Rel.flip (h : ρ.Rel v v') : ρ.flip.Rel v' v := by
  cases h with
  | nil => exact .nil
  | atom h => exact .atom h
  | pair h => exact .pair h
  | builtin b => exact .builtin b

theorem Rel.mono (h : ρ.Rel v v')
    (hcell : ∀ x x', v = .pair x → v' = .pair x' → ρ.cell x x' → ρ'.cell x x')
    (hatom : ∀ i i', ρ.atom i i' → ρ'.atom i i') : ρ'.Rel v v' := by
  cases h with
  | nil => exact .nil
  | atom h => exact .atom (hatom _ _ h)
  | pair h => exact .pair (hcell _ _ rfl rfl h)
  | builtin b => exact .builtin b

theorem Rooted.flip (h : ρ.Rooted v v') : ρ.flip.Rooted v' v :=
  h.imp Rel.flip And.symm

theorem Rel.isNil (h : ρ.Rel v v') : v'.isNil = v.isNil := by
  cases h <;> rfl

theorem Rel.isAtom (h : ρ.Rel v v') : v'.isAtom = v.isAtom := by
  cases h <;> rfl

theorem Rel.cell (h : ρ.Rel (.pair x) (.pair x')) : ρ.cell x x' := by
  cases h with
  | pair h => exact h

theorem Rel.pair_left (h : ρ.Rel (.pair x) v') : ∃ x', v' = .pair x' ∧ ρ.cell x x' := by
  cases h with
  | pair h => exact ⟨_, rfl, h⟩

theorem Lawful.atom_eq_iff {k : AtomId} (h : ρ.Lawful) (hij : ρ.atom i j) (hk : k.index ≤ 10) :
    i = k ↔ j = k := h.atom_inj hij (h.fixed hk)

theorem Lawful.alike (h : ρ.Lawful) (hij : ρ.atom i j) : ρ.Alike i j :=
  fun _ _ hk => h.atom_inj hk hij

/-- Atoms that are told apart alike name the same builtin at top level. -/
theorem Lawful.ofAtom?_eq (h : ρ.Lawful) (hij : ρ.Alike i j) :
    Builtin.ofAtom? i = Builtin.ofAtom? j := by
  have hatom : ∀ b : Builtin, b.atom = i ↔ b.atom = j := by
    intro b
    refine hij _ _ (h.fixed ?_)
    cases b <;> decide
  refine Option.ext fun b => ?_
  constructor
  · intro hb
    rw [← (hatom b).mp (Builtin.ofAtom?_eq_some hb), Builtin.ofAtom?_atom]
  · intro hb
    rw [← (hatom b).mpr (Builtin.ofAtom?_eq_some hb), Builtin.ofAtom?_atom]

theorem Alike.eq_atom_iff (h : ρ.Alike i j) (hv : ρ.Rel v v') : v = .atom i ↔ v' = .atom j := by
  cases hv with
  | nil | pair _ | builtin _ => simp
  | atom hk =>
    rw [Value.atom.injEq, Value.atom.injEq]
    exact h _ _ hk

/-- A fixed atom is named by itself alone. -/
theorem Lawful.eq_fixed_iff (h : ρ.Lawful) (hv : ρ.Rel v v') (hi : i.index ≤ 10) :
    v = .atom i ↔ v' = .atom i := (h.alike (h.fixed hi)).eq_atom_iff hv

theorem Lawful.eq_poison_iff (h : ρ.Lawful) (hv : ρ.Rel v v') : v = .poison ↔ v' = .poison := by
  cases hv with
  | nil | pair _ | builtin _ => simp [Value.poison]
  | atom hi => exact h.poison hi

/-- Values that correspond are told apart alike. -/
theorem Lawful.eq_iff (h : ρ.Lawful) (hc : ρ.Between a a') (hv : ρ.Rel v v') (hw : ρ.Rel w w') :
    v = w ↔ v' = w' := by
  cases hv <;> cases hw <;> simp
  case atom.atom hi _ _ hj => exact h.atom_inj hi hj
  case pair.pair hx _ _ hy => exact hc.cell_inj hx hy

namespace Between

/-- More atoms may be related. -/
theorem mono (h : ρ.Between a a') (hcell : ρ'.cell = ρ.cell)
    (hatom : ∀ i i', ρ.atom i i' → ρ'.atom i i') : ρ'.Between a a' := by
  have hrel : ∀ {v v'}, ρ.Rel v v' → ρ'.Rel v v' :=
    fun hv => hv.mono (fun x x' _ _ hx => by rwa [hcell]) hatom
  refine ⟨?_, ?_, ?_, ?_, ?_⟩ <;> rw [hcell]
  · exact h.cell_inj
  · exact h.live_left
  · exact h.live_right
  · exact fun hx => hrel (h.car hx)
  · exact fun hx => hrel (h.cdr hx)

theorem flip (h : ρ.Between a a') : ρ.flip.Between a' a where
  cell_inj hx hy := (h.cell_inj hx hy).symm
  live_left hx := h.live_right hx
  live_right hx := h.live_left hx
  car hx := (h.car hx).flip
  cdr hx := (h.cdr hx).flip

theorem not_dangling (h : ρ.Between a a') (hv : ρ.Rel v v') : ¬ a.Dangling v := by
  rw [Arena.not_dangling_iff]
  rintro id rfl
  obtain ⟨x', -, hx⟩ := hv.pair_left
  exact h.live_left hx

theorem exists_cell_of_mem (hvs : List.Forall₂ ρ.Rooted vs vs') (hx : .pair x ∈ vs) :
    ∃ x', ρ.cell x x' ∧ .pair x' ∈ vs' := by
  induction hvs with
  | nil => simp at hx
  | @cons v v' vs vs' hv _ ih =>
    rcases List.mem_cons.mp hx with rfl | hx
    · rcases hv with hv | ⟨hv, -⟩
      · obtain ⟨x', rfl, hcell⟩ := hv.pair_left
        exact ⟨x', hcell, List.mem_cons_self⟩
      · simp [Value.poison] at hv
    · obtain ⟨x', hcell, hx'⟩ := ih hx
      exact ⟨x', hcell, List.mem_cons_of_mem _ hx'⟩

/-- What is reached on the left is named on the right, and reached there. -/
theorem reaches (h : ρ.Between a a') (hvs : List.Forall₂ ρ.Rooted vs vs')
    (hx : a.graph.Reaches vs x) : ∃ x', ρ.cell x x' ∧ a'.graph.Reaches vs' x' := by
  induction hx with
  | root hx =>
    obtain ⟨x', hcell, hx'⟩ := exists_cell_of_mem hvs hx
    exact ⟨x', hcell, .root hx'⟩
  | child _ hyz ih =>
    obtain ⟨y', hy, hreach⟩ := ih
    rcases hyz with hyz | hyz
    · obtain ⟨z', hz', hz⟩ := (hyz ▸ h.car hy).pair_left
      exact ⟨z', hz, .child hreach (.inl hz')⟩
    · obtain ⟨z', hz', hz⟩ := (hyz ▸ h.cdr hy).pair_left
      exact ⟨z', hz, .child hreach (.inr hz')⟩

/-- Cells that correspond are reached alike. -/
theorem reaches_right (h : ρ.Between a a') (hvs : List.Forall₂ ρ.Rooted vs vs') (hx : ρ.cell x x')
    (hr : a.graph.Reaches vs x) : a'.graph.Reaches vs' x' := by
  obtain ⟨y, hy, hreach⟩ := h.reaches hvs hr
  exact (h.cell_inj hx hy).mp rfl ▸ hreach

/-- What the right reaches fills no more slots than what the left reaches: if it fills every slot
below `n'`, and what the left reaches lies below `n` and leaves one slot out, then `n' < n`. -/
theorem card_lt (h : ρ.Between a a') (hvs : List.Forall₂ ρ.Rooted vs vs') {n n' : Nat}
    (hn : ∀ x, a.graph.Reaches vs x → x.toNat < n) {id : CellId} (hid : id.toNat < n)
    (hfresh : ¬ a.graph.Reaches vs id) (hn' : n' < 2 ^ 32)
    (hfull : ∀ k < n', a'.graph.Reaches vs' (.ofNat k)) : n' < n := by
  have hmate : ∀ k : Fin n', ∃ x, ρ.cell x (.ofNat k) ∧ a.graph.Reaches vs x := fun k =>
    h.flip.reaches (List.Forall₂.flip (hvs.imp fun _ _ hv => hv.flip)) (hfull k k.isLt)
  choose mate hcell hreach using hmate
  have hinj : Function.Injective fun k => (⟨(mate k).toNat, hn _ (hreach k)⟩ : Fin n) := by
    intro k l hkl
    have hmates : mate k = mate l := CellId.toNat_injective (Fin.mk.inj hkl)
    have hcells := (h.cell_inj (hcell k) (hcell l)).mp hmates
    have := congrArg CellId.toNat hcells
    rw [CellId.toNat_ofNat (by omega), CellId.toNat_ofNat (by omega)] at this
    exact Fin.ext this
  have hlt := Fintype.card_lt_of_injective_of_notMem _ hinj (b := ⟨id.toNat, hid⟩) ?_
  · simpa using hlt
  · rintro ⟨k, hk⟩
    exact hfresh (CellId.toNat_injective (Fin.mk.inj hk) ▸ hreach k)

end Between

end Renaming

end ArenaLisp
