import ArenaLisp.Proofs.World
import Mathlib.Logic.Relation

/-!
# Atoms of the same spelling

The same spelling may have different atoms in two lexicons.  A lexicon is proper if its spellings and
its atoms correspond one to one, the fixed ones in their fixed places, and the poison is not among
them.  It is so from the beginning, and stays so as long as there are fewer than `0xCCCCCCCC` atoms
(`Proper.of_grows`).  A `Pairing` is a relation between the atoms of two lexicons that can be used for
a renaming and that interning on both sides keeps.
-/

namespace ArenaLisp

namespace Lexicon

variable {l l' l₂ : Lexicon} {s t : String} {v : Value} {i j i' j' : AtomId}

/-- Whether `l₂` comes from `l` by interning. -/
abbrev Grows : Lexicon → Lexicon → Prop := Relation.ReflTransGen fun l l₂ => ∃ s, l₂ = (l.intern s).2

/-- The number of atoms of which none is the poison. -/
def maxCount : Nat := 0xCCCCCCCC

theorem count_intern_le (l : Lexicon) (s : String) : l.count ≤ (l.intern s).2.count := by
  cases h : l.lookup? s with
  | some v => rw [intern_of_lookup?_eq_some h]
  | none =>
    rw [intern_of_lookup?_eq_none h, count_add]
    omega

theorem Grows.count_le (h : l.Grows l₂) : l.count ≤ l₂.count := by
  induction h with
  | refl => exact Nat.le_refl _
  | tail _ hstep ih =>
    obtain ⟨s, rfl⟩ := hstep
    exact ih.trans (count_intern_le _ s)

/-- A spelling that is met keeps its value. -/
theorem lookup?_intern_of_eq_some (h : l.lookup? t = some v) (s : String) :
    (l.intern s).2.lookup? t = some v := by
  cases hs : l.lookup? s with
  | some w =>
    rw [intern_of_lookup?_eq_some hs]
    exact h
  | none =>
    have hnil : s ≠ nilName := by
      rintro rfl
      simp at hs
    have hne : t ≠ s := by
      rintro rfl
      rw [h] at hs
      cases hs
    rw [intern_of_lookup?_eq_none hs, lookup?_add l hnil, if_neg hne, h]

/-- A spelling means the empty list or an atom. -/
theorem intern_cases (l : Lexicon) (s : String) :
    s = nilName ∧ (l.intern s).1 = .nil ∨ s ≠ nilName ∧ ∃ i, (l.intern s).1 = .atom i := by
  by_cases hs : s = nilName
  · subst hs
    exact .inl ⟨rfl, by rw [intern_of_lookup?_eq_some (lookup?_nilName l)]⟩
  · refine .inr ⟨hs, ?_⟩
    have h := lookup?_intern l s
    rw [lookup?, if_neg hs, Option.map_eq_some_iff] at h
    obtain ⟨i, -, hi⟩ := h
    exact ⟨i, hi.symm⟩

/-- Whether the atom that a spelling has leads back to the spelling. -/
def Indexed (l : Lexicon) : Prop :=
  ∀ s i, l.lookup? s = some (.atom i) → l.names[i.index.toNat]? = some s

theorem Indexed.add (h : l.Indexed) (hs : s ≠ nilName) (hcount : l.count < 2 ^ 32) :
    (l.add s).Indexed := by
  intro t i ht
  rw [lookup?_add l hs] at ht
  show (l.names.push s)[i.index.toNat]? = some t
  split at ht
  · rename_i heq
    subst heq
    cases ht
    have hindex : l.nextId.index.toNat = l.names.size := by
      show (UInt32.ofNat l.count).toNat = l.count
      rw [UInt32.toNat_ofNat']
      exact Nat.mod_eq_of_lt hcount
    rw [hindex]
    exact Array.getElem?_push_size
  · have hi := h t i ht
    obtain ⟨hlt, -⟩ := Array.getElem?_eq_some_iff.mp hi
    rw [Array.getElem?_push_lt hlt, ← Array.getElem?_eq_getElem hlt, hi]

theorem Indexed.intern (h : l.Indexed) (s : String) (hcount : (l.intern s).2.count ≤ 2 ^ 32) :
    (l.intern s).2.Indexed := by
  cases hs : l.lookup? s with
  | some v =>
    rw [intern_of_lookup?_eq_some hs]
    exact h
  | none =>
    have hnil : s ≠ nilName := by
      rintro rfl
      simp at hs
    rw [intern_of_lookup?_eq_none hs] at hcount ⊢
    rw [count_add] at hcount
    exact h.add hnil (by omega)

theorem Indexed.foldl_add (h : l.Indexed) {ss : List String} (hss : ∀ s ∈ ss, s ≠ nilName)
    (hcount : l.count + ss.length ≤ 2 ^ 32) : (ss.foldl Lexicon.add l).Indexed := by
  induction ss generalizing l with
  | nil => exact h
  | cons s ss ih =>
    rw [List.length_cons] at hcount
    refine ih (h.add (hss s List.mem_cons_self) (by omega))
      (fun t ht => hss t (List.mem_cons_of_mem _ ht)) ?_
    rw [count_add]
    omega

/-- As long as there are names for atoms, no spelling gets the marker. -/
theorem lookup?_intern_ne_marker (h : ∀ t, l.lookup? t ≠ some (.atom .topLevel)) (hlt : 10 < l.count)
    (hcount : (l.intern s).2.count ≤ 2 ^ 32) (t : String) :
    (l.intern s).2.lookup? t ≠ some (.atom .topLevel) := by
  cases hs : l.lookup? s with
  | some v =>
    rw [intern_of_lookup?_eq_some hs]
    exact h t
  | none =>
    have hnil : s ≠ nilName := by
      rintro rfl
      simp at hs
    rw [intern_of_lookup?_eq_none hs] at hcount ⊢
    rw [count_add] at hcount
    rw [lookup?_add l hnil]
    split
    · intro hmarker
      have hindex : (UInt32.ofNat l.count).toNat = 10 :=
        congrArg (fun i : AtomId => i.index.toNat) (Value.atom.inj (Option.some.inj hmarker))
      rw [UInt32.toNat_ofNat', Nat.mod_eq_of_lt (by omega)] at hindex
      omega
    · exact h t

/-- Interning leaves the names that are there. -/
theorem getElem?_names_intern {n : Nat} (h : l.names[n]? = some t) (s : String) :
    (l.intern s).2.names[n]? = some t := by
  cases hs : l.lookup? s with
  | some v =>
    rw [intern_of_lookup?_eq_some hs]
    exact h
  | none =>
    obtain ⟨hlt, -⟩ := Array.getElem?_eq_some_iff.mp h
    rw [intern_of_lookup?_eq_none hs]
    show (l.names.push s)[n]? = some t
    rw [Array.getElem?_push_lt hlt, ← Array.getElem?_eq_getElem hlt, h]

/-- A spelling keeps its value. -/
theorem Grows.lookup? (h : l.Grows l₂) (hs : l.lookup? s = some v) : l₂.lookup? s = some v := by
  induction h with
  | refl => exact hs
  | tail _ hstep ih =>
    obtain ⟨t, rfl⟩ := hstep
    exact lookup?_intern_of_eq_some ih t

/-- Whether every name but that of the marker leads to its atom. -/
def Covered (l : Lexicon) : Prop :=
  ∀ n < l.count, n ≠ 10 → l.lookup? (l.names.getD n unknownName) = some (.atom ⟨UInt32.ofNat n⟩)

theorem Covered.intern (h : l.Covered) (s : String) : (l.intern s).2.Covered := by
  cases hs : l.lookup? s with
  | some v =>
    rw [intern_of_lookup?_eq_some hs]
    exact h
  | none =>
    have hnil : s ≠ nilName := by
      rintro rfl
      simp at hs
    rw [intern_of_lookup?_eq_none hs]
    intro n hn hmarker
    rw [count_add] at hn
    show (l.add s).lookup? ((l.names.push s).getD n unknownName) = _
    rw [lookup?_add l hnil, Array.getD_eq_getD_getElem?, Array.getElem?_push]
    by_cases hlast : n = l.names.size
    · rw [if_pos hlast, Option.getD_some, if_pos rfl, hlast]
      rfl
    · have hold := h n (by show n < l.names.size; have : n < l.names.size + 1 := hn; omega) hmarker
      rw [Array.getD_eq_getD_getElem?] at hold
      rw [if_neg hlast, if_neg, hold]
      intro heq
      rw [heq, hs] at hold
      cases hold

/-- A lexicon in which spellings and atoms correspond one to one. -/
structure Proper (l : Lexicon) : Prop where
  fixed : ∀ i (h : i < fixedNames.length), l.lookup? fixedNames[i] = some (.atom ⟨UInt32.ofNat i⟩)
  indexed : l.Indexed
  ne_marker : ∀ {s}, l.lookup? s ≠ some (.atom .topLevel)
  marker : l.names[10]? = some topLevelName
  count_le : l.count ≤ maxCount

/-- The spellings that are met from the beginning. -/
theorem lookup?_initial (s : String) : initial.lookup? s =
    if s = "let" then some (.atom ⟨9⟩) else if s = "cdr" then some (.atom ⟨8⟩)
    else if s = "car" then some (.atom ⟨7⟩) else if s = "cons" then some (.atom ⟨6⟩)
    else if s = "eq" then some (.atom ⟨5⟩) else if s = "lambda" then some (.atom ⟨4⟩)
    else if s = "cond" then some (.atom ⟨3⟩) else if s = "quote" then some (.atom ⟨2⟩)
    else if s = "closure" then some (.atom ⟨1⟩) else if s = "t" then some (.atom ⟨0⟩)
    else if s = nilName then some .nil else none := by
  show (fixedNames.foldl add ⟨#[], ∅⟩).lookup? s = _
  unfold fixedNames
  simp only [List.foldl]
  iterate 10 rw [lookup?_add _ (by decide)]
  simp [lookup?]
  rfl

theorem initial_proper : initial.Proper := by
  -- the lexicon before the name of the marker is added
  have hindexed : (fixedNames.foldl add ⟨#[], ∅⟩).Indexed := by
    refine Indexed.foldl_add (fun s i h => ?_) (by decide) (by decide)
    rw [lookup?] at h
    split at h
    · cases h
    · simp at h
  have hfound : ∀ s i, initial.lookup? s = some (.atom i) →
      i.index.toNat < 10 ∧ initial.names[i.index.toNat]? = some s := by
    intro s i h
    have hi := hindexed s i h
    obtain ⟨hlt, -⟩ := Array.getElem?_eq_some_iff.mp hi
    refine ⟨hlt, ?_⟩
    show ((fixedNames.foldl add ⟨#[], ∅⟩).names.push topLevelName)[i.index.toNat]? = some s
    rw [Array.getElem?_push_lt hlt, ← Array.getElem?_eq_getElem hlt, hi]
  refine ⟨?_, fun s i h => (hfound s i h).2, fun h => ?_, rfl, ?_⟩
  · have hall : ∀ i : Fin fixedNames.length,
        initial.lookup? fixedNames[i] = some (.atom ⟨UInt32.ofNat i⟩) := by
      intro i
      rw [lookup?_initial]
      revert i
      decide
    exact fun i hi => hall ⟨i, hi⟩
  · exact absurd (hfound _ _ h).1 (by decide)
  · rw [count_initial]
    decide

theorem initial_covered : initial.Covered := by
  have hall : ∀ i : Fin 11, i.val ≠ 10 →
      initial.lookup? (initial.names.getD i unknownName) = some (.atom ⟨UInt32.ofNat i⟩) := by
    intro i
    rw [lookup?_initial]
    revert i
    decide
  exact fun n hn => hall ⟨n, hn⟩

namespace Grows

theorem covered (h : initial.Grows l) : l.Covered := by
  induction h with
  | refl => exact initial_covered
  | tail _ hstep ih =>
    obtain ⟨s, rfl⟩ := hstep
    exact ih.intern s

/-- The name of an atom leads to the atom. -/
theorem lookup?_name (h : initial.Grows l) (hi : i.index.toNat < l.count) (hne : i ≠ .topLevel) :
    l.lookup? (l.name i) = some (.atom i) := by
  have hmarker : i.index.toNat ≠ 10 := by
    intro heq
    exact hne (congrArg AtomId.mk (UInt32.toNat_inj.mp heq))
  have hname := h.covered _ hi hmarker
  rwa [UInt32.ofNat_toNat] at hname

theorem lookup?_quote (h : initial.Grows l) : l.lookup? "quote" = some (.atom .quote) :=
  h.lookup? (by rw [lookup?_initial]; rfl)

end Grows

namespace Proper

theorem lt_count (h : l.Proper) : 10 < l.count := (Array.getElem?_eq_some_iff.mp h.marker).1

theorem name_eq (h : l.Proper) (hs : l.lookup? s = some (.atom i)) : l.name i = s := by
  rw [name, Array.getD_eq_getD_getElem?, h.indexed s i hs]
  rfl

theorem ne_poison (h : l.Proper) (hs : l.lookup? s = some (.atom i)) : Value.atom i ≠ .poison := by
  rintro hp
  cases hp
  have hlt := (Array.getElem?_eq_some_iff.mp (h.indexed s _ hs)).1
  exact absurd (Nat.lt_of_lt_of_le hlt h.count_le) (Nat.lt_irrefl maxCount)

/-- Interning keeps a lexicon proper as long as there is a name for one more atom. -/
theorem intern (h : l.Proper) (s : String) (hcount : (l.intern s).2.count ≤ maxCount) :
    (l.intern s).2.Proper where
  fixed i hi := lookup?_intern_of_eq_some (h.fixed i hi) s
  indexed := h.indexed.intern s (hcount.trans (by decide))
  ne_marker := lookup?_intern_ne_marker (fun _ => h.ne_marker) h.lt_count
    (hcount.trans (by decide)) _
  marker := getElem?_names_intern h.marker s
  count_le := hcount

theorem of_grows (h : l.Proper) (hgrows : l.Grows l₂) (hcount : l₂.count ≤ maxCount) :
    l₂.Proper := by
  induction hgrows with
  | refl => exact h
  | tail _ hstep ih =>
    obtain ⟨s, rfl⟩ := hstep
    exact (ih ((count_intern_le _ s).trans hcount)).intern s hcount

end Proper

/-! ### Atoms that spell the same -/

/-- Atoms of the same spelling; the top-level marker, which has none, corresponds to itself. -/
def SpellAlike (l l' : Lexicon) (i i' : AtomId) : Prop :=
  i = .topLevel ∧ i' = .topLevel ∨ ∃ s, l.lookup? s = some (.atom i) ∧ l'.lookup? s = some (.atom i')

theorem SpellAlike.intern (h : SpellAlike l l' i i') (s : String) :
    SpellAlike (l.intern s).2 (l'.intern s).2 i i' := by
  rcases h with h | ⟨t, ht, ht'⟩
  · exact .inl h
  · exact .inr ⟨t, lookup?_intern_of_eq_some ht s, lookup?_intern_of_eq_some ht' s⟩

theorem SpellAlike.inj (hl : l.Proper) (hl' : l'.Proper) (h : SpellAlike l l' i i')
    (hj : SpellAlike l l' j j') : i = j ↔ i' = j' := by
  rcases h with ⟨rfl, rfl⟩ | ⟨s, hs, hs'⟩
  · rcases hj with ⟨rfl, rfl⟩ | ⟨t, ht, ht'⟩
    · exact iff_of_true rfl rfl
    · exact iff_of_false (fun heq => hl.ne_marker (heq ▸ ht)) fun heq => hl'.ne_marker (heq ▸ ht')
  · rcases hj with ⟨rfl, rfl⟩ | ⟨t, ht, ht'⟩
    · exact iff_of_false (fun heq => hl.ne_marker (heq ▸ hs)) fun heq => hl'.ne_marker (heq ▸ hs')
    · constructor
      · rintro rfl
        have hst : s = t := by rw [← hl.name_eq hs, ← hl.name_eq ht]
        rw [hst, ht'] at hs'
        exact (Value.atom.inj (Option.some.inj hs')).symm
      · rintro rfl
        have hst : s = t := by rw [← hl'.name_eq hs', ← hl'.name_eq ht']
        rw [hst, ht] at hs
        exact (Value.atom.inj (Option.some.inj hs)).symm

theorem SpellAlike.ne_poison (hl : l.Proper) (h : SpellAlike l l' i i') :
    Value.atom i ≠ .poison := by
  rcases h with ⟨rfl, -⟩ | ⟨s, hs, -⟩
  · decide
  · exact hl.ne_poison hs

theorem SpellAlike.symm (h : SpellAlike l l' i i') : SpellAlike l' l i' i :=
  h.imp And.symm fun ⟨s, hs, hs'⟩ => ⟨s, hs', hs⟩

theorem SpellAlike.name_eq (hl : l.Proper) (hl' : l'.Proper) (h : SpellAlike l l' i i') :
    l.name i = l'.name i' := by
  rcases h with ⟨rfl, rfl⟩ | ⟨s, hs, hs'⟩
  · rw [name, name, Array.getD_eq_getD_getElem?, Array.getD_eq_getD_getElem?]
    show (l.names[10]?).getD _ = (l'.names[10]?).getD _
    rw [hl.marker, hl'.marker]
  · rw [hl.name_eq hs, hl'.name_eq hs']

/-- The fixed atoms spell alike in all proper lexicons. -/
theorem spellAlike_fixed (hl : l.Proper) (hl' : l'.Proper) (hi : i.index ≤ 10) :
    SpellAlike l l' i i := by
  have hle : i.index.toNat ≤ 10 := UInt32.le_iff_toNat_le.mp hi
  have hi : i = ⟨UInt32.ofNat i.index.toNat⟩ := by rw [UInt32.ofNat_toNat]
  by_cases htop : i.index.toNat = 10
  · rw [htop] at hi
    exact .inl ⟨hi, hi⟩
  · have hlt : i.index.toNat < fixedNames.length := by
      have : fixedNames.length = 10 := rfl
      omega
    rw [hi]
    exact .inr ⟨_, hl.fixed _ hlt, hl'.fixed _ hlt⟩

end Lexicon

/-- A relation between the atoms of two lexicons that can be used for a renaming.  Interning keeps it
as long as the lexicons stay small enough. -/
structure Pairing (M : Mode) where
  rel : Lexicon → Lexicon → AtomId → AtomId → Prop
  Good : Lexicon → Lexicon → Prop
  Small : Lexicon → Prop
  lawful : ∀ {l l'}, Good l l' → ∀ cell, Renaming.Lawful ⟨cell, rel l l'⟩
  names : ∀ {l l'}, Good l l' → ∀ i i', rel l l' i i' → l.name i = l'.name i'
  clean : M.clean → ∀ {l l'}, Good l l' → ∀ i i', rel l l' i i' → Value.atom i ≠ .poison
  small_of_intern : ∀ {l : Lexicon} {s : String}, Small (l.intern s).2 → Small l
  good_intern : ∀ {l l' : Lexicon} {s : String}, Good l l' → Small (l.intern s).2 →
    Small (l'.intern s).2 → Good (l.intern s).2 (l'.intern s).2
  rel_intern : ∀ {l l' : Lexicon} (s : String) {i i'}, rel l l' i i' →
    rel (l.intern s).2 (l'.intern s).2 i i'
  value : ∀ {l l' : Lexicon} (s : String) (cell : CellId → CellId → Prop), Good l l' →
    Renaming.Rel ⟨cell, rel (l.intern s).2 (l'.intern s).2⟩ (l.intern s).1 (l'.intern s).1

namespace Pairing

variable {M : Mode}

/-- Two lexicons that are the same. -/
def same (hM : ¬ M.clean) : Pairing M where
  rel _ _ i i' := i = i'
  Good l l' := l = l'
  Small _ := True
  lawful _ _ := by
    refine ⟨?_, fun _ => rfl, ?_⟩
    · rintro i _ j _ rfl rfl
      rfl
    · rintro i _ rfl
      rfl
  names := by
    rintro l _ rfl i _ rfl
    rfl
  clean h := absurd h hM
  small_of_intern _ := trivial
  good_intern := by
    rintro l _ s rfl - -
    rfl
  rel_intern _ _ _ h := h
  value := by
    rintro l _ s cell rfl
    rcases l.intern_cases s with ⟨-, h⟩ | ⟨-, i, h⟩
    · rw [h]
      exact .nil
    · rw [h]
      exact .atom rfl

/-- Two proper lexicons, atoms of the same spelling being related. -/
def spelling (M : Mode) : Pairing M where
  rel := Lexicon.SpellAlike
  Good l l' := l.Proper ∧ l'.Proper
  Small l := l.count ≤ Lexicon.maxCount
  lawful h _ :=
    ⟨fun hi hj => hi.inj h.1 h.2 hj, fun hi => Lexicon.spellAlike_fixed h.1 h.2 hi,
      fun hi => iff_of_false (hi.ne_poison h.1) (hi.symm.ne_poison h.2)⟩
  names h _ _ hi := hi.name_eq h.1 h.2
  clean _ _ _ h _ _ hi := hi.ne_poison h.1
  small_of_intern h := (Lexicon.count_intern_le _ _).trans h
  good_intern h hs hs' := ⟨h.1.intern _ hs, h.2.intern _ hs'⟩
  rel_intern s _ _ hi := hi.intern s
  value := by
    intro l l' s cell _
    rcases l.intern_cases s with ⟨hs, h⟩ | ⟨hs, i, h⟩ <;>
      rcases l'.intern_cases s with ⟨hs', h'⟩ | ⟨hs', i', h'⟩
    · rw [h, h']
      exact .nil
    · exact absurd hs hs'
    · exact absurd hs' hs
    · have hi := l.lookup?_intern s
      have hi' := l'.lookup?_intern s
      rw [h] at hi ⊢
      rw [h'] at hi' ⊢
      exact .atom (.inr ⟨s, hi, hi'⟩)

end Pairing

end ArenaLisp
