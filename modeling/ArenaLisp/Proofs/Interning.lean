import ArenaLisp.Proofs.Names

/-!
# Interning is one to one

`l.internAll ss` interns the spellings `ss` one after the other.  From the initial lexicon on, and as
long as there are names for atoms, spellings and values correspond one to one, every call gives what
the lexicon gives for the spelling ever after, and the number of atoms counts the spellings that were
new (`internAll_one_to_one`).  The marker has a name but no spelling: its name may be interned like any
other.
-/

namespace ArenaLisp.Lexicon

/-- Interns spellings one after the other: the values that they are given, and the lexicon afterwards. -/
def internAll (l : Lexicon) : List String → List Value × Lexicon
  | [] => ([], l)
  | s :: ss => ((l.intern s).1 :: ((l.intern s).2.internAll ss).1, ((l.intern s).2.internAll ss).2)

/-- Whether a spelling has been met once `ss` have been interned. -/
def Met (ss : List String) (s : String) : Prop := s = nilName ∨ s ∈ fixedNames ∨ s ∈ ss

instance (ss : List String) : DecidablePred (Met ss) :=
  fun s => inferInstanceAs (Decidable (s = nilName ∨ s ∈ fixedNames ∨ s ∈ ss))

variable {l : Lexicon} {s t : String} {i : AtomId} {v : Value} {ss : List String}

/-! ### Single calls -/

/-- Interning adds its own spelling and changes no other. -/
theorem lookup?_intern_eq (l : Lexicon) (s t : String) :
    (l.intern s).2.lookup? t = if t = s then some (l.intern s).1 else l.lookup? t := by
  by_cases hts : t = s
  · subst hts
    rw [if_pos rfl, lookup?_intern]
  · rw [if_neg hts]
    cases hs : l.lookup? s with
    | some v => rw [intern_of_lookup?_eq_some hs]
    | none =>
      have hnil : s ≠ nilName := by
        rintro rfl
        simp at hs
      rw [intern_of_lookup?_eq_none hs, lookup?_add l hnil, if_neg hts]

/-- A spelling counts once, when it is new. -/
theorem count_intern (l : Lexicon) (s : String) :
    (l.intern s).2.count = l.count + if (l.lookup? s).isSome then 0 else 1 := by
  cases hs : l.lookup? s with
  | some v => simp [intern_of_lookup?_eq_some hs]
  | none => simp [intern_of_lookup?_eq_none hs]

/-- A spelling that has been met is given what it has. -/
theorem intern_fst_eq_iff (hs : (l.lookup? s).isSome) :
    (l.intern s).1 = v ↔ l.lookup? s = some v := by
  obtain ⟨w, hw⟩ := Option.isSome_iff_exists.mp hs
  rw [intern_of_lookup?_eq_some hw, hw, Option.some.injEq]

/-! ### What every lexicon has that comes from the initial one -/

namespace Grows

/-- As long as there are names for atoms, an atom leads back to its spelling. -/
theorem indexed (h : initial.Grows l) (hcount : l.count ≤ 2 ^ 32) : l.Indexed := by
  induction h with
  | refl => exact initial_proper.indexed
  | tail _ hstep ih =>
    obtain ⟨s, rfl⟩ := hstep
    exact (ih ((count_intern_le _ s).trans hcount)).intern s hcount

/-- As long as there are names for atoms, no spelling has the marker. -/
theorem lookup?_ne_marker (h : initial.Grows l) (hcount : l.count ≤ 2 ^ 32) (s : String) :
    l.lookup? s ≠ some (.atom .topLevel) := by
  induction h generalizing s with
  | refl => exact initial_proper.ne_marker
  | @tail l _ hgrows hstep ih =>
    obtain ⟨t, rfl⟩ := hstep
    have hlt : 10 < l.count := by
      have := Grows.count_le hgrows
      rw [count_initial] at this
      omega
    exact lookup?_intern_ne_marker (ih ((count_intern_le _ t).trans hcount)) hlt hcount s

/-- The name of the atom of a spelling is the spelling. -/
theorem name_eq (h : initial.Grows l) (hcount : l.count ≤ 2 ^ 32)
    (hs : l.lookup? s = some (.atom i)) : l.name i = s := by
  rw [name, Array.getD_eq_getD_getElem?, h.indexed hcount s i hs]
  rfl

/-- Spellings with the same value are the same. -/
theorem lookup?_injective (h : initial.Grows l) (hcount : l.count ≤ 2 ^ 32)
    (hs : l.lookup? s = some v) (ht : l.lookup? t = some v) : s = t := by
  have hnil : ∀ {u}, l.lookup? u = some .nil → u = nilName := by
    intro u hu
    by_contra hne
    rw [Lexicon.lookup?, if_neg hne, Option.map_eq_some_iff] at hu
    obtain ⟨j, -, hj⟩ := hu
    cases hj
  rcases l.intern_cases s with ⟨-, hv⟩ | ⟨-, i, hv⟩
  · rw [intern_of_lookup?_eq_some hs] at hv
    subst hv
    rw [hnil hs, hnil ht]
  · rw [intern_of_lookup?_eq_some hs] at hv
    subst hv
    rw [← h.name_eq hcount hs, ← h.name_eq hcount ht]

end Grows

/-! ### Sequences of calls -/

theorem grows_internAll (l : Lexicon) (ss : List String) : l.Grows (l.internAll ss).2 := by
  induction ss generalizing l with
  | nil => exact .refl
  | cons s ss ih => exact .head ⟨s, rfl⟩ (ih _)

/-- Every call gives what the lexicon gives for its spelling ever after. -/
theorem internAll_fst (l : Lexicon) (ss : List String) :
    (l.internAll ss).1 = ss.map fun s => ((l.internAll ss).2.intern s).1 := by
  induction ss generalizing l with
  | nil => rfl
  | cons s ss ih =>
    have hfirst : (l.internAll (s :: ss)).2.lookup? s = some (l.intern s).1 :=
      (grows_internAll _ ss).lookup? (lookup?_intern l s)
    rw [List.map_cons, intern_of_lookup?_eq_some hfirst]
    exact congrArg _ (ih _)

/-- What is met in the end was met before or is among what was interned. -/
theorem isSome_lookup?_internAll : ((l.internAll ss).2.lookup? s).isSome ↔
    (l.lookup? s).isSome ∨ s ∈ ss := by
  induction ss generalizing l with
  | nil => simp [internAll]
  | cons t ss ih =>
    rw [internAll, ih, lookup?_intern_eq, List.mem_cons]
    by_cases hst : s = t
    · simp [hst]
    · simp [hst]

theorem isSome_lookup?_foldl_add (hss : ∀ t ∈ ss, t ≠ nilName) :
    ((ss.foldl add l).lookup? s).isSome ↔ (l.lookup? s).isSome ∨ s ∈ ss := by
  induction ss generalizing l with
  | nil => simp
  | cons t ss ih =>
    rw [List.foldl_cons, ih fun u hu => hss u (List.mem_cons_of_mem t hu),
      lookup?_add l (hss t List.mem_cons_self), List.mem_cons]
    by_cases hst : s = t
    · simp [hst]
    · simp [hst]

theorem isSome_lookup?_initial : (initial.lookup? s).isSome ↔ s = nilName ∨ s ∈ fixedNames := by
  show ((fixedNames.foldl add ⟨#[], ∅⟩).lookup? s).isSome ↔ _
  rw [isSome_lookup?_foldl_add (by decide)]
  simp [lookup?]

theorem isSome_lookup?_iff_met : ((initial.internAll ss).2.lookup? s).isSome ↔ Met ss s := by
  rw [isSome_lookup?_internAll, isSome_lookup?_initial, Met, or_assoc]

/-- What holds of a lexicon once `ss` have been interned. -/
structure OneToOne (l : Lexicon) (ss : List String) : Prop where
  /-- Different spellings have different values. -/
  intern_eq_iff : ∀ s t, Met ss s → Met ss t → ((l.intern s).1 = (l.intern t).1 ↔ s = t)
  /-- `nil` means the empty list, and nothing else does. -/
  intern_eq_nil_iff : ∀ s, (l.intern s).1 = .nil ↔ s = nilName
  /-- No spelling means the marker. -/
  intern_ne_marker : ∀ s, Met ss s → (l.intern s).1 ≠ .atom .topLevel
  /-- The atom of a spelling has it for its name. -/
  name_eq : ∀ s i, Met ss s → (l.intern s).1 = .atom i → l.name i = s
  /-- Every atom but the marker is that of its name. -/
  intern_name : ∀ i : AtomId, i.index.toNat < l.count → i ≠ .topLevel →
    Met ss (l.name i) ∧ (l.intern (l.name i)).1 = .atom i
  /-- A spelling is found just if it has been met, with the value that it would be given. -/
  lookup?_eq : ∀ s, l.lookup? s = if Met ss s then some (l.intern s).1 else none
  /-- The next call adds an atom just if its spelling is new. -/
  count_intern : ∀ s, (l.intern s).2.count = l.count + if Met ss s then 0 else 1

/-- In every sequence of calls during which there are names for atoms, each call gives the value that its
spelling still has at the end, and there spellings and values correspond one to one. -/
theorem internAll_one_to_one (ss : List String) (hcount : (initial.internAll ss).2.count ≤ 2 ^ 32) :
    (initial.internAll ss).1 = ss.map (fun s => ((initial.internAll ss).2.intern s).1) ∧
      (initial.internAll ss).2.OneToOne ss := by
  refine ⟨internAll_fst initial ss, ?_⟩
  have hmet : ∀ s, ((initial.internAll ss).2.lookup? s).isSome ↔ Met ss s :=
    fun s => isSome_lookup?_iff_met
  have hgrows : initial.Grows (initial.internAll ss).2 := grows_internAll initial ss
  -- from here on only the lexicon that the calls have left matters
  generalize (initial.internAll ss).2 = l at *
  have hfound : ∀ {s}, Met ss s → l.lookup? s = some (l.intern s).1 :=
    fun hs => (intern_fst_eq_iff ((hmet _).mpr hs)).mp rfl
  constructor
  case intern_eq_iff =>
    intro s t hs ht
    constructor
    · intro heq
      exact hgrows.lookup?_injective hcount (hfound hs) (heq ▸ hfound ht)
    · intro heq
      rw [heq]
  case intern_eq_nil_iff =>
    intro s
    rcases l.intern_cases s with ⟨hs, hv⟩ | ⟨hs, i, hv⟩
    · exact iff_of_true hv hs
    · exact iff_of_false (by rw [hv]; nofun) hs
  case intern_ne_marker =>
    intro s hs hmarker
    exact hgrows.lookup?_ne_marker hcount s (hmarker ▸ hfound hs)
  case name_eq =>
    intro s i hs hi
    exact hgrows.name_eq hcount (hi ▸ hfound hs)
  case intern_name =>
    intro i hi hne
    have hname : l.lookup? (l.name i) = some (.atom i) := hgrows.lookup?_name hi hne
    exact ⟨(hmet _).mp (by rw [hname]; rfl), by rw [intern_of_lookup?_eq_some hname]⟩
  case lookup?_eq =>
    intro s
    by_cases hs : Met ss s
    · rw [if_pos hs, hfound hs]
    · rw [if_neg hs, ← Option.not_isSome_iff_eq_none, hmet]
      exact hs
  case count_intern =>
    intro s
    rw [Lexicon.count_intern, if_congr (hmet s) rfl rfl]

/-- The printed form of the marker is a spelling like any other, and `nil` is none. -/
theorem internAll_one_to_one_topLevelName :
    (initial.internAll [topLevelName, "nil", "a", topLevelName, "t"]).1 =
      [.atom ⟨11⟩, .nil, .atom ⟨12⟩, .atom ⟨11⟩, .atom .t] ∧
    (initial.internAll [topLevelName, "nil", "a", topLevelName, "t"]).2.count = 13 ∧
    (initial.internAll [topLevelName, "nil", "a", topLevelName, "t"]).2.name ⟨11⟩ = topLevelName ∧
    ((initial.internAll [topLevelName, "nil", "a", topLevelName, "t"]).2.intern topLevelName).1 ≠
      .atom .topLevel := by
  have hrun : (initial.internAll [topLevelName, "nil", "a", topLevelName, "t"]).1 =
        [.atom ⟨11⟩, .nil, .atom ⟨12⟩, .atom ⟨11⟩, .atom .t] ∧
      (initial.internAll [topLevelName, "nil", "a", topLevelName, "t"]).2.count = 13 ∧
      ((initial.internAll [topLevelName, "nil", "a", topLevelName, "t"]).2.intern topLevelName).1 =
        .atom ⟨11⟩ := by
    simp [internAll, intern, lookup?, initial, fixedNames, add, nextId, count, nilName, topLevelName,
      AtomId.t, Std.HashMap.getElem_insert]
  obtain ⟨hvalues, hcount, hlast⟩ := hrun
  obtain ⟨-, h⟩ := internAll_one_to_one [topLevelName, "nil", "a", topLevelName, "t"]
    (by rw [hcount]; decide)
  exact ⟨hvalues, hcount, h.name_eq _ _ (by decide) hlast, h.intern_ne_marker _ (by decide)⟩

end ArenaLisp.Lexicon
