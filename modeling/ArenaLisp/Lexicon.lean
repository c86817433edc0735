import ArenaLisp.Value
import Std.Data.HashMap

/-!
# The lexicon: spellings and their atoms

Every spelling has one atom from the moment it is first met, except that `nil` spells the empty
list.  The names stand in the order in which they were met.  Behind those of the fixed atoms stands
the name of the top-level marker; it is not indexed, so that no spelling leads to the marker.
-/

namespace ArenaLisp

/-- The spellings met so far and the atom of each. -/
structure Lexicon where
  /-- The spelling of each atom, by its number. -/
  names : Array String
  /-- The atom of each spelling. -/
  ids : Std.HashMap String AtomId

namespace Lexicon

/-- The spelling of the empty list. -/
def nilName : String := "nil"

/-- The printed form of the top-level marker. -/
def topLevelName : String := "#<top-level>"

/-- The printed form of an atom number that is not in use. -/
def unknownName : String := "#<poison>"

/-- The spellings of the fixed atoms, in the order of their numbers. -/
def fixedNames : List String :=
  ["t", "closure", "quote", "cond", "lambda", "eq", "cons", "car", "cdr", "let"]

/-- The number of atoms. -/
def count (l : Lexicon) : Nat := l.names.size

/-- The spelling of an atom. -/
def name (l : Lexicon) (id : AtomId) : String := l.names.getD id.index.toNat unknownName

/-- The value that a spelling denotes, if it has been met. -/
def lookup? (l : Lexicon) (s : String) : Option Value :=
  if s = nilName then some .nil else l.ids[s]?.map .atom

/-- The atom that the next new spelling gets. -/
def nextId (l : Lexicon) : AtomId := ⟨UInt32.ofNat l.count⟩

/-- Adds a spelling that has not been met. -/
def add (l : Lexicon) (s : String) : Lexicon := ⟨l.names.push s, l.ids.insert s l.nextId⟩

/-- The value that a spelling denotes, and the lexicon in which it has been met. -/
def intern (l : Lexicon) (s : String) : Value × Lexicon :=
  match l.lookup? s with
  | some v => (v, l)
  | none => (.atom l.nextId, l.add s)

/-- The lexicon of the fixed atoms and the top-level marker. -/
def initial : Lexicon :=
  let l := fixedNames.foldl add ⟨#[], ∅⟩
  { l with names := l.names.push topLevelName }

/-! ### Laws of the operations -/

theorem count_initial : initial.count = 11 := rfl

@[simp] theorem count_add (l : Lexicon) (s : String) : (l.add s).count = l.count + 1 := by
  simp [add, count]

@[simp] theorem lookup?_nilName (l : Lexicon) : l.lookup? nilName = some .nil := by
  simp [lookup?]

theorem lookup?_add (l : Lexicon) {s : String} (hs : s ≠ nilName) (s' : String) :
    (l.add s).lookup? s' = if s' = s then some (.atom l.nextId) else l.lookup? s' := by
  by_cases h : s' = s
  · subst h
    simp [lookup?, add, hs]
  · simp [lookup?, add, h, Ne.symm h, Std.HashMap.getElem?_insert]

/-- A spelling that has been met leaves the lexicon as it is. -/
theorem intern_of_lookup?_eq_some {l : Lexicon} {s : String} {v : Value}
    (h : l.lookup? s = some v) : l.intern s = (v, l) := by
  simp [intern, h]

/-- A new spelling gets the next atom. -/
theorem intern_of_lookup?_eq_none {l : Lexicon} {s : String} (h : l.lookup? s = none) :
    l.intern s = (.atom l.nextId, l.add s) := by
  simp [intern, h]

/-- A spelling that has been interned is found, with the value it was given. -/
theorem lookup?_intern (l : Lexicon) (s : String) :
    (l.intern s).2.lookup? s = some (l.intern s).1 := by
  cases h : l.lookup? s with
  | some v => simp [intern_of_lookup?_eq_some h, h]
  | none =>
    have hs : s ≠ nilName := by
      rintro rfl
      simp at h
    simp [intern_of_lookup?_eq_none h, lookup?_add l hs]

end Lexicon

end ArenaLisp
