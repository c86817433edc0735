import ArenaLisp.Proofs.Accepts
import ArenaLisp.Proofs.History

/-!
# What a text takes up

Reading an expression takes one cell for each pair of its tree (`parse_footprint`).  There is room for it
exactly if the cells that the root stack reaches leave so many of the arena; garbage and the list of freed
cells do not matter, since the arena is collected on the way where it has to be.  No such collection takes
a cell of what has been read so far, nor one that is pinned.
-/

namespace ArenaLisp

open ReadAction

variable {m m₂ : Machine} {e : SExpr} {n : Nat} {v w : Value} {a : Arena} {l : Lexicon} {id : CellId}

namespace Arena

/-- An immediate takes up no cell. -/
theorem ncard_reaches_of_isPair (h : v.isPair = false) :
    {x | a.graph.Reaches [v] x}.ncard = 0 := by
  have hempty : {x | a.graph.Reaches [v] x} = ∅ := by
    refine Set.eq_empty_of_forall_notMem fun x hx => Graph.reaches_nil (hx.through ?_)
    rintro y rfl
    cases h
  rw [hempty, Set.ncard_empty]

/-- What spells an expression takes up at most one cell for each of its pairs. -/
theorem Spells.ncard_le (h : a.Spells l v e) : {x | a.graph.Reaches [v] x}.ncard ≤ e.pairs := by
  induction h with
  | nil | name h =>
    rw [ncard_reaches_of_isPair rfl]
    exact Nat.zero_le _
  | @pair id x y e f hgraph _ _ ihe ihf =>
    have hsubset : {z | a.graph.Reaches [.pair id] z} ⊆
        insert id ({z | a.graph.Reaches [x] z} ∪ {z | a.graph.Reaches [y] z}) := by
      intro z hz
      have hcases := Graph.Reaches.of_pair hz
      rwa [hgraph] at hcases
    calc {z | a.graph.Reaches [.pair id] z}.ncard
        ≤ (insert id ({z | a.graph.Reaches [x] z} ∪ {z | a.graph.Reaches [y] z})).ncard :=
          Set.ncard_le_ncard hsubset
      _ ≤ ({z | a.graph.Reaches [x] z} ∪ {z | a.graph.Reaches [y] z}).ncard + 1 :=
          Set.ncard_insert_le id _
      _ ≤ {z | a.graph.Reaches [x] z}.ncard + {z | a.graph.Reaches [y] z}.ncard + 1 :=
          Nat.add_le_add_right (Set.ncard_union_le _ _) 1
      _ ≤ e.pairs + f.pairs + 1 := by omega
      _ = (SExpr.pair e f).pairs := rfl

end Arena

namespace Machine

/-- The number of cells that the root stack reaches, counted in the graph. -/
theorem Coherent.pinnedCount_eq (hm : m.Coherent) : m.pinnedCount = {x | m.Pinned x}.ncard :=
  hm.arena.reachCount_eq hm.roots

/-- If building an expression has taken a cell for each of its pairs, they are all new. -/
theorem Built.fresh (h : m₂.Built e (m.pinnedCount + e.pairs) v) (hm : m.Coherent)
    (hkeeps : m.Keeps m₂) :
    {x | m₂.arena.graph.Reaches [v] x}.ncard = e.pairs ∧
      ∀ x, m₂.arena.graph.Reaches [v] x → m₂.arena.Live x ∧ ¬ m.Pinned x := by
  have hroots : ∀ u ∈ v :: m₂.roots, ¬ m₂.arena.Dangling u :=
    List.forall_mem_cons.mpr ⟨h.not_dangling, hkeeps.coherent.roots⟩
  have hpinned : {x | m₂.Pinned x} = {x | m.Pinned x} := Set.ext fun x => hkeeps.pinned_iff
  have hunion : {x | m₂.arena.graph.Reaches (v :: m₂.roots) x} =
      {x | m₂.arena.graph.Reaches [v] x} ∪ {x | m.Pinned x} := by
    rw [← hpinned]
    exact Set.ext fun x => Graph.reaches_cons
  have hcount := h.reachCount
  rw [hkeeps.coherent.arena.reachCount_eq hroots, hunion, hm.pinnedCount_eq] at hcount
  -- the two sets are as large together as apart, so that they have nothing in common
  have hsum := Set.ncard_union_add_ncard_inter {x | m₂.arena.graph.Reaches [v] x} {x | m.Pinned x}
  have hle := h.spells.ncard_le
  refine ⟨by omega, fun x hx => ⟨?_, fun hpin => ?_⟩⟩
  · exact hkeeps.coherent.arena.live_of_reaches (by simpa using h.not_dangling) hx
  · have hdisjoint : {x | m₂.arena.graph.Reaches [v] x} ∩ {x | m.Pinned x} = ∅ :=
      (Set.ncard_eq_zero (Set.toFinite _)).mp (by omega)
    exact hdisjoint.subset ⟨hx, hpin⟩

end Machine

/-- Reading an expression takes exactly the cells of its tree.  It succeeds if and only if there is a cell
for each pair of the tree beside those that the root stack reaches, and otherwise it is out of memory.
The value that it gives spells the expression in cells that are allocated, one for each pair, none of
them pinned before; and what was pinned is as it was, however the reading ends. -/
theorem parse_footprint {text : String} {rest : List Char} (hm : m.Coherent)
    (hl : Lexicon.initial.Grows m.lexicon) (h : Grammar.Derives .expr text.toList e rest)
    (hend : rest.dropWhile isBlank = []) :
    ((∃ v m₂, (Action.parse text).run m = .ok v m₂) ↔
      {x | m.Pinned x}.ncard + e.pairs ≤ m.arena.capacity.toNat) ∧
    (m.arena.capacity.toNat < {x | m.Pinned x}.ncard + e.pairs →
      ∃ m₂, (Action.parse text).run m = .error (.failure .outOfMemory) m₂) ∧
    (∀ v m₂, (Action.parse text).run m = .ok v m₂ → m₂.arena.Spells m₂.lexicon v e ∧
      {x | m₂.arena.graph.Reaches [v] x}.ncard = e.pairs ∧
      ∀ x, m₂.arena.graph.Reaches [v] x → m₂.arena.Live x ∧ ¬ m.Pinned x) ∧
    m.Keeps (ending ((Action.parse text).run m)) := by
  have hspends := spends_parse_of_derives (E := fun _ => False) h hend hm hl.lookup?_quote rfl
  have hroom : ∀ {v m₂}, (Action.parse text).run m = .ok v m₂ →
      m.pinnedCount + e.pairs ≤ m.arena.capacity.toNat := fun hrun =>
    (hspends.of_ok hrun).2.2.le_capacity (hspends.of_ok hrun).1
  rw [← hm.pinnedCount_eq]
  refine ⟨⟨fun ⟨v, m₂, hrun⟩ => hroom hrun, fun hfits => ?_⟩, fun hfull => ?_, fun v m₂ hrun => ?_,
    hm.keeps_parse text⟩
  · obtain ⟨v, m₂, hrun, -⟩ := hspends.exists_ok hfits
    exact ⟨v, m₂, hrun⟩
  · cases hrun : (Action.parse text).run m with
    | ok v m₂ =>
      have hfits := hroom hrun
      omega
    | error err m₂ =>
      obtain ⟨rfl, -⟩ := (hspends.of_error hrun).resolve_left id
      exact ⟨m₂, rfl⟩
  · obtain ⟨hkeeps, -, hbuilt⟩ := hspends.of_ok hrun
    exact ⟨hbuilt.spells, hbuilt.fresh hm hkeeps⟩

/-- A machine with four cells: one is pinned, two are garbage that go round in a ring, and one has been
freed. -/
def ringMachine : Machine :=
  { Machine.new 4 none with
    arena := ⟨#[⟨.nil, .pair ⟨1⟩, false⟩, ⟨.pair ⟨0⟩, .nil, false⟩, ⟨.atom .t, .nil, false⟩, .free],
      [⟨3⟩], 4, ⟨0, 0⟩⟩
    roots := [.pair ⟨2⟩] }

/-- There is room for a quoted empty list in a list, which takes three cells, but the ring has to be
collected on the way; for one pair more there is no room. -/
theorem parse_footprint_ringMachine :
    (∃ v m₂, (Action.parse "('())").run ringMachine = .ok v m₂ ∧
      m₂.arena.tally.collections = 1 ∧ {x | m₂.arena.graph.Reaches [v] x}.ncard = 3 ∧
      m₂.arena.Spells m₂.lexicon v (.pair (SExpr.quote .nil) .nil)) ∧
    ∃ m₂, (Action.parse "('() t)").run ringMachine = .error (.failure .outOfMemory) m₂ := by
  have hquoted : ∀ rest, Grammar.Derives .expr ("'()".toList ++ rest) (SExpr.quote .nil) rest :=
    fun rest => .quote rfl (.list rfl (.close rfl))
  have hname : Grammar.Derives .expr " t)".toList (.ofName "t") [')'] :=
    .name (w := ['t']) rfl (by decide) (by simp [Grammar.AtDelimiter, isDelimiter])
  have hpinned : {x | ringMachine.Pinned x}.ncard = 1 := by
    rw [← Machine.Coherent.pinnedCount_eq (by decide)]
    decide +kernel
  have hone : Grammar.Derives .expr "('())".toList (.pair (SExpr.quote .nil) .nil) [] :=
    .list rfl (.more (hquoted [')']) (.close rfl))
  obtain ⟨hiff, -, hvalue, -⟩ := parse_footprint (m := ringMachine) (by decide) .refl hone rfl
  obtain ⟨v, m₂, hrun⟩ := hiff.mpr (by rw [hpinned]; decide)
  obtain ⟨hspells, hcount, -⟩ := hvalue v m₂ hrun
  have hcollected : (ending ((Action.parse "('())").run ringMachine)).arena.tally.collections = 1 := by
    decide +kernel
  rw [hrun] at hcollected
  have htwo : Grammar.Derives .expr "('() t)".toList (.pair (SExpr.quote .nil) (.pair (.ofName "t") .nil))
      [] := .list rfl (.more (hquoted [' ', 't', ')']) (.more hname (.close rfl)))
  obtain ⟨-, hfull, -⟩ := parse_footprint (m := ringMachine) (by decide) .refl htwo rfl
  exact ⟨⟨v, m₂, hrun, hcollected, hcount, hspells⟩, hfull (by rw [hpinned]; decide)⟩

end ArenaLisp
