import ArenaLisp.Proofs.Completes
import ArenaLisp.Proofs.SameTree

/-!
# Arenas without a cycle

A new pair leads to pairs that were there before it, and a cell is only used again when nothing leads to
it.  So the cells in use never form a cycle, although their numbers tell nothing of their age
(`Acyclic.fill`, `Acyclic.grow`, `Acyclic.collect`).  A slot of a pair then reaches fewer cells than the
pair (`Acyclic.reachCount_slot_lt`), so that whatever goes down from a pair comes to an end: a walk
along a list, the search for a name and the comparison of trees.
-/

namespace ArenaLisp.Arena

/-- Whether the cells in use do not lead round in a cycle: there is no infinite way down. -/
def Acyclic (a : Arena) : Prop := WellFounded fun y x => a.Live x ∧ a.graph.Child x y

/-- Whether a list has at most so many pairs, whatever it ends in. -/
def Short (a : Arena) : Nat → Value → Prop
  | 0, .pair _ => False
  | n + 1, .pair id => a.Short n (a.graph id).2
  | _, _ => True

variable {a a' : Arena} {v w car cdr : Value} {id x y z : CellId} {free : List CellId}
  {roots : List Value}

theorem Short.transfer {n : Nat} (h : a.Short n v) (hagree : a.AgreeOn a' v) : a'.Short n v := by
  induction n generalizing v with
  | zero => cases v <;> exact h
  | succ n ih =>
    cases v with
    | nil | atom _ | builtin _ => trivial
    | pair id =>
      show a'.Short n (a'.graph id).2
      rw [hagree.graph]
      exact ih h hagree.cdr

/-! ### The routes of an allocation -/

theorem acyclic_empty (capacity : UInt32) : (Arena.empty capacity).Acyclic :=
  ⟨fun x => .intro x fun _ ⟨hx, _⟩ => absurd hx.1 (Nat.not_lt_zero _)⟩

namespace Acyclic

section Routes

variable (ha : a.Coherent) (h : a.Acyclic)
include ha h

/-- Cells that were in use and keep their children, and new ones whose children were in use, form no
cycle. -/
theorem extend
    (hold : ∀ x y, a.Live x → a'.Live x → a'.graph.Child x y → a.graph.Child x y)
    (hnew : ∀ x y, ¬ a.Live x → a'.Live x → a'.graph.Child x y → a.Live y) : a'.Acyclic := by
  have hacc : ∀ x, a.Live x → Acc (fun y x => a'.Live x ∧ a'.graph.Child x y) x := by
    intro x
    induction x using h.induction with
    | _ x ih =>
      refine fun hx => .intro x fun y ⟨hx', hxy⟩ => ?_
      have hxy := hold x y hx hx' hxy
      exact ih y ⟨hx, hxy⟩ (ha.live_of_child hx hxy)
  refine ⟨fun x => ?_⟩
  by_cases hx : a.Live x
  · exact hacc x hx
  · exact .intro x fun y ⟨hx', hxy⟩ => hacc y (hnew x y hx hx' hxy)

theorem fill (hfree : a.free = id :: free) (hcar : ¬ a.Dangling car) (hcdr : ¬ a.Dangling cdr) :
    (a.fill id free car cdr).Acyclic := by
  have hid := ha.free_lt id (by simp [hfree])
  refine h.extend ha (fun z u hz _ hzu => ?_) fun z u hz hz' hzu => ?_
  · rw [Graph.Child, graph_fill hid, if_neg] at hzu
    · exact hzu
    · rintro rfl
      exact hz.2 (by simp [hfree])
  · obtain rfl := ((live_fill ha hfree).mp hz').resolve_left hz
    rw [Graph.Child, graph_fill hid, if_pos rfl] at hzu
    rcases hzu with hu | hu
    · exact not_dangling_iff.mp hcar u hu
    · exact not_dangling_iff.mp hcdr u hu

theorem grow (hcar : ¬ a.Dangling car) (hcdr : ¬ a.Dangling cdr) : (a.grow car cdr).Acyclic := by
  refine h.extend ha (fun z u hz _ hzu => ?_) fun z u hz hz' hzu => ?_
  · rwa [Graph.Child, graph_grow, if_neg (Nat.ne_of_lt hz.1)] at hzu
  · rw [Graph.Child, graph_grow, if_pos (((live_grow ha).mp hz').resolve_left hz)] at hzu
    rcases hzu with hu | hu
    · exact not_dangling_iff.mp hcar u hu
    · exact not_dangling_iff.mp hcdr u hu

theorem collect (hroots : ∀ v ∈ roots, ¬ a.Dangling v) : (a.collect roots).Acyclic := by
  refine h.extend ha (fun z u _ hz' hzu => ?_) fun z u hz hz' _ => ?_
  · obtain ⟨hlt, hreach⟩ := (live_collect ha).mp hz'
    rwa [Graph.Child, graph_collect_of_reaches hreach hlt] at hzu
  · exact absurd (ha.live_of_reaches hroots ((live_collect ha).mp hz').2) hz

end Routes

end Acyclic

/-! ### The way down -/

theorem Coherent.not_dangling_slot (ha : a.Coherent) (hx : a.Live x)
    (hv : (a.graph x).1 = v ∨ (a.graph x).2 = v) : ¬ a.Dangling v := by
  obtain ⟨hcar, hcdr⟩ := ha.not_dangling x hx
  rcases hv with rfl | rfl
  · exact hcar
  · exact hcdr

theorem reachCount_le_used {vs : List Value} : a.reachCount vs ≤ a.used :=
  (Nat.sub_le _ _).trans_eq used_collect

namespace Acyclic

variable (ha : a.Coherent) (h : a.Acyclic)
include ha h

/-- A cell is not reached from its own slots. -/
theorem not_reaches_slot (hx : a.Live x) (hv : (a.graph x).1 = v ∨ (a.graph x).2 = v) :
    ¬ a.graph.Reaches [v] x := by
  have hlive : ∀ u ∈ [v], ¬ a.Dangling u := fun u hu =>
    List.mem_singleton.mp hu ▸ ha.not_dangling_slot hx hv
  have hbelow : ∀ z, a.graph.Reaches [v] z →
      Relation.TransGen (fun y x => a.Live x ∧ a.graph.Child x y) z x := by
    intro z hz
    induction hz with
    | root hz =>
      obtain rfl := List.mem_singleton.mp hz
      exact .single ⟨hx, hv⟩
    | child hy hyz ih => exact .head ⟨ha.live_of_reaches hlive hy, hyz⟩ ih
  intro hx
  exact h.transGen.asymmetric x x (hbelow x hx) (hbelow x hx)

/-- A slot reaches fewer cells than its pair. -/
theorem reachCount_slot_lt (hx : a.Live x) (hv : (a.graph x).1 = v ∨ (a.graph x).2 = v) :
    ¬ a.Dangling v ∧ a.reachCount [v] < a.reachCount [.pair x] := by
  have hvd := ha.not_dangling_slot hx hv
  refine ⟨hvd, ?_⟩
  have hroot := a.graph.reaches_self x
  rw [ha.reachCount_eq fun u hu => List.mem_singleton.mp hu ▸ hvd,
    ha.reachCount_eq fun u hu => List.mem_singleton.mp hu ▸ not_dangling_pair.mpr hx]
  exact Set.ncard_lt_ncard
    ⟨fun z hz => hz.of_slot hv, fun hsub => h.not_reaches_slot ha hx hv (hsub hroot)⟩

theorem reachCount_cdr_lt (hx : ¬ a.Dangling (.pair x)) (hcdr : a.cdr x = .ok v) :
    ¬ a.Dangling v ∧ a.reachCount [v] < a.reachCount [.pair x] :=
  h.reachCount_slot_lt ha (not_dangling_pair.mp hx) (.inr (graph_snd_of_cdr hcdr))

/-- A list is no longer than the number of cells it reaches. -/
theorem short {n : Nat} (hv : ¬ a.Dangling v) (hn : a.reachCount [v] ≤ n) : a.Short n v := by
  induction n generalizing v with
  | zero =>
    cases v with
    | nil | atom _ | builtin _ => trivial
    | pair x =>
      have hlt := (h.reachCount_slot_lt ha (not_dangling_pair.mp hv) (.inr rfl)).2
      omega
  | succ n ih =>
    cases v with
    | nil | atom _ | builtin _ => trivial
    | pair x =>
      obtain ⟨hnext, hlt⟩ := h.reachCount_slot_lt ha (not_dangling_pair.mp hv) (.inr rfl)
      exact ih hnext (by omega)

/-- The search for a name ends within as many links as there are cells. -/
theorem settles {n : Nat} (ident : AtomId) (hv : ¬ a.Dangling v) (hn : a.reachCount [v] < n) :
    Scope.Settles a ident n v := by
  induction n generalizing v with
  | zero => omega
  | succ n ih =>
    cases v with
    | nil | atom _ | builtin _ => exact Scope.settles_of_not_pair nofun
    | pair link =>
      rcases Scope.lookupWithin_pair_cases a ident link with ⟨r, hr, hdecides⟩ | ⟨-, next, hcdr, hnext⟩
      · rw [Scope.Settles, hdecides]
        exact hr
      · obtain ⟨hdangling, hlt⟩ := h.reachCount_cdr_lt ha hv hcdr
        rw [Scope.Settles, hnext]
        exact ih hdangling (by omega)

/-- No search for a name is cut off. -/
theorem lookup_completes {scope : Scope} (ident : AtomId) (hv : ¬ a.Dangling scope.value) :
    Completes (scope.lookup a ident) :=
  h.settles ha ident hv (Nat.lt_succ_of_le reachCount_le_used)

end Acyclic

end ArenaLisp.Arena
