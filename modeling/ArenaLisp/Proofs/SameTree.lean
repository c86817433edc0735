import ArenaLisp.Arena.SameTree
import ArenaLisp.Proofs.Lookup
import ArenaLisp.Proofs.Room
import ArenaLisp.Proofs.Tree

/-!
# Comparing trees in an arena

A value that unfolds cannot lead back to itself, so that on the way down its tree every pair lies in
another cell, and the tree is no deeper than there are cells (`Unfolds.depth_le_used`).  Hence the
comparison of two values comes to an end before it is cut off, and tells whether their trees are the
same (`sameTree_eq`).
-/

namespace ArenaLisp

/-- The number of pairs on the longest way down. -/
def Tree.depth : Tree → Nat
  | .nil | .atom _ | .builtin _ => 0
  | .pair car cdr => max car.depth cdr.depth + 1

theorem Tree.pair_beq (s₁ s₂ t₁ t₂ : Tree) :
    (Tree.pair s₁ s₂ == Tree.pair t₁ t₂) = (s₁ == t₁ && s₂ == t₂) := by
  rw [Bool.eq_iff_iff]
  simp

namespace Arena

variable {a : Arena} {v w x y : Value} {s t u : Tree} {id z : CellId}

namespace Unfolds

/-- What is reached from a value unfolds to a part of its tree. -/
theorem exists_of_reaches (h : a.Unfolds v t) (hz : a.graph.Reaches [v] z) :
    ∃ u, a.Unfolds (.pair z) u ∧ sizeOf u ≤ sizeOf t := by
  induction hz with
  | root hz =>
    obtain rfl := List.mem_singleton.mp hz
    exact ⟨t, h, Nat.le_refl _⟩
  | @child y z _ hyz ih =>
    obtain ⟨u, hu, hle⟩ := ih
    cases hu with
    | @pair _ c d s u hpair hc hd =>
      obtain ⟨hgraph, -, -⟩ := pair?_eq_some_iff.mp hpair
      rw [Graph.Child, hgraph] at hyz
      rw [Tree.pair.sizeOf_spec] at hle
      rcases hyz with rfl | rfl
      · exact ⟨s, hc, by omega⟩
      · exact ⟨u, hd, by omega⟩

/-- A cell is not reached from its own slots. -/
theorem not_reaches_slot (h : a.Unfolds (.pair id) t) (hx : a.Unfolds x s)
    (hlt : sizeOf s < sizeOf t) : ¬ a.graph.Reaches [x] id := by
  intro hr
  obtain ⟨u, hu, hle⟩ := hx.exists_of_reaches hr
  rw [h.unique hu] at hlt
  omega

/-- A tree is no deeper than there are cells in which its pairs lie. -/
theorem depth_le_ncard (h : a.Unfolds v t) : t.depth ≤ {z | a.graph.Reaches [v] z}.ncard := by
  induction h with
  | nil | atom _ | builtin _ => exact Nat.zero_le _
  | @pair id x y s t hpair hs ht ihs iht =>
    have hgraph := (pair?_eq_some_iff.mp hpair).1
    have hroot := a.graph.reaches_self id
    have hslot : ∀ c r, a.Unfolds c r → sizeOf r < sizeOf (Tree.pair s t) →
        ((a.graph id).1 = c ∨ (a.graph id).2 = c) →
        {z | a.graph.Reaches [c] z}.ncard < {z | a.graph.Reaches [.pair id] z}.ncard := by
      intro c r hr hlt hc
      refine Set.ncard_lt_ncard ⟨fun z hz => hz.of_slot hc, fun hsub => ?_⟩
      exact not_reaches_slot (.pair hpair hs ht) hr hlt (hsub hroot)
    have hx := hslot x s hs (by rw [Tree.pair.sizeOf_spec]; omega) (.inl (by rw [hgraph]))
    have hy := hslot y t ht (by rw [Tree.pair.sizeOf_spec]; omega) (.inr (by rw [hgraph]))
    rw [Tree.depth]
    omega

theorem depth_le_used (ha : a.Coherent) (h : a.Unfolds v t) : t.depth ≤ a.used := by
  have hused := ha.used_le_two_pow
  have hsub : {z | a.graph.Reaches [v] z} ⊆ ↑(CellId.below a.used) := by
    intro z hz
    obtain ⟨u, hu, -⟩ := h.exists_of_reaches hz
    cases hu with
    | pair hpair _ _ =>
      have hcell := (pair?_eq_some.mp hpair).1
      exact (CellId.mem_below hused).mpr (lt_used_of_car hcell)
  have hle := Set.ncard_le_ncard hsub
  rw [Set.ncard_coe_finset, CellId.card_below hused] at hle
  exact h.depth_le_ncard.trans hle

end Unfolds

/-- Two values that are not both pairs are compared at once. -/
theorem sameTreeWithin_of_isPair (hne : (v.isPair && w.isPair) = false) (n : Nat) :
    a.sameTreeWithin (n + 1) v w = .ok (v == w) := by
  cases v with
  | nil | atom _ | builtin _ => rfl
  | pair p =>
    cases w with
    | nil | atom _ | builtin _ => rfl
    | pair q => cases hne

/-- A comparison along paths that are longer than the tree is deep tells whether the trees are the
same. -/
theorem sameTreeWithin_eq (hv : a.Unfolds v s) (hw : a.Unfolds w t) {n : Nat} (hn : s.depth < n) :
    a.sameTreeWithin n v w = .ok (s == t) := by
  obtain ⟨n, rfl⟩ := Nat.exists_eq_add_of_le' (Nat.lt_of_le_of_lt (Nat.zero_le _) hn)
  induction s generalizing v w t n with
  | nil | atom _ | builtin _ =>
    have hpair : v.isPair = false := by
      cases hv
      rfl
    have hne : (v.isPair && w.isPair) = false := by rw [hpair, Bool.false_and]
    rw [sameTreeWithin_of_isPair hne, hv.beq_eq hw hne]
  | pair s₁ s₂ ih₁ ih₂ =>
    by_cases hne : (v.isPair && w.isPair) = false
    · rw [sameTreeWithin_of_isPair hne, hv.beq_eq hw hne]
    cases hv with
    | @pair p x y _ _ hp hx hy =>
    cases hw with
    | nil | atom _ | builtin _ => exact absurd rfl hne
    | @pair q x' y' t₁ t₂ hq hx' hy' =>
    obtain ⟨hcar, hcdr⟩ := pair?_eq_some.mp hp
    obtain ⟨hcar', hcdr'⟩ := pair?_eq_some.mp hq
    rw [Tree.depth] at hn
    obtain ⟨n, rfl⟩ := Nat.exists_eq_add_of_le' (show 1 ≤ n by omega)
    rw [sameTreeWithin]
    by_cases hpq : p = q
    · subst hpq
      rw [hp] at hq
      cases hq
      rw [if_pos rfl, Tree.pair_beq, hx.unique hx', hy.unique hy', beq_self_eq_true, beq_self_eq_true]
      rfl
    · rw [if_neg hpq, hcar, ok_bind, hcar', ok_bind, ih₁ hx hx' n (by omega), ok_bind, Tree.pair_beq]
      cases s₁ == t₁ with
      | false => rfl
      | true =>
        rw [if_pos rfl, hcdr, ok_bind, hcdr', ok_bind, ih₂ hy hy' n (by omega), Bool.true_and]

/-- The comparison of two values that unfold tells whether their trees are the same. -/
theorem sameTree_eq (ha : a.Coherent) (hv : a.Unfolds v s) (hw : a.Unfolds w t) :
    a.sameTree v w = .ok (s == t) := by
  have hdepth := hv.depth_le_used ha
  have hsquare := Nat.le_mul_self a.used
  exact sameTreeWithin_eq hv hw (by omega)

end Arena

end ArenaLisp
