import ArenaLisp.Proofs.Accepts
import ArenaLisp.Proofs.Printed
import ArenaLisp.Proofs.SameTree

/-!
# Printing and reading back

A readable tree that is pinned prints as a text that reads back as the same tree, if nothing of it is
cut off; if something is, the text cannot be read.  It never reads back as another tree, whatever room
there is (`parse_render`).  Every tree that the reader builds is readable (`Derives.readable`).
-/

namespace ArenaLisp

open Grammar

variable {m m₂ : Machine} {l : Lexicon} {v w : Value} {t : Tree} {e : SExpr} {n : Nat}

/-- An atom of which the name can be read is readable. -/
theorem Tree.readable_atom {s : String} {i : AtomId} (hl : l.Proper)
    (hi : l.lookup? s = some (.atom i)) (hs : IsName s.toList) : (Tree.atom i).Readable l := by
  have hlt := (Array.getElem?_eq_some_iff.mp (hl.indexed s i hi)).1
  refine ⟨hlt, fun htop => hl.ne_marker (htop ▸ hi), ?_⟩
  rwa [hl.name_eq hi]

/-- What an expression denotes is readable. -/
theorem Grammar.Derives.readable {p : Part} {cs rest : List Char} (h : Derives p cs e rest)
    (hl : l.Proper) (ht : l.Denotes e t) : t.Readable l := by
  induction h generalizing t with
  | @name cs w rest _ hw _ =>
    rw [SExpr.ofName] at ht
    split at ht
    · cases ht
      trivial
    · cases ht with
      | name hi => exact Tree.readable_atom hl hi (by rwa [String.toList_ofList])
  | quote _ _ ih =>
    cases ht with
    | pair hquote hlist =>
      cases hquote with
      | name hi =>
        cases hlist with
        | pair he hnil =>
          cases hnil
          exact ⟨Tree.readable_atom hl hi (by decide), ih he, trivial⟩
  | list _ _ ih => exact ih ht
  | close _ =>
    cases ht
    trivial
  | more _ _ ihe iht | dotted _ _ _ _ ihe iht =>
    cases ht with
    | pair he hf => exact ⟨ihe he, iht hf⟩

/-- What spells an expression unfolds to a tree that the expression denotes, if another value unfolds to
that tree. -/
theorem Arena.Spells.unfolds_of {a a' : Arena} (h : a.Spells l v e) (ht : l.Denotes e t)
    (hw : a'.Unfolds w t) : a.Unfolds v t := by
  induction h generalizing t w with
  | nil =>
    cases ht
    exact .nil
  | name h =>
    cases ht with
    | name h' =>
      rw [h] at h'
      cases h'
      cases hw with
      | atom hi => exact .atom hi
  | pair hgraph _ _ ihe ihf =>
    cases ht with
    | pair he hf =>
      cases hw with
      | pair _ hs hu =>
        have hx := ihe he hs
        have hy := ihf hf hu
        exact .pair (pair?_eq_some_iff.mpr ⟨hgraph, hx.ne_poison, hy.ne_poison⟩) hx hy

theorem Machine.Built.shows (h : m₂.Built e n w) (ht : m₂.lexicon.Denotes e t)
    (hv : m.Secures v t) : m₂.Shows w t :=
  ⟨h.not_dangling, h.spells.unfolds_of ht hv.2⟩

/-! ### The printed text, read -/

section Reading

variable {depth : Nat} (hm : m.Coherent) (hl : Lexicon.initial.Grows m.lexicon)
  (ht : t.Readable m.lexicon)
include hm hl ht

/-- The text of a tree that fits reads back as the tree, with one cell for each pair. -/
theorem spends_parse_of_fits (hv : m.Secures v t) (hfits : t.Fits depth) {E : Stop → Prop} :
    Spends (m.pinnedCount + t.pairs) m
      (Action.parse (String.ofList (t.text m.lexicon depth []))) (fun m₂ w => m₂.Shows w t) E := by
  obtain ⟨e, he, hdenotes⟩ := (faithful_text hl depth).derives t [] ht hfits nofun
  refine (ReadAction.spends_parse_of_derives (by rwa [String.toList_ofList]) rfl hm hl.lookup?_quote
    rfl).mono (by rw [hdenotes.pairs_eq]) fun m₂ w _ hreads hw => ?_
  exact hw.shows (hdenotes.grows hreads) hv

/-- The text of a tree that does not fit cannot be read. -/
theorem spends_parse_of_not_fits (hfits : ¬ t.Fits depth) :
    Spends (m.pinnedCount + t.pairs) m
      (Action.parse (String.ofList (t.text m.lexicon depth []))) (fun _ _ => False)
      fun err => ∃ o n, err = .failure (.unreadable (.blocked o n)) := by
  have htext := faithful_text hl depth
  obtain ⟨o, left, n, hblocks, hn⟩ := htext.blocks t [] ht hfits
  obtain ⟨x, r, hr, -⟩ := htext.head t [] ht
  have hcons : (String.ofList (t.text m.lexicon depth [])).toList.dropWhile isBlank ≠ [] := by
    rw [String.toList_ofList, hr]
    exact List.cons_ne_nil x r
  have hspends := ReadAction.spends_parse_of_blocks (by rwa [String.toList_ofList]) hcons hm
    hl.lookup?_quote
  exact (hspends.mono (Nat.add_le_add_left hn _) fun _ _ _ _ h => h).mono_stop
    fun err herr => ⟨o, _, herr⟩

end Reading

/-- A tree that the reader gives is readable. -/
theorem readable_of_run_read {c d : Cursor} (hm : m.Coherent)
    (hl : Lexicon.initial.Grows m.lexicon)
    (hrun : ReadAction.read.run ⟨m, c⟩ = .ok (some v) ⟨m₂, d⟩)
    (hcount : m₂.lexicon.count ≤ Lexicon.maxCount) :
    ∃ t, m₂.Shows v t ∧ t.Readable m₂.lexicon := by
  obtain ⟨e, he, hreads, hshows⟩ := ReadAction.derives_of_run_read hm hl hrun
  obtain ⟨t, ht, hdenotes, -⟩ := hshows hcount
  have hproper := Lexicon.initial_proper.of_grows (hl.trans hreads) hcount
  exact ⟨t, ht, he.readable hproper hdenotes⟩

/-- A readable tree that is pinned has a printed text, and the text never reads back as another tree.
If there is room for the tree a second time, it reads back as the tree where nothing of it is cut off,
and cannot be read where something is.  Every tree that the reader gives is readable. -/
theorem parse_render (hm : m.Coherent) (hl : Lexicon.initial.Grows m.lexicon) :
    (∀ v t, m.Secures v t → t.Readable m.lexicon → ∃ text, m.render v = .ok text ∧
      (∀ w m₂, (Action.parse text).run m = .ok w m₂ →
        m₂.Shows w t ∧ m₂.arena.sameTree w v = .ok true) ∧
      (m.pinnedCount + t.pairs ≤ m.arena.capacity.toNat →
        if t.height ≤ Render.maxDepth ∧ t.width ≤ Render.maxTail + 1 then
          ∃ w m₂, (Action.parse text).run m = .ok w m₂
        else ∃ o n m₂, (Action.parse text).run m =
          .error (.failure (.unreadable (.blocked o n))) m₂)) ∧
    ∀ c v m₂ d, ReadAction.read.run ⟨m, c⟩ = .ok (some v) ⟨m₂, d⟩ →
      m₂.lexicon.count ≤ Lexicon.maxCount → ∃ t, m₂.Shows v t ∧ t.Readable m₂.lexicon := by
  refine ⟨fun v t hv ht => ?_, fun c v m₂ d hrun hcount => readable_of_run_read hm hl hrun hcount⟩
  -- the printer shows one level more than its greatest depth
  have hfits_iff : t.height ≤ Render.maxDepth ∧ t.width ≤ Render.maxTail + 1 ↔
      t.Fits (Render.maxDepth + 1) := by
    rw [Tree.Fits, Nat.lt_succ_iff]
  refine ⟨t.render m.lexicon, Machine.render_eq_ok hv.2, ?_⟩
  rw [if_congr hfits_iff rfl rfl]
  by_cases hfits : t.Fits (Render.maxDepth + 1)
  · have hspends : Spends _ m (Action.parse (t.render m.lexicon)) (fun m₂ w => m₂.Shows w t)
        fun _ => False := spends_parse_of_fits hm hl ht hv hfits
    refine ⟨fun w m₂ hrun => ?_, fun hroom => ?_⟩
    · obtain ⟨hkeeps, -, hw⟩ := hspends.of_ok hrun
      have hsame := Arena.sameTree_eq hkeeps.coherent.arena hw.2 (hv.keeps hkeeps).2
      rw [beq_self_eq_true] at hsame
      exact ⟨hw, hsame⟩
    · rw [if_pos hfits]
      obtain ⟨w, m₂, hrun, -⟩ := hspends.exists_ok hroom
      exact ⟨w, m₂, hrun⟩
  · have hspends : Spends _ m (Action.parse (t.render m.lexicon)) (fun _ _ => False)
        fun err => ∃ o n, err = .failure (.unreadable (.blocked o n)) :=
      spends_parse_of_not_fits hm hl ht hfits
    refine ⟨fun w m₂ hrun => (hspends.of_ok hrun).2.2.elim, fun hroom => ?_⟩
    rw [if_neg hfits]
    obtain ⟨err, m₂, hrun, ⟨o, n, rfl⟩ | ⟨-, hlt⟩⟩ := hspends.exists_error
    · exact ⟨o, n, m₂, hrun⟩
    · omega

/-- A machine with four cells, in two of which `(quote t)` is pinned. -/
def pinnedQuote : Machine :=
  { Machine.new 4 none with
    arena := ⟨#[⟨.atom .quote, .pair ⟨1⟩, false⟩, ⟨.atom .t, .nil, false⟩], [], 4, ⟨0, 0⟩⟩
    roots := [.pair ⟨0⟩] }

/-- The pinned tree prints in quote notation and is read back into the cells that are left. -/
theorem parse_render_pinnedQuote : ∃ w m₂,
    pinnedQuote.render (.pair ⟨0⟩) = .ok "\x27t" ∧
      (Action.parse "\x27t").run pinnedQuote = .ok w m₂ ∧
      m₂.arena.sameTree w (.pair ⟨0⟩) = .ok true := by
  have hsecures : pinnedQuote.Secures (.pair ⟨0⟩) (.pair (.atom .quote) (.pair (.atom .t) .nil)) := by
    refine ⟨fun id hid => .root (List.mem_singleton.mpr hid.symm), ?_⟩
    exact .pair rfl (.atom (by decide)) (.pair rfl (.atom (by decide)) .nil)
  have hreadable : Tree.Readable pinnedQuote.lexicon
      (.pair (.atom .quote) (.pair (.atom .t) .nil)) :=
    ⟨⟨by decide, by decide, by decide⟩, ⟨by decide, by decide, by decide⟩, trivial⟩
  obtain ⟨text, hrender, hsame, hroom⟩ :=
    (parse_render (m := pinnedQuote) (by decide) .refl).1 _ _ hsecures hreadable
  have htext : pinnedQuote.render (.pair ⟨0⟩) = .ok "\x27t" := by decide +kernel
  rw [htext] at hrender
  cases hrender
  have hread := hroom (by decide +kernel)
  rw [if_pos (by decide)] at hread
  obtain ⟨w, m₂, hrun⟩ := hread
  exact ⟨w, m₂, htext, hrun, (hsame w m₂ hrun).2⟩

end ArenaLisp
