import ArenaLisp.Proofs.ReadRuns

/-!
# Invariants of the arena

An invariant of the arena that every route of an allocation keeps, and that is not lost when the lexicon
grows, is `Steady`.  It then holds throughout all work of a machine, and so after every session in which
the caller hands over nothing that dangles (`Steady.of_arises`).
-/

namespace ArenaLisp

/-- An invariant that is kept by the routes of an allocation of values of the alphabet, and by the growth
of the lexicon. -/
structure Steady (A : Alphabet) (I : Arena → Lexicon → Prop) : Prop where
  fill : ∀ {a l id free x y}, a.Coherent → I a l → a.free = id :: free → ¬ a.Dangling x →
    ¬ a.Dangling y → A.Has l x → A.Has l y → I (a.fill id free x y) l
  grow : ∀ {a l x y}, a.Coherent → I a l → a.free = [] → a.used < a.capacity.toNat →
    ¬ a.Dangling x → ¬ a.Dangling y → A.Has l x → A.Has l y → I (a.grow x y) l
  collect : ∀ {a l roots}, a.Coherent → I a l → a.used = a.capacity.toNat →
    (∀ v ∈ roots, ¬ a.Dangling v) → I (a.collect roots) l
  grows : ∀ {a l l₂}, I a l → l.Grows l₂ → I a l₂

/-- Whether the slots of all cells in use are of an alphabet. -/
def Arena.Over (a : Arena) (A : Alphabet) (l : Lexicon) : Prop :=
  ∀ id, a.Live id → A.Has l (a.graph id).1 ∧ A.Has l (a.graph id).2

namespace Steady

variable {A : Alphabet} {I J : Arena → Lexicon → Prop}

theorem and (hI : Steady A I) (hJ : Steady A J) : Steady A fun a l => I a l ∧ J a l where
  fill ha h hfree hx hy hhx hhy :=
    ⟨hI.fill ha h.1 hfree hx hy hhx hhy, hJ.fill ha h.2 hfree hx hy hhx hhy⟩
  grow ha h hfree hlt hx hy hhx hhy :=
    ⟨hI.grow ha h.1 hfree hlt hx hy hhx hhy, hJ.grow ha h.2 hfree hlt hx hy hhx hhy⟩
  collect ha h hfull hroots := ⟨hI.collect ha h.1 hfull hroots, hJ.collect ha h.2 hfull hroots⟩
  grows h hl := ⟨hI.grows h.1 hl, hJ.grows h.2 hl⟩

/-- Cells in use stay within the alphabet. -/
theorem slots (A : Alphabet) : Steady A fun a l => a.Over A l where
  fill {a l id free x y} ha h hfree _ _ hhx hhy := by
    intro z hz
    rw [Arena.graph_fill (ha.free_lt id (by simp [hfree]))]
    rcases (Arena.live_fill ha hfree).mp hz with hz | rfl
    · split
      · exact ⟨hhx, hhy⟩
      · exact h z hz
    · rw [if_pos rfl]
      exact ⟨hhx, hhy⟩
  grow {a l x y} ha h _ _ _ _ hhx hhy := by
    intro z hz
    rw [Arena.graph_grow]
    rcases (Arena.live_grow ha).mp hz with hz | hz
    · split
      · exact ⟨hhx, hhy⟩
      · exact h z hz
    · rw [if_pos hz]
      exact ⟨hhx, hhy⟩
  collect {a l roots} ha h _ hroots := by
    intro z hz
    obtain ⟨hlt, hreach⟩ := (Arena.live_collect ha).mp hz
    rw [Arena.graph_collect_of_reaches hreach hlt]
    exact h z (ha.live_of_reaches hroots hreach)
  grows h hl id hid := ⟨A.grows hl (h id hid).1, A.grows hl (h id hid).2⟩

variable (hI : Steady A I)
include hI

/-- What each route keeps, an allocation keeps. -/
theorem builds (cut : Prop) : (Trail.invariant I cut).Builds A := by
  intro m x y hm hx hy h
  have hvs := hm.not_dangling_operands hx.not_dangling hy.not_dangling
  show I (m.arena.alloc m.roots x y).arena m.lexicon
  have hroute := m.arena.route_alloc m.roots x y
  generalize m.arena.alloc m.roots x y = al at hroute
  have hcollect : m.arena.capacity.toNat ≤ m.arena.used →
      I (m.arena.collect (x :: y :: m.roots)) m.lexicon :=
    fun hfull => hI.collect hm.arena h (Nat.le_antisymm hm.arena.used_le hfull) hvs
  cases hroute with
  | reuse hfree => exact hI.fill hm.arena h hfree hx.not_dangling hy.not_dangling hx.has hy.has
  | grow hfree hlt =>
    exact hI.grow hm.arena h hfree hlt hx.not_dangling hy.not_dangling hx.has hy.has
  | collect hfree hfull hfreed =>
    have hkept := Arena.kept_collect hm.arena hvs
    exact hI.fill hkept.coherent (hcollect hfull) hfreed (hkept.not_dangling x (by simp))
      (hkept.not_dangling y (by simp)) hx.has hy.has
  | fail hfree hfull => exact hcollect hfull

/-- A steady invariant holds throughout all work, if the alphabet has the atoms that the work may come
upon. -/
theorem throughout (hname : ∀ l s, A.Has (Lexicon.intern l s).2 (l.intern s).1)
    (hmarker : ∀ l, A.Has l (.atom .topLevel)) :
    (Trail.invariant I True).Throughout A where
  cut := trivial
  builds := hI.builds True
  intern m s h := hI.grows h (m.reads_intern s)
  name := hname
  marker := hmarker

end Steady

/-! ### Sessions -/

/-- Whether the values that a command is handed are of an alphabet. -/
def Command.Has (A : Alphabet) (m : Machine) : Command → Prop
  | work (.cons x y) => A.Has m.lexicon x ∧ A.Has m.lexicon y
  | work (.evalIn _ expr scope) => A.Has m.lexicon expr ∧ A.Has m.lexicon scope.value
  | work _ | pin _ | unpin | repin _ => True

/-- Whether something holds of every command of a session and the machine that it is given to. -/
def Machine.Always (P : Machine → Command → Prop) : Machine → List Command → Prop
  | _, [] => True
  | m, c :: cs => P m c ∧ (c.run m).Always P cs

theorem Machine.Always.mono {P Q : Machine → Command → Prop} {m : Machine}
    {cs : List Command} (hPQ : ∀ m c, P m c → Q m c) (h : m.Always P cs) : m.Always Q cs := by
  induction cs generalizing m with
  | nil => trivial
  | cons c cs ih => exact ⟨hPQ m c h.1, ih h.2⟩

/-- What commands keep, sessions keep. -/
theorem Machine.Always.induction {P : Machine → Command → Prop} {I : Machine → Prop} {m : Machine}
    {cs : List Command} (hstep : ∀ m c, I m → P m c → I (c.run m)) (h : I m) (hcs : m.Always P cs) :
    I (m.after cs) := by
  induction cs generalizing m with
  | nil => exact h
  | cons c cs ih => exact ih (hstep m c h hcs.1) hcs.2

/-- Whether a machine comes from a new one by a session of which something holds throughout. -/
def Machine.Arises (P : Machine → Command → Prop) (m : Machine) : Prop :=
  ∃ capacity threshold cs, (Machine.new capacity threshold).Always P cs ∧
    (Machine.new capacity threshold).after cs = m

/-- A steady invariant, and the alphabet of the cells in use, hold after every session in which nothing is
handed over that dangles or is outside the alphabet. -/
theorem Steady.of_arises {A : Alphabet} {I : Arena → Lexicon → Prop} (hI : Steady A I)
    (hname : ∀ l s, A.Has (Lexicon.intern l s).2 (l.intern s).1)
    (hmarker : ∀ l, A.Has l (.atom .topLevel)) (hempty : ∀ capacity, I (.empty capacity) .initial)
    {m : Machine} (hm : m.Arises fun m c => c.Fits m ∧ c.Has A m) :
    m.Coherent ∧ I m.arena m.lexicon ∧ m.arena.Over A m.lexicon := by
  obtain ⟨capacity, threshold, cs, hcs, rfl⟩ := hm
  have hover : (Arena.empty capacity).Over A .initial := fun _ hid => absurd hid.1 (Nat.not_lt_zero _)
  refine hcs.induction (I := fun m => m.Coherent ∧ I m.arena m.lexicon ∧ m.arena.Over A m.lexicon)
    (fun m c ⟨hm, h⟩ ⟨hfits, hhas⟩ => ⟨(c.keeps_run hm hfits).1, ?_⟩)
    ⟨Machine.coherent_new capacity threshold, hempty capacity, hover⟩
  cases c with
  | pin v | repin v => exact h
  | unpin => exact h
  | work op =>
    refine op.run_along ((hI.and (.slots A)).throughout hname hmarker) ⟨hm, h⟩ ?_ h
    cases op with
    | parse _ | read _ | evalText _ _ => trivial
    | cons x y =>
      exact ⟨Machine.clean_of_live hm h.2 hfits.1 hhas.1, Machine.clean_of_live hm h.2 hfits.2 hhas.2⟩
    | evalIn fuel expr scope =>
      exact ⟨Machine.clean_of_live hm h.2 hfits.1 hhas.1, hfits.2,
        Machine.clean_of_live hm h.2 (hm.not_dangling hfits.2) hhas.2⟩

/-- A session of which the last pair goes into a freed cell below the one that it refers to. -/
def reuseSession : List Command :=
  [.work (.cons .nil .nil), .work (.cons .nil .nil), .work (.cons (.atom .t) .nil), .pin (.pair ⟨2⟩),
    .work (.cons (.pair ⟨2⟩) .nil)]

theorem always_reuseSession (A : Alphabet) :
    (Machine.new 3 none).Always (fun m c => c.Fits m ∧ c.Has A m) reuseSession := by
  have hlive : ¬ ((Machine.new 3 none).after (reuseSession.take 3)).arena.Dangling (.pair ⟨2⟩) := by
    decide +kernel
  exact ⟨⟨⟨nofun, nofun⟩, A.nil _, A.nil _⟩, ⟨⟨nofun, nofun⟩, A.nil _, A.nil _⟩,
    ⟨⟨nofun, nofun⟩, A.atom _ _ (by decide), A.nil _⟩, ⟨hlive, trivial⟩,
    ⟨⟨hlive, nofun⟩, A.pair _ _, A.nil _⟩, trivial⟩

end ArenaLisp
