import ArenaLisp.Proofs.Collection
import ArenaLisp.Proofs.Session

/-!
# The accounts of an arena

All that work does to an arena is to ask it for pairs, one after the other (`exists_serves_after`), and to
cons is to ask for one, which is granted if it succeeds (`serves_cons`, `granted_request`).  A collection
runs only where nothing is free, so that it never counts a cell as freed that was free before.  Hence the
numbers of an arena change with the requests that are made of it, whatever they are: between two states a
slot is freed as often as it is allotted, but for its being in use at the one or the other, and the cells
in use together with all that were ever freed grow by the number of pairs that are granted
(`accounts_balance`).
-/

namespace ArenaLisp

/-- A request for a pair: the arena that it finds, the values pinned meanwhile and the two slots. -/
structure Service where
  arena : Arena
  roots : List Value
  car : Value
  cdr : Value

namespace Service

/-- What the request comes to. -/
def result (s : Service) : Allocation := s.arena.alloc s.roots s.car s.cdr

/-- Whether the request is granted. -/
def granted (s : Service) : Bool := s.result.cell?.isSome

/-- Whether the request is granted in the slot `id`. -/
def allots (id : CellId) (s : Service) : Bool := s.result.cell? == some id

/-- Whether the request finds no free cell and the arena used up. -/
def exhausted (s : Service) : Bool :=
  s.arena.free.isEmpty && decide (s.arena.capacity.toNat ≤ s.arena.used)

/-- Whether the slot `id` is among those that are counted as freed on account of the request. -/
def frees (id : CellId) (s : Service) : Bool :=
  s.exhausted && decide (id ∈ (s.arena.collect (s.car :: s.cdr :: s.roots)).free)

end Service

/-- What a machine asks of its arena to allocate a pair. -/
def Machine.request (m : Machine) (car cdr : Value) : Service := ⟨m.arena, m.roots, car, cdr⟩

/-- How a machine comes from another: it serves requests for pairs, the latest of which stands first in
the list, and changes what is no arena. -/
inductive Machine.Serves (m : Machine) : List Service → Machine → Prop
  | start : Serves m [] m
  | alloc {ss : List Service} {m₂ : Machine} (x y : Value) (h : Serves m ss m₂) :
    Serves m (m₂.request x y :: ss) (m₂.allocated x y)
  | record {ss : List Service} {m₂ : Machine} (r : Record) (h : Serves m ss m₂) :
    Serves m ss (m₂.record r)
  | intern {ss : List Service} {m₂ : Machine} (s : String) (h : Serves m ss m₂) :
    Serves m ss { m₂ with lexicon := (m₂.lexicon.intern s).2 }
  | pin {ss : List Service} {m₂ : Machine} (v : Value) (h : Serves m ss m₂) : Serves m ss (m₂.pin v)
  | unpin {ss : List Service} {m₂ : Machine} (h : Serves m ss m₂) : Serves m ss m₂.unpin

namespace Machine

variable {m m₂ m₃ : Machine} {ss ss' : List Service}

theorem Serves.trans (h : m.Serves ss m₂) (h' : m₂.Serves ss' m₃) : m.Serves (ss' ++ ss) m₃ := by
  induction h' with
  | start => exact h
  | alloc x y _ ih => exact .alloc x y ih
  | record r _ ih => exact .record r ih
  | intern s _ ih => exact .intern s ih
  | pin v _ ih => exact .pin v ih
  | unpin _ ih => exact .unpin ih

/-- What was taken off the stack can be pinned again. -/
theorem serves_of_unpin (m : Machine) : m.unpin.Serves [] m := by
  obtain ⟨arena, lexicon, roots, log⟩ := m
  cases roots with
  | nil => exact .start
  | cons v roots => exact .pin v .start

theorem serves_frame : Frame fun m m₂ => ∃ ss, m.Serves ss m₂ where
  refl _ := ⟨_, .start⟩
  trans h h' := by
    obtain ⟨ss, h⟩ := h
    obtain ⟨ss', h'⟩ := h'
    exact ⟨_, h.trans h'⟩
  allocated _ x y := ⟨_, .alloc x y .start⟩
  record _ r := ⟨_, .record r .start⟩
  unpin {m m₂} h := by
    obtain ⟨ss, h⟩ := h
    exact ⟨_, .unpin (m.serves_of_unpin.trans h)⟩

theorem exists_serves_run (m : Machine) (c : Command) : ∃ ss, m.Serves ss (c.run m) := by
  cases c with
  | work op => exact op.run_leaves serves_frame (fun _ s => ⟨_, .intern s .start⟩) m
  | pin v => exact ⟨_, .pin v .start⟩
  | unpin => exact ⟨_, .unpin .start⟩
  | repin v => exact ⟨_, .pin v (.unpin .start)⟩

/-- A session makes requests for pairs, and does nothing else to the arena. -/
theorem exists_serves_after (m : Machine) (cs : List Command) : ∃ ss, m.Serves ss (m.after cs) := by
  induction cs generalizing m with
  | nil => exact ⟨_, .start⟩
  | cons c cs ih =>
    obtain ⟨ss, h⟩ := m.exists_serves_run c
    obtain ⟨ss', h'⟩ := ih (c.run m)
    exact ⟨_, h.trans h'⟩

/-- To cons is to make one request, and nothing else. -/
theorem serves_cons (m : Machine) (x y : Value) :
    m.Serves [m.request x y] ((Command.work (.cons x y)).run m) := by
  have hrun : ending ((Action.cons x y).run m) = m.allocated x y := by
    rw [Action.run_cons]
    split
    · rfl
    · rfl
  rw [Command.run, Operation.run, hrun]
  exact .alloc x y .start

/-- Consing gives the pair in the slot in which the request is granted. -/
theorem allots_request (m : Machine) (x y : Value) (id : CellId) :
    (m.request x y).allots id = true ↔ ∃ m₂, (Action.cons x y).run m = .ok (.pair id) m₂ := by
  rw [Action.run_cons, Service.allots, Service.result, request, beq_iff_eq]
  cases (m.arena.alloc m.roots x y).cell? with
  | none => simp
  | some first => simp

/-- Consing succeeds exactly if the request is granted. -/
theorem granted_request (m : Machine) (x y : Value) :
    (m.request x y).granted = true ↔ ∃ v m₂, (Action.cons x y).run m = .ok v m₂ := by
  rw [Action.run_cons, Service.granted, Service.result, request]
  cases (m.arena.alloc m.roots x y).cell? with
  | none => simp
  | some first => simp

end Machine

namespace Arena

/-- What the list of free cells has to do with the other numbers of an arena, whatever the cells hold. -/
structure Orderly (a : Arena) : Prop where
  free_nodup : a.free.Nodup
  free_lt : ∀ id ∈ a.free, id.toNat < a.used
  used_le : a.used ≤ a.capacity.toNat
  used_eq : a.free ≠ [] ∨ 0 < a.tally.collections → a.used = a.capacity.toNat

theorem orderly_empty (capacity : UInt32) : (Arena.empty capacity).Orderly where
  free_nodup := .nil
  free_lt := nofun
  used_le := Nat.zero_le _
  used_eq h := by
    rcases h with h | h
    · exact absurd rfl h
    · exact absurd h (Nat.lt_irrefl 0)

variable {a : Arena} {roots : List Value} {car cdr : Value} {id : CellId} {free : List CellId}

/-- What a collection of an arena that is used up comes to. -/
structure Swept (a b : Arena) : Prop where
  orderly : b.Orderly
  used : b.used = a.used
  capacity : b.capacity = a.capacity
  tally : b.tally = ⟨a.tally.collections + 1, a.tally.reclaimed + b.free.length⟩

@[simp] theorem free_fill : (a.fill id free car cdr).free = free := rfl

@[simp] theorem tally_fill : (a.fill id free car cdr).tally = a.tally := rfl

@[simp] theorem free_grow : (a.grow car cdr).free = a.free := rfl

@[simp] theorem tally_grow : (a.grow car cdr).tally = a.tally := rfl

namespace Orderly

theorem used_le_two_pow (h : a.Orderly) : a.used ≤ 2 ^ 32 := by
  have hle := h.used_le
  have hlt := a.capacity.toNat_lt
  omega

/-- No more cells are free than were handed out. -/
theorem freeCount_le (h : a.Orderly) : a.freeCount ≤ a.used := by
  have hused := h.used_le_two_pow
  have hsub : a.free.toFinset ⊆ CellId.below a.used := fun x hx =>
    (CellId.mem_below hused).mpr (h.free_lt x (List.mem_toFinset.mp hx))
  have hle := Finset.card_le_card hsub
  rwa [CellId.card_below hused, List.toFinset_card_of_nodup h.free_nodup] at hle

theorem fill (h : a.Orderly) (hfree : a.free = id :: free) :
    (a.fill id free car cdr).Orderly := by
  have hnodup := h.free_nodup
  rw [hfree, List.nodup_cons] at hnodup
  refine ⟨hnodup.2, fun x hx => ?_, ?_, fun _ => ?_⟩
  · rw [used_fill]
    exact h.free_lt x (by rw [hfree]; exact List.mem_cons_of_mem _ hx)
  · rw [used_fill]
    exact h.used_le
  · rw [used_fill]
    exact h.used_eq (.inl (by simp [hfree]))

theorem grow (h : a.Orderly) (hfree : a.free = []) (hlt : a.used < a.capacity.toNat) :
    (a.grow car cdr).Orderly := by
  refine ⟨by simp [hfree], by simp [hfree], ?_, fun hfull => ?_⟩
  · rw [used_grow]
    exact hlt
  · -- an arena that is not used up has never been collected
    have hpos : 0 < a.tally.collections := hfull.resolve_left fun hne => hne hfree
    have heq := h.used_eq (.inr hpos)
    omega

theorem collect (h : a.Orderly) (hfull : a.capacity.toNat ≤ a.used) : (a.collect roots).Orderly := by
  have hused := h.used_le_two_pow
  have hle := h.used_le
  refine ⟨?_, fun x hx => ?_, ?_, fun _ => ?_⟩
  · exact (pairwise_free_collect hused).imp fun hxy heq => Nat.ne_of_lt hxy (congrArg CellId.toNat heq)
  · rw [used_collect]
    exact ((mem_free_collect hused).mp hx).1
  · rw [used_collect]
    exact hle
  · rw [used_collect, capacity_collect]
    omega

/-- Counted slot by slot, the free cells are as many as their list is long. -/
theorem sum_mem_free (h : a.Orderly) :
    ∑ id ∈ CellId.below a.capacity.toNat, (if id ∈ a.free then 1 else 0) = a.free.length := by
  have hcapacity : a.capacity.toNat ≤ 2 ^ 32 := Nat.le_of_lt a.capacity.toNat_lt
  have hfilter : (CellId.below a.capacity.toNat).filter (· ∈ a.free) = a.free.toFinset := by
    ext x
    rw [Finset.mem_filter, CellId.mem_below hcapacity, List.mem_toFinset]
    exact and_iff_right_of_imp fun hx => (h.free_lt x hx).trans_le h.used_le
  rw [← Finset.card_filter, hfilter, List.toFinset_card_of_nodup h.free_nodup]

theorem swept (h : a.Orderly) (hfull : a.capacity.toNat ≤ a.used) : a.Swept (a.collect roots) where
  orderly := h.collect hfull
  used := used_collect
  capacity := capacity_collect
  tally := rfl

end Orderly
end Arena

/-! ### One request -/

namespace Service

variable {s : Service}

/-- What one request changes in the numbers of an arena. -/
structure Posts (s : Service) : Prop where
  orderly : s.result.arena.Orderly
  capacity : s.result.arena.capacity = s.arena.capacity
  collections : s.result.arena.tally.collections =
    s.arena.tally.collections + if s.exhausted = true then 1 else 0
  balance : s.result.arena.liveCount + s.result.arena.tally.reclaimed =
    s.arena.liveCount + s.arena.tally.reclaimed + if s.granted = true then 1 else 0
  reclaimed : s.result.arena.tally.reclaimed = s.arena.tally.reclaimed +
    ∑ id ∈ CellId.below s.arena.capacity.toNat, if s.frees id = true then 1 else 0
  slot : ∀ id, (if s.result.arena.Live id then 1 else 0) + (if s.frees id = true then 1 else 0) =
    (if s.arena.Live id then 1 else 0) + if s.allots id = true then 1 else 0

open Arena

/-- A request that is granted without a collection is entered as one pair more, in one slot more. -/
theorem posts_of_placed {first : CellId} {b : Arena} (hresult : s.result = ⟨some first, b, none⟩)
    (hexhausted : s.exhausted = false) (horderly : b.Orderly)
    (hcapacity : b.capacity = s.arena.capacity) (htally : b.tally = s.arena.tally)
    (hcount : b.liveCount = s.arena.liveCount + 1) (hnew : ¬ s.arena.Live first)
    (hlive : ∀ id, b.Live id ↔ s.arena.Live id ∨ id = first) : s.Posts := by
  have hfrees : ∀ id, s.frees id = false := fun id => by simp [frees, hexhausted]
  constructor
  case orderly => rw [hresult]; exact horderly
  case capacity => rw [hresult]; exact hcapacity
  case collections => simp [hresult, hexhausted, htally]
  case balance =>
    simp only [hresult, granted, hcount, htally, Option.isSome_some, if_true]
    omega
  case reclaimed => simp [hresult, hfrees, htally]
  case slot =>
    intro id
    simp only [hresult, hfrees, hlive, allots]
    by_cases hid : id = first
    · subst hid
      simp [hnew]
    · simp [hid, Ne.symm hid]

theorem posts_reuse {first : CellId} {free : List CellId} (h : s.arena.Orderly)
    (hfree : s.arena.free = first :: free)
    (hresult : s.result =
      ⟨some first, s.arena.fill first free s.car s.cdr, none⟩) : s.Posts := by
  have hcount := h.freeCount_le
  rw [freeCount, hfree, List.length_cons] at hcount
  refine posts_of_placed hresult (by simp [exhausted, hfree]) (h.fill hfree) rfl tally_fill ?_ ?_
    fun id => ?_
  · simp only [liveCount, freeCount, used_fill, free_fill, hfree, List.length_cons]
    omega
  · exact fun hlive => hlive.2 (by simp [hfree])
  · exact live_fill_of_nodup h.free_nodup (h.free_lt first (by simp [hfree])) hfree

theorem posts_grow (h : s.arena.Orderly) (hfree : s.arena.free = [])
    (hlt : s.arena.used < s.arena.capacity.toNat)
    (hresult : s.result =
      ⟨some (.ofNat s.arena.used), s.arena.grow s.car s.cdr, none⟩) : s.Posts := by
  have hused : (CellId.ofNat s.arena.used).toNat = s.arena.used :=
    CellId.toNat_ofNat (Nat.lt_trans hlt s.arena.capacity.toNat_lt)
  refine posts_of_placed hresult (by simp [exhausted, hfree, hlt]) (h.grow hfree hlt) rfl tally_grow
    ?_ ?_ fun id => ?_
  · simp only [liveCount, freeCount, used_grow, free_grow, hfree, List.length_nil]
    omega
  · intro hlive
    have hbelow := hlive.1
    omega
  · rw [live_grow_of_free_lt h.free_lt]
    refine or_congr_right ⟨fun heq => ?_, fun heq => by rw [heq, hused]⟩
    rw [← heq, CellId.ofNat_toNat]

section Collected

variable {b : Arena} (hfree : s.arena.free = []) (hfull : s.arena.capacity.toNat ≤ s.arena.used)
  (hb : s.arena.collect (s.car :: s.cdr :: s.roots) = b)
  (hswept : s.arena.Swept b)

include hfree hfull hb in
theorem frees_of_collect (id : CellId) : s.frees id = decide (id ∈ b.free) := by
  simp [frees, exhausted, hfree, hfull, hb]

include hfree hfull hb hswept

theorem posts_collect {first : CellId} {free : List CellId} (hfreed : b.free = first :: free)
    (hresult : s.result =
      ⟨some first, b.fill first free s.car s.cdr, some (free.length + 1)⟩) :
    s.Posts := by
  have horderly := hswept.orderly
  have hfrees := frees_of_collect hfree hfull hb
  have hcount := horderly.freeCount_le
  rw [freeCount, hfreed, List.length_cons] at hcount
  constructor
  case orderly => exact hresult ▸ horderly.fill hfreed
  case capacity => rw [hresult]; exact hswept.capacity
  case collections => simp [hresult, exhausted, hfree, hfull, hswept.tally]
  case balance =>
    simp only [hresult, granted, liveCount, freeCount, used_fill, free_fill, tally_fill, hfree,
      hfreed, hswept.tally, ← hswept.used, List.length_cons, List.length_nil, Option.isSome_some,
      if_true]
    omega
  case reclaimed =>
    have hsum := horderly.sum_mem_free
    simp only [hresult, hfrees, tally_fill, hswept.tally, decide_eq_true_eq, ← hswept.capacity]
    omega
  case slot =>
    intro id
    have hfirst := horderly.free_lt first (by simp [hfreed])
    have hlive : (b.fill first free s.car s.cdr).Live id ↔ b.Live id ∨ id = first :=
      live_fill_of_nodup horderly.free_nodup hfirst hfreed
    have hlive' : s.arena.Live id ↔ id.toNat < b.used := by simp [Live, hfree, hswept.used]
    simp only [hresult, hfrees, hlive, hlive', allots]
    by_cases hid : id = first
    · subst hid
      simp [hfreed, hfirst, Live]
    · by_cases hmem : id ∈ b.free
      · simp [hid, Ne.symm hid, hmem, horderly.free_lt id hmem, Live]
      · simp [hid, Ne.symm hid, hmem, Live]

theorem posts_fail (hfreed : b.free = []) (hresult : s.result = ⟨none, b, some 0⟩) : s.Posts := by
  have hfrees := frees_of_collect hfree hfull hb
  constructor
  case orderly => exact hresult ▸ hswept.orderly
  case capacity => rw [hresult]; exact hswept.capacity
  case collections => simp [hresult, exhausted, hfree, hfull, hswept.tally]
  case balance =>
    simp [hresult, granted, liveCount, freeCount, hswept.used, hswept.tally, hfreed, hfree]
  case reclaimed => simp [hresult, hfrees, hswept.tally, hfreed]
  case slot => simp [hresult, hfrees, allots, Live, hfree, hswept.used, hfreed]

end Collected

/-- Every request to an orderly arena is entered in its accounts. -/
theorem posts (h : s.arena.Orderly) : s.Posts := by
  have hroute := s.arena.route_alloc s.roots s.car s.cdr
  generalize hal : s.arena.alloc s.roots s.car s.cdr = al at hroute
  cases hroute with
  | reuse hfree => exact posts_reuse h hfree hal
  | grow hfree hlt => exact posts_grow h hfree hlt hal
  | collect hfree hfull hfreed => exact posts_collect hfree hfull rfl (h.swept hfull) hfreed hal
  | fail hfree hfull hfreed => exact posts_fail hfree hfull rfl (h.swept hfull) hfreed hal

end Service

/-! ### A list of requests -/

/-- The numbers of an arena `a` that at first was `a₀`, against the requests that were made meanwhile. -/
structure Arena.Accounts (a₀ : Arena) (ss : List Service) (a : Arena) : Prop where
  capacity_eq : a.capacity = a₀.capacity
  /-- Every pair that was granted is in use or has been freed. -/
  balance : a.liveCount + a.tally.reclaimed =
    a₀.liveCount + a₀.tally.reclaimed + ss.countP Service.granted
  collections : a.tally.collections = a₀.tally.collections + ss.countP Service.exhausted
  reclaimed : a.tally.reclaimed = a₀.tally.reclaimed +
    ∑ id ∈ CellId.below a₀.capacity.toNat, ss.countP (Service.frees id)
  /-- A slot has been freed once for each time that it was handed out, at first or since, but for the last
  if it is in use. -/
  slot : ∀ id, (if a₀.Live id then 1 else 0) + ss.countP (Service.allots id) =
    ss.countP (Service.frees id) + if a.Live id then 1 else 0

open Arena

variable {a₀ : Arena} {ss : List Service} {m m₂ : Machine}

theorem accounts_start (a₀ : Arena) : a₀.Accounts [] a₀ where
  capacity_eq := rfl
  balance := rfl
  collections := rfl
  reclaimed := by simp
  slot id := by simp

theorem Service.Posts.accounts {s : Service} (hp : s.Posts) (h : a₀.Accounts ss s.arena) :
    a₀.Accounts (s :: ss) s.result.arena where
  capacity_eq := hp.capacity.trans h.capacity_eq
  balance := by
    have hb := hp.balance
    have hb' := h.balance
    rw [List.countP_cons]
    omega
  collections := by
    rw [List.countP_cons, hp.collections, h.collections, Nat.add_assoc]
  reclaimed := by
    simp only [List.countP_cons, Finset.sum_add_distrib]
    rw [hp.reclaimed, h.reclaimed, h.capacity_eq, Nat.add_assoc]
  slot id := by
    have hs := hp.slot id
    have hs' := h.slot id
    simp only [List.countP_cons]
    omega

/-- Requests keep the accounts of an arena that is orderly. -/
theorem Machine.Serves.accounts (hm : m.arena.Orderly) (h : m.Serves ss m₂) :
    m₂.arena.Orderly ∧ m.arena.Accounts ss m₂.arena := by
  induction h with
  | start => exact ⟨hm, accounts_start _⟩
  | @alloc ss m₂ x y _ ih =>
    have hp : (m₂.request x y).Posts := Service.posts ih.1
    exact ⟨hp.orderly, hp.accounts ih.2⟩
  | record | intern | pin | unpin => assumption

/-- A session leads a machine only to states that it comes to by serving requests for pairs.  To cons is to
make one request, which is granted if consing succeeds, and in the slot of the pair that it gives.  From an
orderly machine on, the numbers of the arena agree with the requests, so that all lists of requests which
lead to one state have as many granted.  No more cells are free than were handed out, and once a collection
has run, every cell of the capacity has been handed out, for ever.  A new machine is orderly, and all of
its numbers are zero. -/
theorem accounts_balance :
    (∀ (m : Machine) cs, ∃ ss, m.Serves ss (m.after cs)) ∧
    (∀ (m : Machine) x y, m.Serves [m.request x y] ((Command.work (.cons x y)).run m) ∧
      ((m.request x y).granted = true ↔ ∃ v m₂, (Action.cons x y).run m = .ok v m₂) ∧
      ∀ id, (m.request x y).allots id = true ↔ ∃ m₂, (Action.cons x y).run m = .ok (.pair id) m₂) ∧
    (∀ (m m₂ : Machine) ss, m.arena.Orderly → m.Serves ss m₂ →
      m₂.arena.freeCount ≤ m₂.arena.used ∧ m.arena.Accounts ss m₂.arena ∧
        (0 < m₂.arena.tally.collections →
          ∀ ss' m', m₂.Serves ss' m' → m'.arena.used = m.arena.capacity.toNat)) ∧
    ∀ capacity threshold, (Machine.new capacity threshold).arena.Orderly ∧
      (Machine.new capacity threshold).arena.capacity = capacity ∧
      (Machine.new capacity threshold).arena.liveCount = 0 ∧
      (Machine.new capacity threshold).arena.tally = ⟨0, 0⟩ ∧
      ∀ id, ¬ (Machine.new capacity threshold).arena.Live id := by
  refine ⟨fun m cs => m.exists_serves_after cs, fun m x y => ?_, fun m m₂ ss hm h => ?_,
    fun capacity threshold => ?_⟩
  · exact ⟨m.serves_cons x y, m.granted_request x y, m.allots_request x y⟩
  · obtain ⟨horderly, haccounts⟩ := h.accounts hm
    refine ⟨horderly.freeCount_le, haccounts, fun hpos ss' m' h' => ?_⟩
    obtain ⟨horderly', haccounts'⟩ := h'.accounts horderly
    have hmore : 0 < m'.arena.tally.collections := by
      rw [haccounts'.collections]
      omega
    rw [horderly'.used_eq (.inr hmore), haccounts'.capacity_eq, haccounts.capacity_eq]
  · exact ⟨orderly_empty capacity, rfl, rfl, rfl, fun id hid => Nat.not_lt_zero _ hid.1⟩

/-- A session in which one slot is allotted, freed, allotted again and then pinned, so that there is no room
for a third pair. -/
def crampedSession : List Command :=
  [.work (.cons .nil .nil), .work (.cons (.atom .t) .nil), .pin (.pair ⟨0⟩), .work (.cons .nil .nil)]

/-- Two of its three requests are granted, and two find the arena used up. -/
theorem accounts_balance_crampedSession :
    ∃ ss, (Machine.new 1 none).Serves ss ((Machine.new 1 none).after crampedSession) ∧
      ss.countP Service.granted = 2 ∧ ss.countP Service.exhausted = 2 ∧
      ss.countP (Service.allots ⟨0⟩) = 2 ∧ ss.countP (Service.frees ⟨0⟩) = 1 := by
  obtain ⟨hsession, -, hnumbers, hnew⟩ := accounts_balance
  obtain ⟨horderly, -, hlive₀, htally₀, hslot₀⟩ := hnew 1 none
  obtain ⟨ss, hss⟩ := hsession (Machine.new 1 none) crampedSession
  obtain ⟨-, haccounts, -⟩ := hnumbers _ _ ss horderly hss
  have hlive : ((Machine.new 1 none).after crampedSession).arena.liveCount = 1 := by decide +kernel
  have htally : ((Machine.new 1 none).after crampedSession).arena.tally = ⟨2, 1⟩ := by decide +kernel
  have hslot : ((Machine.new 1 none).after crampedSession).arena.Live ⟨0⟩ := by decide +kernel
  have hbelow : CellId.below (Machine.new 1 none).arena.capacity.toNat = {⟨0⟩} := by decide
  have hgranted := haccounts.balance
  have hexhausted := haccounts.collections
  have hfrees := haccounts.reclaimed
  have hallots := haccounts.slot ⟨0⟩
  rw [hlive, htally, hlive₀, htally₀] at hgranted
  rw [htally, htally₀] at hexhausted
  rw [htally, htally₀, hbelow, Finset.sum_singleton] at hfrees
  rw [if_pos hslot, if_neg (hslot₀ ⟨0⟩)] at hallots
  dsimp only at hgranted hexhausted hfrees
  exact ⟨ss, hss, by omega, by omega, by omega, by omega⟩

end ArenaLisp
