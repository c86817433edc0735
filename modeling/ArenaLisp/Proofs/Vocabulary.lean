import ArenaLisp.Proofs.Capacity
import ArenaLisp.Proofs.Interning
import ArenaLisp.Proofs.Travels

/-!
# What the lexicon learns from a text

Only reading adds to the lexicon.  It adds the names that stand in what it has taken of the text, those
that are new, each once and in the order in which they stand there first; it does so wherever it ends, and
however deep it stops within an expression.  Evaluation adds nothing (`reading_adds_names`).

The reader is followed token by token: `Scan` goes through a text as the reader does, and gathers the names
it passes.  That these are the names that the text holds is a matter of `Scan` alone (`Scan.exists_taken`).
-/

namespace ArenaLisp

namespace Lexicon

/-- The spellings of a list that are new to a lexicon, each once, where it stands first. -/
def fresh (l : Lexicon) (ss : List String) : List String :=
  (ss.filter fun s => s != nilName && (l.lookup? s).isNone).eraseDups

variable {l : Lexicon} {s : String} {ss : List String}

theorem fresh_cons_of_eq_some {v : Value} (h : l.lookup? s = some v) :
    l.fresh (s :: ss) = l.fresh ss := by
  rw [fresh, List.filter_cons_of_neg (by simp [h]), fresh]

/-- A new spelling comes first, and is not new any more. -/
theorem fresh_cons_of_eq_none (h : l.lookup? s = none) :
    l.fresh (s :: ss) = s :: (l.add s).fresh ss := by
  have hnil : s ≠ nilName := by
    rintro rfl
    simp at h
  rw [fresh, List.filter_cons_of_pos (by simp [h, hnil]), List.eraseDups_cons, List.filter_filter, fresh]
  congr 3
  funext t
  rw [lookup?_add l hnil]
  by_cases hts : t = s
  · simp [hts]
  · simp [hts]

/-- Interning adds the names that are new. -/
theorem names_internAll (l : Lexicon) (ss : List String) :
    (l.internAll ss).2.names.toList = l.names.toList ++ l.fresh ss := by
  induction ss generalizing l with
  | nil => simp [internAll, fresh]
  | cons s ss ih =>
    cases h : l.lookup? s with
    | some v => rw [internAll, intern_of_lookup?_eq_some h, ih, fresh_cons_of_eq_some h]
    | none =>
      rw [internAll, intern_of_lookup?_eq_none h, ih, fresh_cons_of_eq_none h]
      show (l.names.push s).toList ++ _ = _
      rw [Array.toList_push, List.append_assoc, List.singleton_append]

theorem internAll_append (l : Lexicon) (ss ts : List String) :
    (l.internAll (ss ++ ts)).2 = ((l.internAll ss).2.internAll ts).2 := by
  induction ss generalizing l with
  | nil => rfl
  | cons s ss ih => exact ih _

end Lexicon

/-! ### The names of a text -/

namespace Grammar

/-- The characters that can stand directly before a name without being part of it. -/
def isSign (x : Char) : Bool := x == '.' || x == '\x27'

/-- The names in a text: what stands between delimiters, without the signs before it. -/
def names (text : List Char) : List String :=
  (text.splitOnP isDelimiter).filterMap fun piece =>
    match piece.dropWhile isSign with
    | [] => none
    | w => some (String.ofList w)

/-- A text is gone through up to `rest`: what is no part of a name is passed, and each name is taken to its
end. -/
inductive Scan : List Char → List String → List Char → Prop
  | done {cs : List Char} : Scan cs [] cs
  | mark {x : Char} {cs rest : List Char} {ss : List String} (hx : isDelimiter x || isSign x)
      (h : Scan cs ss rest) : Scan (x :: cs) ss rest
  | name {w cs rest : List Char} {ss : List String} (hw : IsName w) (hcs : AtDelimiter cs)
      (h : Scan cs ss rest) : Scan (w ++ cs) (String.ofList w :: ss) rest

variable {cs mid rest w t : List Char} {x : Char} {ss ss' : List String}

theorem Scan.trans (h : Scan cs ss mid) (h' : Scan mid ss' rest) : Scan cs (ss ++ ss') rest := by
  induction h with
  | done => exact h'
  | mark hx _ ih => exact .mark hx (ih h')
  | name hw hcs _ ih => exact .name hw hcs (ih h')

/-- Blanks are passed. -/
theorem Scan.dropWhile (cs : List Char) : Scan cs [] (cs.dropWhile isBlank) := by
  induction cs with
  | nil => exact .done
  | cons x cs ih =>
    cases hx : isBlank x with
    | true =>
      rw [List.dropWhile_cons_of_pos hx]
      exact .mark (by simp [isDelimiter, hx]) ih
    | false =>
      rw [List.dropWhile_cons_of_neg (by simp [hx])]
      exact .done

theorem names_nil : names [] = [] := by simp [names]

/-- A delimiter ends what stands before it. -/
theorem names_append_cons (hx : isDelimiter x) : names (w ++ x :: t) = names w ++ names t := by
  rw [names, List.splitOnP_append_cons _ _ hx, List.filterMap_append]
  rfl

/-- A mark is no part of a name that stands behind it. -/
theorem names_cons (hx : isDelimiter x || isSign x) : names (x :: t) = names t := by
  cases hd : isDelimiter x with
  | true => exact (names_append_cons (w := []) hd).trans (by rw [names_nil, List.nil_append])
  | false =>
    have hsign : isSign x = true := by simpa [hd] using hx
    obtain ⟨piece, pieces, hsplit⟩ := List.exists_cons_of_ne_nil (List.splitOnP_ne_nil isDelimiter t)
    rw [names, List.splitOnP_cons_eq_if_modifyHead, if_neg (by simp [hd]), hsplit, List.modifyHead_cons,
      names, hsplit]
    simp only [List.filterMap_cons, List.dropWhile_cons_of_pos hsign]

/-- A name is all of the names in it. -/
theorem names_of_isName (hw : IsName w) : names w = [String.ofList w] := by
  have hsplit : w.splitOnP isDelimiter = [w] := List.splitOnP_eq_singleton hw.2.2.2
  obtain ⟨x, w', rfl, -, -, -, hdot, hquote⟩ := hw.exists_cons
  have hsign : ¬ isSign x = true := by simp [isSign, hdot, hquote]
  rw [names, hsplit]
  simp [List.dropWhile_cons_of_neg hsign]

theorem names_append (hw : IsName w) (ht : AtDelimiter t) :
    names (w ++ t) = String.ofList w :: names t := by
  cases t with
  | nil => rw [List.append_nil, names_of_isName hw, names_nil]
  | cons x t =>
    have hx : isDelimiter x = true := ht x rfl
    rw [names_append_cons hx, names_of_isName hw, names_cons (by simp [hx]), List.singleton_append]

/-- What is gathered on the way through a text are the names in the part that has been passed. -/
theorem Scan.exists_taken (h : Scan cs ss rest) : ∃ taken, cs = taken ++ rest ∧ names taken = ss := by
  induction h with
  | done => exact ⟨[], rfl, names_nil⟩
  | @mark x cs rest ss hx _ ih =>
    obtain ⟨taken, rfl, rfl⟩ := ih
    exact ⟨x :: taken, rfl, names_cons hx⟩
  | @name w cs rest ss hw hcs _ ih =>
    obtain ⟨taken, rfl, rfl⟩ := ih
    refine ⟨w ++ taken, (List.append_assoc ..).symm, names_append hw ?_⟩
    cases taken with
    | nil => nofun
    | cons x taken => exact hcs

end Grammar

/-! ### Reading -/

open Grammar

/-- From one reading to another: the text is gone through, and the names in it are interned in turn. -/
def Reading.Learns (s s₂ : Reading) : Prop :=
  s₂.cursor.size = s.cursor.size ∧ ∃ ss, Scan s.cursor.rest ss s₂.cursor.rest ∧
    s₂.machine.lexicon = (s.machine.lexicon.internAll ss).2

namespace Reading.Learns

variable {s s₂ s₃ : Reading}

protected theorem refl (s : Reading) : s.Learns s := ⟨rfl, [], .done, rfl⟩

theorem trans (h : s.Learns s₂) (h' : s₂.Learns s₃) : s.Learns s₃ := by
  obtain ⟨hsize, ss, hscan, hlexicon⟩ := h
  obtain ⟨hsize', ss', hscan', hlexicon'⟩ := h'
  refine ⟨hsize'.trans hsize, ss ++ ss', hscan.trans hscan', ?_⟩
  rw [hlexicon', hlexicon, Lexicon.internAll_append]

end Reading.Learns

/-- However an action ends that begins at a place, the names on its way have been interned. -/
def Learns {α : Type} (c : Cursor) (act : ReadAction α) : Prop :=
  ∀ m, Reading.Learns ⟨m, c⟩ (ending (act.run ⟨m, c⟩))

namespace Learns

open ReadAction

variable {α β : Type} {c : Cursor} {act : ReadAction α} {x : Char} {r : List Char} {fuel : Nat}

/-! #### Rules -/

/-- An action that does nothing but give a value or stop. -/
theorem still (h : ∀ m, ending (act.run ⟨m, c⟩) = ⟨m, c⟩) : Learns c act := by
  intro m
  rw [h m]
  exact .refl _

protected theorem pure (x : α) : Learns c (pure x) := still fun _ => rfl

protected theorem blocked (o : Obstacle) : Learns c (blocked o : ReadAction α) := still fun _ => rfl

theorem bind {f : α → ReadAction β} (h : Learns c act) (hf : ∀ x d, Learns d (f x)) :
    Learns c (act >>= f) := by
  intro m
  have h := h m
  show Reading.Learns _ (ending (EStateM.bind act f ⟨m, c⟩))
  unfold EStateM.bind
  cases hrun : act.run ⟨m, c⟩ with
  | ok x s =>
    rw [hrun] at h
    rw [show act ⟨m, c⟩ = .ok x s from hrun]
    exact h.trans (hf x s.cursor s.machine)
  | error e s =>
    rw [hrun] at h
    rw [show act ⟨m, c⟩ = .error e s from hrun]
    exact h

/-- Blanks are passed. -/
theorem blanks_bind {f : Unit → ReadAction β} (h : Learns (c.dropWhile isBlank) (f ())) :
    Learns c (skipBlanks >>= f) := by
  intro m
  have hpassed : Reading.Learns ⟨m, c⟩ ⟨m, c.dropWhile isBlank⟩ := ⟨rfl, [], .dropWhile _, rfl⟩
  exact hpassed.trans (h m)

/-- A mark is passed. -/
theorem skip_bind {f : Unit → ReadAction β} (hc : c.rest = x :: r) (hx : isDelimiter x || isSign x)
    (h : Learns c.next (f ())) : Learns c (skip >>= f) := by
  intro m
  have hpassed : Reading.Learns ⟨m, c⟩ ⟨m, c.next⟩ := by
    refine ⟨c.size_next, [], ?_, rfl⟩
    rw [c.rest_next hc, hc]
    exact .mark hx .done
  exact hpassed.trans (h m)

theorem peek_bind {f : Option Char → ReadAction β} (h : Learns c (f c.peek?)) :
    Learns c (peek? >>= f) := fun m => h m

theorem pinned (v : Value) (h : Learns c act) : Learns c (ReadAction.pinned v act) := by
  intro m
  have h := h (m.pin v)
  rw [run_pinned]
  cases hrun : act.run ⟨m.pin v, c⟩ with
  | ok x s =>
    rw [hrun] at h
    exact h
  | error e s =>
    rw [hrun] at h
    exact h

/-- Work on the machine alone that leaves the lexicon as it is. -/
theorem onMachine {act : Action α} (h : Leaves (fun m m₂ => m₂.lexicon = m.lexicon) act) :
    Learns c (ReadAction.onMachine act) := by
  intro m
  have h := h m
  rw [run_onMachine]
  dsimp only
  cases hrun : act.run m with
  | ok x m₂ =>
    rw [hrun] at h
    exact ⟨rfl, [], .done, h⟩
  | error e m₂ =>
    rw [hrun] at h
    exact ⟨rfl, [], .done, h⟩

/-! #### The reader -/

/-- Names are interned. -/
theorem atom (hname : IsName (c.takeWhile (!isDelimiter ·))) : Learns c ReadAction.atom := by
  intro m
  refine ⟨rfl, [String.ofList (c.takeWhile (!isDelimiter ·))], ?_, rfl⟩
  have hscan := Scan.name hname (atDelimiter_dropWhile c.rest) .done
  rwa [Cursor.takeWhile, List.takeWhile_append_dropWhile] at hscan

theorem quote (v : Value) : Learns c (ReadAction.onMachine (ReadAction.quote v)) :=
  .onMachine (.bind lexicon_frame (.cons lexicon_frame _ _) fun _ => .cons lexicon_frame _ _)

section Step

variable (hexpr : ∀ c, Learns c (ReadAction.expr fuel)) (hitems : ∀ c, Learns c (ReadAction.items fuel))
include hexpr hitems

theorem expr_succ : Learns c (ReadAction.expr (fuel + 1)) := by
  rw [ReadAction.expr]
  refine blanks_bind (peek_bind ?_)
  cases h : c.rest.dropWhile isBlank with
  | nil =>
    rw [peek?_eq_none rfl h]
    exact .blocked _
  | cons x r =>
    rw [peek?_eq rfl h]
    split
    case h_1 hx => cases hx
    case h_2 | h_3 => exact .blocked _
    case h_4 hx =>
      cases hx
      exact skip_bind h rfl (hitems _)
    case h_5 hx =>
      cases hx
      exact skip_bind h rfl (bind (hexpr _) fun v _ => quote v)
    case h_6 hclose hdot hopen hquote hx =>
      cases hx
      have hname : IsName ((x :: r).takeWhile (!isDelimiter ·)) :=
        isName_takeWhile (isBlank_of_dropWhile h) hopen hclose hdot hquote
      refine atom ?_
      rw [← h] at hname
      exact hname

/-- What stands behind an element of a list. -/
theorem listTail : Learns c (ReadAction.listTail fuel) := by
  rw [ReadAction.listTail]
  refine blanks_bind (peek_bind ?_)
  split
  case isTrue hdot =>
    obtain ⟨r, hr⟩ := List.head?_eq_some_iff.mp hdot
    refine skip_bind hr rfl (bind (hexpr _) fun v d => blanks_bind (peek_bind ?_))
    split
    case isTrue hclose =>
      obtain ⟨r, hr⟩ := List.head?_eq_some_iff.mp hclose
      exact skip_bind hr rfl (.pure v)
    case isFalse => exact still fun _ => rfl
  case isFalse => exact hitems _

theorem items_succ : Learns c (ReadAction.items (fuel + 1)) := by
  rw [ReadAction.items]
  refine blanks_bind (peek_bind ?_)
  cases h : (c.dropWhile isBlank).peek? with
  | none => exact .blocked _
  | some x =>
    obtain ⟨r, hr⟩ := List.head?_eq_some_iff.mp h
    split
    case h_1 hx => cases hx
    case h_2 hx =>
      cases hx
      exact skip_bind hr rfl (.pure _)
    case h_3 =>
      exact bind (hexpr _) fun v d => bind (pinned v (listTail hexpr hitems)) fun w d =>
        onMachine (.cons lexicon_frame v w)

end Step

theorem expr_items (fuel : Nat) :
    (∀ c, Learns c (ReadAction.expr fuel)) ∧ ∀ c, Learns c (ReadAction.items fuel) := by
  induction fuel with
  | zero => exact ⟨fun _ => still fun _ => rfl, fun _ => still fun _ => rfl⟩
  | succ fuel ih => exact ⟨fun _ => expr_succ ih.1 ih.2, fun _ => items_succ ih.1 ih.2⟩

theorem read (c : Cursor) : Learns c ReadAction.read := by
  have hend : Learns c atEnd := blanks_bind (peek_bind (.pure _))
  refine bind hend fun b d => ?_
  split
  · exact .pure _
  · exact fun m => bind ((expr_items _).1 _) (fun v _ => .pure (some v)) m

end Learns

/-- Reading takes a part of the text and interns the names in it from left to right, however it ends: the
names of the lexicon are those it had and behind them, in the order in which they stand first in that part,
those that are new.  Evaluation leaves the lexicon as it is. -/
theorem reading_adds_names :
    (∀ s : Reading, ∃ taken,
      s.cursor.rest = taken ++ (ending (ReadAction.read.run s)).cursor.rest ∧
      (ending (ReadAction.read.run s)).cursor.pos = s.cursor.pos + taken.length ∧
      (ending (ReadAction.read.run s)).machine.lexicon =
        (s.machine.lexicon.internAll (names taken)).2 ∧
      (ending (ReadAction.read.run s)).machine.lexicon.names.toList =
        s.machine.lexicon.names.toList ++ s.machine.lexicon.fresh (names taken)) ∧
    ∀ fuel expr scope m, (ending ((evalIn fuel expr scope).run m)).lexicon = m.lexicon := by
  refine ⟨fun s => ?_, fun fuel expr scope m => evalIn_leaves lexicon_frame fuel expr scope m⟩
  obtain ⟨hsize, ss, hscan, hlexicon⟩ := Learns.read s.cursor s.machine
  obtain ⟨taken, htaken, rfl⟩ := hscan.exists_taken
  refine ⟨taken, htaken, ?_, hlexicon, ?_⟩
  · have hlength := congrArg List.length htaken
    have hbefore := s.cursor.pos_add_length
    have hbehind := (ending (ReadAction.read.run s)).cursor.pos_add_length
    rw [List.length_append] at hlength
    have hsize : (ending (ReadAction.read.run s)).cursor.size = s.cursor.size := hsize
    have hlength : s.cursor.rest.length =
      taken.length + (ending (ReadAction.read.run s)).cursor.rest.length := hlength
    omega
  · exact (congrArg (fun l => l.names.toList) hlexicon).trans (Lexicon.names_internAll _ _)

/-- Names stand between delimiters, behind dots and quotes, and may have more of these inside. -/
example : names "(a 'b.c . ''d) (.e".toList = ["a", "b.c", "d", "e"] := by decide

end ArenaLisp
